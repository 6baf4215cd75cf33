import OsLabs.Shell.ShellLexer

/-!
The parser of `xv6/sh.c` accepts exactly its grammar. One lemma for each loop says what a round does to the
tokens that are left; soundness is by induction on the fuel and completeness by induction on the derivation.
-/

namespace OsLabs.Shell

open Outcomes

variable {line : List Char}

def Clear (toks : List Char) (ts : List Lexeme) : Prop := ts.head?.any (Lexeme.begins toks) = false

theorem clear_nil {toks : List Char} : Clear toks [] := rfl

theorem clear_cons {toks : List Char} {first : Lexeme} {ts : List Lexeme} :
    Clear toks (first :: ts) ↔ first.begins toks = false := Iff.rfl

section Peeks

variable (nulFree : nul ∉ line) {ps : Nat} (toks : List Char)

include nulFree

theorem peek_clear (symbols : ∀ c ∈ toks, c ∈ metas) (clear : Clear toks (left line ps)) :
    (peek line ps toks).2 = false := by
  rw [(peek_spec nulFree ps _ symbols).1]
  exact clear

theorem peek_begins (symbols : ∀ c ∈ toks, c ∈ metas) {first : Lexeme} {ts : List Lexeme}
    (begins : left line ps = first :: ts) (here : first.begins toks = true) : (peek line ps toks).2 = true := by
  rw [(peek_spec nulFree ps _ symbols).1, begins]
  exact here

theorem gettoken_symbol {c : Char} {ts : List Lexeme} (begins : left line ps = .sym c :: ts) :
    (xv6.gettoken line ps).tok = .sym c ∧ left line (xv6.gettoken line ps).s = ts := by
  cases gettoken_scans nulFree ps with
  | eof _ none => simp [none] at begins
  | sym d tok first =>
      rw [first] at begins
      obtain ⟨same, rest⟩ := List.cons.inj begins
      exact ⟨by rw [tok, Lexeme.sym.inj same], rest⟩
  | append _ first => simp [first] at begins
  | word _ _ first => simp [first] at begins

theorem gettoken_append {ts : List Lexeme} (begins : left line ps = .append :: ts) :
    (xv6.gettoken line ps).tok = .append ∧ left line (xv6.gettoken line ps).s = ts := by
  cases gettoken_scans nulFree ps with
  | eof _ none => simp [none] at begins
  | sym d _ first => simp [first] at begins
  | append tok first =>
      rw [first] at begins
      exact ⟨tok, (List.cons.inj begins).2⟩
  | word _ _ first => simp [first] at begins

theorem gettoken_word {text : Word} {ts : List Lexeme} (begins : left line ps = .word text :: ts) :
    (xv6.gettoken line ps).tok = .word ∧ left line (xv6.gettoken line ps).s = ts ∧
      IsSpan line ⟨(xv6.gettoken line ps).q, (xv6.gettoken line ps).eq⟩ ∧
      slice line ⟨(xv6.gettoken line ps).q, (xv6.gettoken line ps).eq⟩ = text := by
  cases gettoken_scans nulFree ps with
  | eof _ none => simp [none] at begins
  | sym d _ first => simp [first] at begins
  | append _ first => simp [first] at begins
  | word tok span first =>
      rw [first] at begins
      obtain ⟨same, rest⟩ := List.cons.inj begins
      exact ⟨tok, rest, span, Lexeme.word.inj same⟩

theorem gettoken_other (other : ∀ text ts, left line ps ≠ .word text :: ts) : (xv6.gettoken line ps).tok ≠ .word := by
  cases gettoken_scans nulFree ps with
  | eof tok => simp [tok]
  | sym d tok => simp [tok]
  | append tok => simp [tok]
  | word _ _ first => exact absurd first (other _ _)

end Peeks

theorem operator_cases {first : Lexeme} (operator : first.begins ['<', '>'] = true) :
    first = .sym '<' ∨ first = .sym '>' ∨ first = .append := by
  cases first with
  | sym c => simpa [Lexeme.begins] using operator
  | append => simp
  | word text => simp [Lexeme.begins] at operator

theorem Redirects.unique {ts : List Lexeme} {one other : Redir Word} (first : Redirects ts one)
    (second : Redirects ts other) : other = one := by
  cases first <;> cases second <;> rfl

section Redirs

variable (nulFree : nul ∉ line) {ps : Nat} (fuel : Nat) (redirs : List (Redir Span))

include nulFree

theorem gettoken_operator {first : Lexeme} {ts : List Lexeme} (begins : left line ps = first :: ts)
    (operator : first.begins ['<', '>'] = true) (file : Token) :
    left line (xv6.gettoken line ps).s = ts ∧ ∃ redir, xv6.redirect line (xv6.gettoken line ps).tok file = [redir] ∧
      redir.file = ⟨file.q, file.eq⟩ ∧ ∀ text, slice line ⟨file.q, file.eq⟩ = text →
        Redirects [first, .word text] (redir.map (slice line)) := by
  rcases operator_cases operator with rfl | rfl | rfl
  · obtain ⟨tok, rest⟩ := gettoken_symbol nulFree begins
    refine ⟨rest, _, by rw [tok]; rfl, rfl, ?_⟩
    rintro text rfl
    exact .input
  · obtain ⟨tok, rest⟩ := gettoken_symbol nulFree begins
    refine ⟨rest, _, by rw [tok]; rfl, rfl, ?_⟩
    rintro text rfl
    exact .output
  · obtain ⟨tok, rest⟩ := gettoken_append nulFree begins
    refine ⟨rest, _, by rw [tok]; rfl, rfl, ?_⟩
    rintro text rfl
    exact .append

theorem parseredirs_clear (clear : Clear ['<', '>'] (left line ps)) :
    ∃ ps', xv6.parseredirs line (fuel + 1) redirs ps = .ok (redirs, ps') ∧ left line ps' = left line ps ∧
      (ps ≤ line.length → ps' ≤ line.length) := by
  have symbols : ∀ c ∈ ['<', '>'], c ∈ metas := by simp [metas]
  refine ⟨_, ?_, (peek_spec nulFree ps _ symbols).2, skip_le⟩
  rw [Dialect.parseredirs]
  simp only [peek_clear nulFree _ symbols clear, Bool.false_eq_true, if_false]

theorem parseredirs_word {first : Lexeme} {text : Word} {ts : List Lexeme}
    (begins : left line ps = first :: .word text :: ts) (operator : first.begins ['<', '>'] = true) :
    ∃ redir ps', xv6.parseredirs line (fuel + 1) redirs ps = xv6.parseredirs line fuel (redirs ++ [redir]) ps' ∧
      left line ps' = ts ∧ IsSpan line redir.file ∧ Redirects [first, .word text] (redir.map (slice line)) ∧
      (ps ≤ line.length → ps' ≤ line.length) := by
  have symbols : ∀ c ∈ ['<', '>'], c ∈ metas := by simp [metas]
  obtain ⟨same, moved⟩ := peek_spec nulFree ps _ symbols
  rw [← moved] at begins
  obtain ⟨after, redir, result, kept, derives⟩ := gettoken_operator nulFree begins operator
    (xv6.gettoken line (xv6.gettoken line (peek line ps ['<', '>']).1).s)
  obtain ⟨tok, rest, span, same⟩ := gettoken_word nulFree after
  refine ⟨redir, _, ?_, rest, kept ▸ span, derives text same, fun inside => gettoken_le _ (gettoken_le _ (skip_le inside))⟩
  rw [Dialect.parseredirs]
  simp only [peek_begins nulFree _ symbols (moved ▸ begins) operator, if_true, tok, ne_eq, not_true_eq_false, if_false,
    result]

theorem parseredirs_missing {first : Lexeme} {ts : List Lexeme} (begins : left line ps = first :: ts)
    (operator : first.begins ['<', '>'] = true) (missing : ∀ text rest, ts ≠ .word text :: rest) :
    xv6.parseredirs line (fuel + 1) redirs ps = .error (.exits "missing file for redirection") := by
  have symbols : ∀ c ∈ ['<', '>'], c ∈ metas := by simp [metas]
  obtain ⟨same, moved⟩ := peek_spec nulFree ps _ symbols
  rw [← moved] at begins
  obtain ⟨after, -⟩ := gettoken_operator nulFree begins operator ⟨.eof, 0, 0, 0⟩
  have other := gettoken_other nulFree (after ▸ missing)
  rw [Dialect.parseredirs]
  simp only [peek_begins nulFree _ symbols (moved ▸ begins) operator, if_true, ne_eq, other, not_false_eq_true]
  rfl

structure Redirected (line : List Char) (ps : Nat) (redirs : List (Redir Span)) (result : List (Redir Span) × Nat)
    (ts : List Lexeme) (new : List (Redir Span)) : Prop where
  redirs : result.1 = redirs ++ new
  left : left line ps = ts ++ left line result.2
  derives : Redirections ts (new.map (Redir.map (slice line)))
  spans : ∀ redir ∈ new, IsSpan line redir.file
  clear : Clear ['<', '>'] (Shell.left line result.2)
  within : ps ≤ line.length → result.2 ≤ line.length

theorem parseredirs_sound (enough : (left line ps).length < fuel) :
    Meets (· ≠ .fuel) (fun result => ∃ ts new, Redirected line ps redirs result ts new)
      (xv6.parseredirs line fuel redirs ps) := by
  induction fuel generalizing ps redirs with
  | zero => exact absurd enough (Nat.not_lt_zero _)
  | succ fuel ih =>
      by_cases clear : Clear ['<', '>'] (left line ps)
      · obtain ⟨ps', result, same, within⟩ := parseredirs_clear nulFree fuel redirs clear
        rw [result]
        exact ⟨[], [], (List.append_nil _).symm, same.symm, .nil, by simp, same ▸ clear, within⟩
      · cases begins : left line ps with
        | nil => exact absurd (begins ▸ clear_nil) clear
        | cons first ts =>
            have operator : first.begins ['<', '>'] = true := by
              rw [begins, clear_cons] at clear
              simpa using clear
            by_cases file : ∃ text rest, ts = .word text :: rest
            · obtain ⟨text, rest, rfl⟩ := file
              obtain ⟨redir, ps', result, same, span, one, within⟩ :=
                parseredirs_word nulFree fuel redirs begins operator
              rw [result]
              refine (ih _ (by rw [begins] at enough; simp [same] at enough ⊢; omega)).imp ?_
              rintro ⟨redirs', last⟩ ⟨ts, new, together, remains, more, spans, clear, within'⟩
              refine ⟨first :: .word text :: ts, redir :: new, ?_, ?_, .cons one more, ?_, clear, fun inside => within' (within inside)⟩
              · rw [together, List.append_assoc, List.singleton_append]
              · rw [begins, ← same, remains]
                rfl
              · intro other member
                rcases List.mem_cons.mp member with rfl | member
                · exact span
                · exact spans other member
            · rw [parseredirs_missing nulFree fuel redirs begins operator fun text rest same => file ⟨text, rest, same⟩]
              simp

theorem parseredirs_complete {ts rest : List Lexeme} {derived : List (Redir Word)} (derives : Redirections ts derived)
    (begins : left line ps = ts ++ rest) (clear : Clear ['<', '>'] rest) (enough : (left line ps).length < fuel) :
    ∃ new ps', xv6.parseredirs line fuel redirs ps = .ok (redirs ++ new, ps') ∧ left line ps' = rest ∧
      new.map (Redir.map (slice line)) = derived := by
  induction derives generalizing ps fuel redirs with
  | nil =>
      obtain ⟨fuel, rfl⟩ := Nat.exists_eq_add_one_of_ne_zero (Nat.ne_zero_of_lt enough)
      obtain ⟨ps', result, same, -⟩ := parseredirs_clear nulFree fuel redirs
        (by rw [begins]; exact clear)
      exact ⟨[], ps', by rw [result, List.append_nil], same.trans begins, rfl⟩
  | @cons first more redir others one _ ih =>
      obtain ⟨fuel, rfl⟩ := Nat.exists_eq_add_one_of_ne_zero (Nat.ne_zero_of_lt enough)
      have shape : ∃ operator text, first = [operator, .word text] ∧ operator.begins ['<', '>'] = true := by
        cases one <;> exact ⟨_, _, rfl, rfl⟩
      obtain ⟨operator, text, rfl, opens⟩ := shape
      obtain ⟨parsed, ps', result, same, -, one', -⟩ :=
        parseredirs_word nulFree fuel redirs (show left line ps = operator :: .word text :: (more ++ rest) from begins) opens
      obtain ⟨new, last, result', remains, mapped⟩ := ih fuel (redirs ++ [parsed]) same
        (by rw [begins] at enough; simp [same] at enough ⊢; omega)
      refine ⟨parsed :: new, last, ?_, remains, ?_⟩
      · rw [result, result', List.append_assoc, List.singleton_append]
      · rw [List.map_cons, mapped, one.unique one']

end Redirs

def Stops (ts : List Lexeme) : Prop := ts = [] ∨ ts.head?.any (Lexeme.begins ['|', ')', '&', ';']) = true

theorem Stops.clear {ts : List Lexeme} (stops : Stops ts) : Clear ['<', '>'] ts := by
  rcases stops with rfl | begins
  · exact clear_nil
  · cases ts with
    | nil => exact clear_nil
    | cons first rest =>
        rw [clear_cons]
        cases first with
        | sym c =>
            have symbol : c = '|' ∨ c = ')' ∨ c = '&' ∨ c = ';' := by simpa [Lexeme.begins] using begins
            rcases symbol with rfl | rfl | rfl | rfl <;> decide
        | append => simp [Lexeme.begins] at begins
        | word text => rfl

theorem Arguments.clear {ts rest : List Lexeme} {words : List Word} {more : List (Redir Word)}
    (arguments : Arguments ts words more) (stops : Stops rest) : Clear ['<', '>'] (ts ++ rest) := by
  cases arguments with
  | nil => exact stops.clear
  | cons => rfl

section Args

variable (nulFree : nul ∉ line) {ps : Nat} (fuel : Nat) (argv : List Span) (redirs : List (Redir Span))

include nulFree

theorem parseargs_stop (stops : Stops (left line ps)) :
    ∃ ps', xv6.parseargs line (fuel + 1) argv redirs ps = .ok (argv, redirs, ps') ∧
      left line ps' = left line ps ∧ (ps ≤ line.length → ps' ≤ line.length) := by
  have symbols : ∀ c ∈ xv6.stops, c ∈ metas := by simp [xv6, metas]
  obtain ⟨same, moved⟩ := peek_spec nulFree ps _ symbols
  by_cases begins : (left line ps).head?.any (Lexeme.begins ['|', ')', '&', ';']) = true
  · refine ⟨_, ?_, moved, skip_le⟩
    rw [Dialect.parseargs]
    simp only [same.trans begins, if_true]
  · have none := stops.resolve_right begins
    have quiet : (peek line ps xv6.stops).2 = false := by rw [same]; exact Bool.eq_false_iff.mpr begins
    cases gettoken_scans nulFree (peek line ps xv6.stops).1 with
    | eof tok _ still =>
        refine ⟨_, ?_, still.trans none.symm, fun inside => gettoken_le _ (skip_le inside)⟩
        rw [Dialect.parseargs]
        simp only [quiet, Bool.false_eq_true, if_false, tok, if_true]
    | sym c _ first => simp [moved, none] at first
    | append _ first => simp [moved, none] at first
    | word _ _ first => simp [moved, none] at first

theorem parseargs_word {text : Word} {ts : List Lexeme} (begins : left line ps = .word text :: ts) :
    ∃ span ps', IsSpan line span ∧ slice line span = text ∧ left line ps' = ts ∧
      (ps ≤ line.length → ps' ≤ line.length) ∧
      xv6.parseargs line (fuel + 1) argv redirs ps =
        if maxargs ≤ argv.length + 1 then .error (.exits "too many args")
        else xv6.parseredirs line fuel redirs ps' >>= fun result =>
          xv6.parseargs line fuel (argv ++ [span]) result.1 result.2 := by
  have symbols : ∀ c ∈ xv6.stops, c ∈ metas := by simp [xv6, metas]
  obtain ⟨same, moved⟩ := peek_spec nulFree ps _ symbols
  have quiet : (peek line ps xv6.stops).2 = false := by rw [same, begins]; rfl
  rw [← moved] at begins
  obtain ⟨tok, rest, span, text⟩ := gettoken_word nulFree begins
  refine ⟨_, _, span, text, rest, fun inside => gettoken_le _ (skip_le inside), ?_⟩
  rw [Dialect.parseargs]
  simp only [quiet, Bool.false_eq_true, if_false, tok, reduceCtorEq, ne_eq, not_true_eq_false,
    List.length_append, List.length_singleton]
  rfl

theorem parseargs_bad (word : ∀ text ts, left line ps ≠ .word text :: ts) (goes : ¬ Stops (left line ps)) :
    xv6.parseargs line (fuel + 1) argv redirs ps = .error (.exits "syntax") := by
  have symbols : ∀ c ∈ xv6.stops, c ∈ metas := by simp [xv6, metas]
  obtain ⟨same, moved⟩ := peek_spec nulFree ps _ symbols
  have quiet : (peek line ps xv6.stops).2 = false := by
    rw [same, Bool.eq_false_iff]
    exact fun begins => goes (Or.inr begins)
  have other := gettoken_other nulFree (moved ▸ word)
  have some : (xv6.gettoken line (peek line ps xv6.stops).1).tok ≠ .eof := by
    cases gettoken_scans nulFree (peek line ps xv6.stops).1 with
    | eof _ none => exact absurd (Or.inl (moved ▸ none)) goes
    | sym c tok => simp [tok]
    | append tok => simp [tok]
    | word tok => simp [tok]
  rw [Dialect.parseargs]
  simp only [quiet, Bool.false_eq_true, if_false, some, other, ne_eq, not_false_eq_true, if_true]
  rfl

structure Supplied (line : List Char) (ps : Nat) (argv : List Span) (redirs : List (Redir Span))
    (result : List Span × List (Redir Span) × Nat) (ts : List Lexeme) (words : List Span)
    (new : List (Redir Span)) : Prop where
  few : argv.length < maxargs → result.1.length < maxargs
  argv : result.1 = argv ++ words
  redirs : result.2.1 = redirs ++ new
  left : left line ps = ts ++ left line result.2.2
  derives : Arguments ts (words.map (slice line)) (new.map (Redir.map (slice line)))
  words : ∀ word ∈ words, IsSpan line word
  files : ∀ redir ∈ new, IsSpan line redir.file
  within : ps ≤ line.length → result.2.2 ≤ line.length

theorem parseargs_sound (enough : (left line ps).length < fuel) :
    Meets (· ≠ .fuel) (fun result => ∃ ts words new, Supplied line ps argv redirs result ts words new)
      (xv6.parseargs line fuel argv redirs ps) := by
  induction fuel generalizing ps argv redirs with
  | zero => exact absurd enough (Nat.not_lt_zero _)
  | succ fuel ih =>
      by_cases stops : Stops (left line ps)
      · obtain ⟨ps', result, same, within⟩ := parseargs_stop nulFree fuel argv redirs stops
        rw [result]
        exact ⟨[], [], [], id, (List.append_nil _).symm, (List.append_nil _).symm, same.symm, .nil, by simp, by simp,
          within⟩
      · by_cases word : ∃ text ts, left line ps = .word text :: ts
        · obtain ⟨text, ts, begins⟩ := word
          obtain ⟨span, ps', isSpan, same, remains, within, result⟩ :=
            parseargs_word nulFree fuel argv redirs begins
          rw [begins, List.length_cons] at enough
          rw [result]
          split
          · simp
          · rename_i few
            refine (parseredirs_sound nulFree _ _ (by rw [remains]; omega)).bind ?_
            rintro ⟨redirs', middle⟩ ⟨ts', new, together, splits, more, files, -, within'⟩
            dsimp only at together splits
            subst together
            have shorter := congrArg List.length splits
            rw [remains, List.length_append] at shorter
            refine (ih _ _ (by dsimp only; omega)).imp ?_
            rintro ⟨argv', redirs', last⟩ ⟨ts'', words, new', fits, argvs, all, splits', others, spans, files',
              within''⟩
            refine ⟨.word text :: (ts' ++ ts''), span :: words, new ++ new', fun _ => fits ?_, ?_, ?_, ?_, ?_, ?_, ?_,
              fun inside => within'' (within' (within inside))⟩
            · rw [List.length_append, List.length_singleton]
              omega
            · rw [argvs, List.append_assoc, List.singleton_append]
            · rw [all, List.append_assoc]
            · rw [begins, ← remains, splits, splits', List.cons_append, List.append_assoc]
            · rw [List.map_cons, List.map_append, same]
              exact .cons more others
            · intro other member
              rcases List.mem_cons.mp member with rfl | member
              · exact isSpan
              · exact spans other member
            · intro other member
              rcases List.mem_append.mp member with member | member
              · exact files other member
              · exact files' other member
        · rw [parseargs_bad nulFree fuel argv redirs (fun text ts same => word ⟨text, ts, same⟩) stops]
          simp

theorem parseargs_complete {ts rest : List Lexeme} {words : List Word} {more : List (Redir Word)}
    (derives : Arguments ts words more) (begins : left line ps = ts ++ rest) (stops : Stops rest)
    (few : argv.length + words.length < maxargs) (enough : (left line ps).length < fuel) :
    ∃ spans new ps', xv6.parseargs line fuel argv redirs ps = .ok (argv ++ spans, redirs ++ new, ps') ∧
      left line ps' = rest ∧ spans.map (slice line) = words ∧ new.map (Redir.map (slice line)) = more := by
  induction derives generalizing ps fuel argv redirs with
  | nil =>
      obtain ⟨fuel, rfl⟩ := Nat.exists_eq_add_one_of_ne_zero (Nat.ne_zero_of_lt enough)
      obtain ⟨ps', result, same, -⟩ := parseargs_stop nulFree fuel argv redirs
        (by rw [begins]; exact stops)
      exact ⟨[], [], ps', by rw [result, List.append_nil, List.append_nil], same.trans begins, rfl, rfl⟩
  | @cons text first others words redirs' more own arguments ih =>
      obtain ⟨fuel, rfl⟩ := Nat.exists_eq_add_one_of_ne_zero (Nat.ne_zero_of_lt enough)
      obtain ⟨span, ps', -, same, remains, -, result⟩ := parseargs_word nulFree fuel argv redirs
        (show left line ps = .word text :: (first ++ others ++ rest) from begins)
      rw [List.append_assoc] at remains
      have lengths := congrArg List.length remains
      rw [begins] at enough
      simp only [List.cons_append, List.length_cons, List.length_append] at enough few lengths
      obtain ⟨new, middle, parsed, left', mapped⟩ := parseredirs_complete nulFree fuel redirs own
        remains (arguments.clear stops) (by omega)
      have lengths' := congrArg List.length left'
      simp only [List.length_append] at lengths'
      obtain ⟨spans, new', last, result', remains', mapped', more'⟩ := ih fuel (argv ++ [span])
        (redirs ++ new) left' (by rw [List.length_append, List.length_singleton]; omega) (by omega)
      refine ⟨span :: spans, new ++ new', last, ?_, remains', ?_, ?_⟩
      · rw [result, if_neg (by omega), parsed, ok_bind, result', List.append_assoc, List.append_assoc,
          List.singleton_append]
      · rw [List.map_cons, same, mapped']
      · rw [List.map_append, mapped, more']

end Args

namespace Cmd

variable {W V : Type}

def words : Cmd W → List W
  | .exec argv => argv
  | .redir cmd target => cmd.words ++ [target.file]
  | .pipe left right | .list left right => left.words ++ right.words
  | .back cmd => cmd.words

theorem map_foldl_redir (f : W → V) (redirs : List (Redir W)) (cmd : Cmd W) :
    (redirs.foldl .redir cmd).map f = (redirs.map (Redir.map f)).foldl .redir (cmd.map f) := by
  induction redirs generalizing cmd with
  | nil => rfl
  | cons redir rest ih => exact ih (.redir cmd redir)

theorem words_foldl_redir (redirs : List (Redir W)) (cmd : Cmd W) :
    (redirs.foldl .redir cmd).words = cmd.words ++ redirs.map (·.file) := by
  induction redirs generalizing cmd with
  | nil => exact (List.append_nil _).symm
  | cons redir rest ih =>
      rw [List.foldl_cons, ih, words, List.append_assoc]
      rfl

theorem map_backs (f : W → Word) (count : Nat) (cmd : Cmd W) :
    ((Cmd.back)^[count] cmd).map f = backs count (cmd.map f) := by
  induction count generalizing cmd with
  | zero => rfl
  | succ count ih => exact ih (.back cmd)

theorem words_backs (count : Nat) (cmd : Cmd W) : ((Cmd.back)^[count] cmd).words = cmd.words := by
  induction count generalizing cmd with
  | zero => rfl
  | succ count ih => exact ih (.back cmd)

end Cmd

structure Parsed (line : List Char) (kind : Nonterminal) (ps : Nat) (result : Cmd Span × Nat)
    (ts : List Lexeme) : Prop where
  left : left line ps = ts ++ left line result.2
  derives : Derives kind ts (result.1.map (slice line))
  spans : ∀ word ∈ result.1.words, IsSpan line word
  within : ps ≤ line.length → result.2 ≤ line.length

section Functions

variable (nulFree : nul ∉ line) {ps : Nat} (fuel : Nat)

include nulFree

theorem parsesimple_sound (enough : (left line ps).length < fuel) :
    Meets (· ≠ .fuel) (fun result => ∃ ts, Parsed line .exec ps result ts) (xv6.parsesimple line fuel ps) := by
  rw [Dialect.parsesimple]
  refine (parseredirs_sound nulFree _ _ enough).bind ?_
  rintro ⟨redirs, middle⟩ ⟨ts, new, together, splits, redirected, files, -, within⟩
  dsimp only at together splits
  subst together
  have shorter := congrArg List.length splits
  rw [List.length_append] at shorter
  refine (parseargs_sound nulFree _ _ _ (by omega)).bind ?_
  rintro ⟨argv, redirs, last⟩ ⟨ts', words, more, few, argvs, all, splits', arguments, spans, files', within'⟩
  dsimp only [List.nil_append] at argvs all splits'
  subst argvs all
  refine ⟨ts ++ ts', ?_, ?_, ?_, fun inside => within' (within inside)⟩
  · rw [splits, splits', List.append_assoc]
  · rw [Cmd.map_foldl_redir, List.map_append]
    refine .simple redirected arguments ?_
    have fits := few (by decide)
    rw [List.length_map]
    dsimp only [maxargs] at fits ⊢
    omega
  · intro word member
    rw [Cmd.words_foldl_redir] at member
    rcases List.mem_append.mp member with member | member
    · exact spans word member
    · obtain ⟨redir, written, rfl⟩ := List.mem_map.mp member
      rcases List.mem_append.mp written with member | member
      · exact files redir member
      · exact files' redir member

theorem parsesimple_complete {before after rest : List Lexeme} {redirs more : List (Redir Word)} {words : List Word}
    (redirected : Redirections before redirs) (arguments : Arguments after words more)
    (few : words.length ≤ maxargs - 1) (begins : left line ps = before ++ after ++ rest) (stops : Stops rest)
    (enough : (left line ps).length < fuel) :
    ∃ cmd ps', xv6.parsesimple line fuel ps = .ok (cmd, ps') ∧ left line ps' = rest ∧
      cmd.map (slice line) = (redirs ++ more).foldl .redir (.exec words) := by
  rw [List.append_assoc] at begins
  obtain ⟨new, middle, parsed, remains, mapped⟩ :=
    parseredirs_complete nulFree fuel [] redirected begins (arguments.clear stops) enough
  have shorter := congrArg List.length begins
  rw [List.length_append, ← remains] at shorter
  obtain ⟨spans, new', last, parsed', remains', words', mapped'⟩ :=
    parseargs_complete nulFree fuel [] new arguments remains stops
      (by dsimp only [maxargs, List.length_nil] at few ⊢; omega) (by omega)
  refine ⟨(new ++ new').foldl .redir (.exec spans), last, ?_, remains', ?_⟩
  · rw [Dialect.parsesimple, parsed, ok_bind]
    dsimp only [List.nil_append]
    rw [parsed', ok_bind]
    rfl
  · rw [Cmd.map_foldl_redir, List.map_append, mapped, mapped', Cmd.map, words']

theorem parsebacks_spec {count : Nat} {rest : List Lexeme} (cmd : Cmd Span)
    (begins : left line ps = List.replicate count (.sym '&') ++ rest) (clear : Clear ['&'] rest)
    (enough : count < fuel) :
    ∃ ps', Xv6.parsebacks line fuel cmd ps = .ok ((Cmd.back)^[count] cmd, ps') ∧ left line ps' = rest ∧
      (ps ≤ line.length → ps' ≤ line.length) := by
  have symbols : ∀ c ∈ ['&'], c ∈ metas := by simp [metas]
  induction count generalizing ps fuel cmd with
  | zero =>
      obtain ⟨fuel, rfl⟩ := Nat.exists_eq_add_one_of_ne_zero (Nat.ne_zero_of_lt enough)
      have here : left line ps = rest := begins
      refine ⟨_, ?_, (peek_spec nulFree ps _ symbols).2.trans here, skip_le⟩
      rw [Xv6.parsebacks]
      simp only [peek_clear nulFree _ symbols (here ▸ clear), Bool.false_eq_true, if_false]
      rfl
  | succ count ih =>
      obtain ⟨fuel, rfl⟩ := Nat.exists_eq_add_one_of_ne_zero (Nat.ne_zero_of_lt enough)
      have here : left line ps = .sym '&' :: (List.replicate count (.sym '&') ++ rest) := begins
      have moved := (peek_spec nulFree ps _ symbols).2
      obtain ⟨-, after⟩ := gettoken_symbol nulFree (moved.trans here)
      obtain ⟨last, result, remains, within⟩ := ih fuel (.back cmd) after (by omega)
      refine ⟨last, ?_, remains, fun inside => within (gettoken_le _ (skip_le inside))⟩
      rw [Xv6.parsebacks]
      simp only [peek_begins nulFree _ symbols here rfl, if_true]
      exact result

end Functions

end OsLabs.Shell
