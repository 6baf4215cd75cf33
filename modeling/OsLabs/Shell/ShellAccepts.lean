import OsLabs.Shell.ShellParser

/-!
The recursive functions of `xv6/sh.c` against the grammar, and the strings that are left in the buffer.
-/

namespace OsLabs.Shell

open Outcomes Xv6

variable {line : List Char}

section Sound

variable (nulFree : nul ∉ line)

include nulFree

theorem peek_one (ps : Nat) {c : Char} (symbol : c ∈ metas) (single : c ≠ '>') :
    left line (peek line ps [c]).1 = left line ps ∧
      ((peek line ps [c]).2 = true ∧ left line ps = .sym c :: left line (xv6.gettoken line (peek line ps [c]).1).s ∨
        (peek line ps [c]).2 = false ∧ Clear [c] (left line ps)) := by
  have symbols : ∀ d ∈ [c], d ∈ metas := by simpa using symbol
  obtain ⟨same, moved⟩ := peek_spec nulFree ps _ symbols
  refine ⟨moved, ?_⟩
  cases begins : (left line ps).head?.any (Lexeme.begins [c]) with
  | false => exact Or.inr ⟨same.trans begins, begins⟩
  | true =>
      refine Or.inl ⟨same.trans begins, ?_⟩
      cases first : left line ps with
      | nil => simp [first] at begins
      | cons head rest =>
          have head : head = .sym c := by
            rw [first] at begins
            cases head with
            | sym d => simpa [Lexeme.begins] using begins
            | append => simp [Lexeme.begins, Ne.symm single] at begins
            | word text => simp [Lexeme.begins] at begins
          rw [head] at first ⊢
          rw [(gettoken_symbol nulFree (moved.trans first)).2]

omit nulFree in
theorem backs_split (ts : List Lexeme) :
    ∃ count rest, ts = List.replicate count (.sym '&') ++ rest ∧ Clear ['&'] rest := by
  induction ts with
  | nil => exact ⟨0, [], rfl, clear_nil⟩
  | cons first ts ih =>
      by_cases more : first = .sym '&'
      · obtain ⟨count, rest, rfl, clear⟩ := ih
        exact ⟨count + 1, rest, by rw [more, List.replicate_succ, List.cons_append], clear⟩
      · refine ⟨0, first :: ts, rfl, ?_⟩
        rw [clear_cons]
        cases first with
        | sym c => simpa [Lexeme.begins] using more
        | append => rfl
        | word text => rfl

/-- With enough fuel for the tokens that are left, the functions of the parser end, and what they return is
derived by the tokens they take. -/
structure Sound (text : List Char) (fuel : Nat) : Prop where
  line : ∀ ps, 4 * (left text ps).length + 4 ≤ fuel →
    Meets (· ≠ .fuel) (fun result => ∃ ts, Parsed text .line ps result ts) (parseline text fuel ps)
  pipe : ∀ ps, 4 * (left text ps).length + 3 ≤ fuel →
    Meets (· ≠ .fuel) (fun result => ∃ ts, Parsed text .pipe ps result ts) (parsepipe text fuel ps)
  exec : ∀ ps, 4 * (left text ps).length + 2 ≤ fuel →
    Meets (· ≠ .fuel) (fun result => ∃ ts, Parsed text .exec ps result ts) (parseexec text fuel ps)
  block : ∀ ps, 4 * (left text ps).length + 1 ≤ fuel →
    Meets (· ≠ .fuel) (fun result => ∃ ts, Parsed text .exec ps result ts) (parseblock text fuel ps)

variable {fuel ps : Nat}

theorem Sound.parseline (sound : Sound line fuel) (enough : 4 * (left line ps).length + 4 ≤ fuel + 1) :
    Meets (· ≠ .fuel) (fun result => ∃ ts, Parsed line .line ps result ts) (parseline line (fuel + 1) ps) := by
  rw [Xv6.parseline]
  refine (sound.pipe ps (by omega)).bind ?_
  rintro ⟨cmd, middle⟩ ⟨ts, splits, pipe, spans, within⟩
  dsimp only at splits pipe spans within ⊢
  obtain ⟨count, rest, backed, clear⟩ := backs_split (left line middle)
  have lengths := congrArg List.length splits
  have lengths' := congrArg List.length backed
  rw [List.length_append] at lengths lengths'
  rw [List.length_replicate] at lengths'
  obtain ⟨after, result, remains, within'⟩ := parsebacks_spec nulFree fuel cmd backed clear (by omega)
  rw [result, ok_bind]
  dsimp only
  have words := Cmd.words_backs count cmd
  have mapped := Cmd.map_backs (slice line) count cmd
  obtain ⟨moved, ⟨more, first⟩ | ⟨stop, -⟩⟩ := peek_one nulFree after (c := ';') (by decide) (by decide)
  · rw [more, if_pos rfl]
    have shorter := congrArg List.length (remains.symm.trans first)
    rw [List.length_cons] at shorter
    refine (sound.line _ (by omega)).bind ?_
    rintro ⟨right, last⟩ ⟨ts', splits', derives, spans', within''⟩
    dsimp only at splits' derives spans' within''
    refine ⟨ts ++ List.replicate count (.sym '&') ++ .sym ';' :: ts', ?_, ?_, ?_,
      fun inside => within'' (gettoken_le _ (skip_le (within' (within inside))))⟩
    · rw [splits, backed, ← remains, first, splits']
      simp
    · rw [Cmd.map, mapped]
      exact .list pipe derives
    · intro word member
      rw [Cmd.words, words] at member
      rcases List.mem_append.mp member with member | member
      · exact spans word member
      · exact spans' word member
  · rw [stop, if_neg (by simp)]
    refine ⟨ts ++ List.replicate count (.sym '&'), ?_, ?_, ?_, fun inside => skip_le (within' (within inside))⟩
    · rw [moved, remains, splits, backed, List.append_assoc]
    · rw [mapped]
      exact .line pipe
    · intro word member
      rw [words] at member
      exact spans word member

theorem Sound.parsepipe (sound : Sound line fuel) (enough : 4 * (left line ps).length + 3 ≤ fuel + 1) :
    Meets (· ≠ .fuel) (fun result => ∃ ts, Parsed line .pipe ps result ts) (parsepipe line (fuel + 1) ps) := by
  rw [Xv6.parsepipe]
  refine (sound.exec ps (by omega)).bind ?_
  rintro ⟨cmd, middle⟩ ⟨ts, splits, exec, spans, within⟩
  dsimp only at splits exec spans within ⊢
  have lengths := congrArg List.length splits
  rw [List.length_append] at lengths
  obtain ⟨moved, ⟨more, first⟩ | ⟨stop, -⟩⟩ := peek_one nulFree middle (c := '|') (by decide) (by decide)
  · rw [more, if_pos rfl]
    have shorter := congrArg List.length first
    rw [List.length_cons] at shorter
    refine (sound.pipe _ (by omega)).bind ?_
    rintro ⟨right, last⟩ ⟨ts', splits', derives, spans', within'⟩
    dsimp only at splits' derives spans' within'
    refine ⟨ts ++ .sym '|' :: ts', ?_, .pipe exec derives, ?_,
      fun inside => within' (gettoken_le _ (skip_le (within inside)))⟩
    · rw [splits, first, splits']
      simp
    · intro word member
      rcases List.mem_append.mp member with member | member
      · exact spans word member
      · exact spans' word member
  · rw [stop, if_neg (by simp)]
    exact ⟨ts, by rw [moved, splits], .single exec, spans, fun inside => skip_le (within inside)⟩

theorem Sound.parseblock (sound : Sound line fuel) (enough : 4 * (left line ps).length + 1 ≤ fuel + 1) :
    Meets (· ≠ .fuel) (fun result => ∃ ts, Parsed line .exec ps result ts) (parseblock line (fuel + 1) ps) := by
  rw [Xv6.parseblock]
  obtain ⟨moved, ⟨opens, first⟩ | ⟨other, -⟩⟩ := peek_one nulFree ps (c := '(') (by decide) (by decide)
  · simp only [opens, if_true]
    have shorter := congrArg List.length first
    rw [List.length_cons] at shorter
    refine (sound.line _ (by omega)).bind ?_
    rintro ⟨cmd, middle⟩ ⟨ts, splits, derives, spans, within⟩
    dsimp only at splits derives spans within ⊢
    have lengths := congrArg List.length splits
    rw [List.length_append] at lengths
    obtain ⟨-, ⟨closes, second⟩ | ⟨missing, -⟩⟩ := peek_one nulFree middle (c := ')') (by decide) (by decide)
    · rw [closes, if_pos rfl]
      have shorter' := congrArg List.length second
      rw [List.length_cons] at shorter'
      refine (parseredirs_sound nulFree _ _ (by omega)).bind ?_
      rintro ⟨redirs, last⟩ ⟨ts', new, together, splits', redirected, files, -, within'⟩
      dsimp only [List.nil_append] at together splits' within'
      subst together
      refine ⟨.sym '(' :: ts ++ .sym ')' :: ts', ?_, ?_, ?_, fun inside =>
        within' (gettoken_le _ (skip_le (within (gettoken_le _ (skip_le inside)))))⟩
      · rw [first, splits, second, splits']
        simp
      · rw [Cmd.map_foldl_redir]
        exact .block derives redirected
      · intro word member
        rw [Cmd.words_foldl_redir] at member
        rcases List.mem_append.mp member with member | member
        · exact spans word member
        · obtain ⟨redir, written, rfl⟩ := List.mem_map.mp member
          exact files redir written
    · rw [missing, if_neg (by simp)]
      simp
  · simp [other]

theorem Sound.parseexec (sound : Sound line fuel) (enough : 4 * (left line ps).length + 2 ≤ fuel + 1) :
    Meets (· ≠ .fuel) (fun result => ∃ ts, Parsed line .exec ps result ts) (parseexec line (fuel + 1) ps) := by
  rw [Xv6.parseexec]
  have moved := left_skip line ps
  dsimp only [peek]
  split
  · refine (sound.block _ (by rw [moved]; omega)).imp ?_
    rintro result ⟨ts, splits, derives, spans, within⟩
    exact ⟨ts, moved ▸ splits, derives, spans, fun inside => within (skip_le inside)⟩
  · refine (parsesimple_sound nulFree _ (by rw [moved]; omega)).imp ?_
    rintro result ⟨ts, splits, derives, spans, within⟩
    exact ⟨ts, moved ▸ splits, derives, spans, fun inside => within (skip_le inside)⟩

theorem parser_sound (fuel : Nat) : Sound line fuel := by
  induction fuel with
  | zero => exact ⟨by simp, by simp, by simp, by simp⟩
  | succ fuel ih =>
      exact ⟨fun ps => ih.parseline nulFree, fun ps => ih.parsepipe nulFree, fun ps => ih.parseexec nulFree,
        fun ps => ih.parseblock nulFree⟩

end Sound

section Complete

def parser : Nonterminal → List Char → Nat → Nat → Except Failure (Cmd Span × Nat)
  | .line => parseline
  | .pipe => parsepipe
  | .exec => parseexec

def enoughFuel : Nonterminal → Nat → Nat
  | .line, count => 4 * count + 4
  | .pipe, count => 4 * count + 3
  | .exec, count => 4 * count + 2

def follows : Nonterminal → List Char
  | .line => [')']
  | .pipe => [')', '&', ';']
  | .exec => [')', '&', ';', '|']

def Follows (kind : Nonterminal) (rest : List Lexeme) : Prop := rest = [] ∨ ∃ c ∈ follows kind, ∃ ts, rest = .sym c :: ts

theorem Follows.clear {kind : Nonterminal} {rest : List Lexeme} {c : Char} (follow : Follows kind rest)
    (other : c ∉ follows kind) : Clear [c] rest := by
  rcases follow with rfl | ⟨d, inside, ts, rfl⟩
  · exact clear_nil
  · rw [clear_cons]
    have apart : d ≠ c := fun same => other (same ▸ inside)
    simpa [Lexeme.begins] using apart

theorem Follows.stops {rest : List Lexeme} (follow : Follows .exec rest) : Stops rest := by
  rcases follow with rfl | ⟨c, inside, ts, rfl⟩
  · exact Or.inl rfl
  · refine Or.inr ?_
    have symbol : c = ')' ∨ c = '&' ∨ c = ';' ∨ c = '|' := by simpa [follows] using inside
    rcases symbol with rfl | rfl | rfl | rfl <;> rfl

theorem follows_backs {count : Nat} {rest : List Lexeme} (follow : Follows .pipe rest) :
    Follows .pipe (List.replicate count (.sym '&') ++ rest) := by
  cases count with
  | zero => exact follow
  | succ count => exact Or.inr ⟨'&', by decide, _, by rw [List.replicate_succ, List.cons_append]⟩

theorem Follows.weaken {rest : List Lexeme} {kind wider : Nonterminal} (follow : Follows kind rest)
    (more : follows kind ⊆ follows wider) : Follows wider rest := by
  rcases follow with rfl | ⟨c, inside, ts, rfl⟩
  · exact Or.inl rfl
  · exact Or.inr ⟨c, more inside, ts, rfl⟩

theorem simple_clear {before after rest : List Lexeme} {redirs more : List (Redir Word)} {words : List Word}
    (redirected : Redirections before redirs) (arguments : Arguments after words more) (follow : Follows .exec rest) :
    Clear ['('] (before ++ (after ++ rest)) := by
  cases redirected with
  | nil =>
      cases arguments with
      | nil => exact follow.clear (by decide)
      | cons => rfl
  | cons one _ => cases one <;> rfl

variable (nulFree : nul ∉ line)

include nulFree

theorem peek_past {ps : Nat} {c : Char} (ts : List Lexeme) (symbol : c ∈ metas)
    (begins : left line ps = .sym c :: ts) :
    (peek line ps [c]).2 = true ∧ left line (xv6.gettoken line (peek line ps [c]).1).s = ts := by
  have symbols : ∀ d ∈ [c], d ∈ metas := by simpa using symbol
  have moved := (peek_spec nulFree ps _ symbols).2
  exact ⟨peek_begins nulFree _ symbols begins (by simp [Lexeme.begins]), (gettoken_symbol nulFree (moved.trans begins)).2⟩

theorem parser_complete {kind : Nonterminal} {ts rest : List Lexeme} {cmd : Cmd Word} {ps : Nat} (fuel : Nat)
    (derives : Derives kind ts cmd) (begins : left line ps = ts ++ rest) (follow : Follows kind rest)
    (enough : enoughFuel kind (left line ps).length ≤ fuel) :
    ∃ parsed ps', parser kind line fuel ps = .ok (parsed, ps') ∧ left line ps' = rest ∧
      parsed.map (slice line) = cmd := by
  induction derives generalizing ps rest fuel with
  | @line first cmd count pipe ih =>
      obtain ⟨fuel, rfl⟩ := Nat.exists_eq_add_one_of_ne_zero (show fuel ≠ 0 by simp [enoughFuel] at enough; omega)
      simp only [enoughFuel] at enough ih
      rw [List.append_assoc] at begins
      have lengths := congrArg List.length begins
      simp only [List.length_append, List.length_replicate] at lengths
      obtain ⟨parsed, middle, result, remains, mapped⟩ := ih fuel begins
        (follows_backs (follow.weaken (by decide))) (by omega)
      obtain ⟨after, result', remains', -⟩ := parsebacks_spec nulFree fuel parsed remains
        (follow.clear (by decide)) (by omega)
      have stop := peek_clear nulFree [';'] (by simp [metas]) (remains' ▸ follow.clear (by decide))
      refine ⟨(Cmd.back)^[count] parsed, _, ?_, (peek_spec nulFree after [';'] (by simp [metas])).2.trans remains', ?_⟩
      · dsimp only [parser] at result ⊢
        rw [Xv6.parseline, result, ok_bind]
        dsimp only
        rw [result', ok_bind]
        simp only [stop, Bool.false_eq_true, if_false]
        rfl
      · rw [Cmd.map_backs, mapped]
  | @list first cmd others right count pipe more ih ih' =>
      obtain ⟨fuel, rfl⟩ := Nat.exists_eq_add_one_of_ne_zero (show fuel ≠ 0 by simp [enoughFuel] at enough; omega)
      simp only [enoughFuel] at enough ih ih'
      rw [List.append_assoc, List.append_assoc] at begins
      have lengths := congrArg List.length begins
      simp only [List.length_append, List.length_replicate, List.cons_append, List.length_cons] at lengths
      have semicolon : Follows .pipe (.sym ';' :: others ++ rest) := Or.inr ⟨';', by decide, _, rfl⟩
      obtain ⟨parsed, middle, result, remains, mapped⟩ := ih fuel begins (follows_backs semicolon) (by omega)
      obtain ⟨after, result', remains', -⟩ := parsebacks_spec nulFree fuel parsed remains rfl (by omega)
      obtain ⟨goes, next⟩ := peek_past nulFree (c := ';') (others ++ rest) (by decide) remains'
      have lengths' := congrArg List.length next
      rw [List.length_append] at lengths'
      obtain ⟨parsed', last, result'', remains'', mapped'⟩ := ih' fuel next follow (by omega)
      refine ⟨.list ((Cmd.back)^[count] parsed) parsed', last, ?_, remains'', ?_⟩
      · dsimp only [parser] at result result'' ⊢
        rw [Xv6.parseline, result, ok_bind]
        dsimp only
        rw [result', ok_bind]
        simp only [goes, if_true]
        rw [result'', ok_bind]
        rfl
      · rw [Cmd.map, Cmd.map_backs, mapped, mapped']
  | single exec ih =>
      obtain ⟨fuel, rfl⟩ := Nat.exists_eq_add_one_of_ne_zero (show fuel ≠ 0 by simp [enoughFuel] at enough; omega)
      simp only [enoughFuel] at enough ih
      obtain ⟨parsed, middle, result, remains, mapped⟩ := ih fuel begins (follow.weaken (by decide)) (by omega)
      have stop := peek_clear nulFree ['|'] (by simp [metas]) (remains ▸ follow.clear (by decide))
      refine ⟨parsed, _, ?_, (peek_spec nulFree middle ['|'] (by simp [metas])).2.trans remains, mapped⟩
      dsimp only [parser] at result ⊢
      rw [Xv6.parsepipe, result, ok_bind]
      simp only [stop, Bool.false_eq_true, if_false]
      rfl
  | @pipe first cmd others right exec more ih ih' =>
      obtain ⟨fuel, rfl⟩ := Nat.exists_eq_add_one_of_ne_zero (show fuel ≠ 0 by simp [enoughFuel] at enough; omega)
      simp only [enoughFuel] at enough ih ih'
      rw [List.append_assoc] at begins
      have lengths := congrArg List.length begins
      simp only [List.length_append, List.cons_append, List.length_cons] at lengths
      obtain ⟨parsed, middle, result, remains, mapped⟩ := ih fuel begins
        (Or.inr ⟨'|', by decide, _, rfl⟩) (by omega)
      obtain ⟨goes, next⟩ := peek_past nulFree (c := '|') (others ++ rest) (by decide) remains
      have lengths' := congrArg List.length next
      rw [List.length_append] at lengths'
      obtain ⟨parsed', last, result', remains', mapped'⟩ := ih' fuel next follow (by omega)
      refine ⟨.pipe parsed parsed', last, ?_, remains', ?_⟩
      · dsimp only [parser] at result result' ⊢
        rw [Xv6.parsepipe, result, ok_bind]
        simp only [goes, if_true]
        rw [result', ok_bind]
        rfl
      · rw [Cmd.map, mapped, mapped']
  | @block inside cmd after redirs line' redirected ih =>
      obtain ⟨fuel, rfl⟩ : ∃ less, fuel = less + 2 := ⟨fuel - 2, by simp [enoughFuel] at enough; omega⟩
      simp only [enoughFuel] at enough ih
      have symbols : ∀ c ∈ ['('], c ∈ metas := by simp [metas]
      have moved := (peek_spec nulFree ps _ symbols).2
      rw [List.append_assoc, List.cons_append, List.cons_append] at begins
      have opens := peek_begins nulFree _ symbols begins rfl
      obtain ⟨opens', next⟩ := peek_past nulFree (c := '(') _ (by decide) (moved.trans begins)
      have lengths := congrArg List.length begins
      have lengths' := congrArg List.length next
      simp only [List.length_append, List.length_cons] at lengths lengths'
      obtain ⟨parsed, middle, result, remains, mapped⟩ := ih fuel next
        (Or.inr ⟨')', by decide, _, rfl⟩) (by omega)
      obtain ⟨closes, next'⟩ := peek_past nulFree (c := ')') (after ++ rest) (by decide) remains
      have lengths'' := congrArg List.length next'
      rw [List.length_append] at lengths''
      obtain ⟨new, last, result', remains', mapped'⟩ := parseredirs_complete nulFree fuel []
        redirected next' follow.stops.clear (by omega)
      refine ⟨new.foldl .redir parsed, last, ?_, remains', ?_⟩
      · dsimp only [parser] at result ⊢
        rw [Xv6.parseexec]
        simp only [opens, if_true]
        rw [Xv6.parseblock]
        simp only [opens', if_true]
        rw [result, ok_bind]
        simp only [closes, if_true]
        rw [result', ok_bind]
        rfl
      · rw [Cmd.map_foldl_redir, mapped, mapped']
  | @simple before after redirs words more redirected arguments few =>
      obtain ⟨fuel, rfl⟩ := Nat.exists_eq_add_one_of_ne_zero (show fuel ≠ 0 by simp [enoughFuel] at enough; omega)
      simp only [enoughFuel] at enough
      have symbols : ∀ c ∈ ['('], c ∈ metas := by simp [metas]
      have moved := (peek_spec nulFree ps _ symbols).2
      have other : (peek line ps ['(']).2 = false := by
        refine peek_clear nulFree _ symbols ?_
        rw [begins, List.append_assoc]
        exact simple_clear redirected arguments follow
      obtain ⟨parsed, last, result, remains, mapped⟩ := parsesimple_complete nulFree fuel redirected arguments
        few (moved.trans begins) follow.stops (by rw [moved]; omega)
      refine ⟨parsed, last, ?_, remains, mapped⟩
      dsimp only [parser]
      rw [Xv6.parseexec]
      simp only [other, Bool.false_eq_true, if_false]
      exact result

end Complete

section Strings

theorem Cmd.map_congr {W V : Type} {f g : W → V} {cmd : Cmd W} (each : ∀ word ∈ cmd.words, f word = g word) :
    cmd.map f = cmd.map g := by
  induction cmd with
  | exec argv => exact congrArg Cmd.exec (List.map_congr_left each)
  | redir cmd target ih =>
      have file := each target.file (by simp [Cmd.words])
      rw [Cmd.map, Cmd.map, ih fun word member => each word (by simp [Cmd.words, member]), Redir.map, file, Redir.map]
  | pipe first second ih ih' =>
      rw [Cmd.map, Cmd.map, ih fun word member => each word (by simp [Cmd.words, member]),
        ih' fun word member => each word (by simp [Cmd.words, member])]
  | list first second ih ih' =>
      rw [Cmd.map, Cmd.map, ih fun word member => each word (by simp [Cmd.words, member]),
        ih' fun word member => each word (by simp [Cmd.words, member])]
  | back cmd ih => rw [Cmd.map, Cmd.map, ih each]

theorem nulterminate_eq (cmd : Cmd Span) (buf : List Char) :
    nulterminate cmd buf = cmd.words.foldl (fun buf word => buf.set word.eq nul) buf := by
  induction cmd generalizing buf with
  | exec argv => rfl
  | redir cmd target ih =>
      rw [nulterminate, ih, Cmd.words, List.foldl_append]
      rfl
  | pipe first second ih ih' => rw [nulterminate, ih', ih, Cmd.words, List.foldl_append]
  | list first second ih ih' => rw [nulterminate, ih', ih, Cmd.words, List.foldl_append]
  | back cmd ih => rw [nulterminate, ih, Cmd.words]

theorem charAt_set (buf : List Char) (i j : Nat) : charAt (buf.set i nul) j = if i = j then nul else charAt buf j := by
  rw [charAt, List.getElem?_set]
  by_cases same : i = j
  · subst same
    rw [if_pos rfl, if_pos rfl]
    split <;> rfl
  · rw [if_neg same, if_neg same, charAt]

theorem charAt_terminated (words : List Span) (buf : List Char) (i : Nat) :
    charAt (words.foldl (fun buf word => buf.set word.eq nul) buf) i =
      if ∃ word ∈ words, word.eq = i then nul else charAt buf i := by
  induction words generalizing buf with
  | nil => simp
  | cons word rest ih =>
      rw [List.foldl_cons, ih, charAt_set]
      by_cases later : ∃ word ∈ rest, word.eq = i
      · rw [if_pos later, if_pos (by obtain ⟨other, member, ends⟩ := later; exact ⟨other, by simp [member], ends⟩)]
      · by_cases here : word.eq = i
        · rw [if_neg later, if_pos here, if_pos ⟨word, by simp, here⟩]
        · rw [if_neg later, if_neg here, if_neg]
          rintro ⟨other, member, ends⟩
          rcases List.mem_cons.mp member with rfl | member
          · exact here ends
          · exact later ⟨other, member, ends⟩

theorem charAt_append_nul (line : List Char) (i : Nat) : charAt (line ++ [nul]) i = charAt line i := by
  rw [charAt, charAt, List.getElem?_append]
  split
  · rfl
  · rename_i past
    rw [List.getElem?_eq_none (l := line) (by omega)]
    cases h : [nul][i - line.length]? with
    | none => rfl
    | some c =>
        have member := List.mem_of_getElem? h
        rw [List.mem_singleton] at member
        rw [member, Option.getD_some, Option.getD_none]

theorem stringAt_eq {buf : List Char} (count q : Nat)
    (inside : ∀ i, q ≤ i → i < q + count → charAt buf i = charAt line i ∧ charAt line i ≠ nul)
    (ends : charAt buf (q + count) = nul) : stringAt buf q = (line.drop q).take count := by
  induction count generalizing q with
  | zero =>
      rw [List.take_zero, stringAt]
      cases begins : buf.drop q with
      | nil => rfl
      | cons c rest =>
          rw [Nat.add_zero, charAt_of_cons begins] at ends
          simp [ends]
  | succ count ih =>
      obtain ⟨same, real⟩ := inside q le_rfl (by omega)
      have later := ih (q + 1) (fun i low high => inside i (by omega) (by omega))
        (by rw [Nat.add_right_comm, Nat.add_assoc]; exact ends)
      rw [stringAt, drop_of_charAt (same ▸ real), same, List.takeWhile_cons_of_pos (by simpa using real),
        drop_of_charAt real, List.take_succ_cons]
      exact congrArg _ later

theorem stringAt_word (nulFree : nul ∉ line) {cmd : Cmd Span} (spans : ∀ word ∈ cmd.words, IsSpan line word)
    {word : Span} (member : word ∈ cmd.words) :
    stringAt (nulterminate cmd (line ++ [nul])) word.q = slice line word := by
  obtain ⟨order, bound, inside, -⟩ := spans word member
  have content (i : Nat) := charAt_terminated cmd.words (line ++ [nul]) i
  rw [nulterminate_eq, slice, mkcopy]
  refine stringAt_eq (word.eq - word.q) word.q (fun i low high => ?_) ?_
  · have letter := inside i low (by omega)
    have real : charAt line i ≠ nul := by
      have within : i < line.length := by omega
      rw [charAt, List.getElem?_eq_getElem within, Option.getD_some]
      intro same
      exact nulFree (same ▸ List.getElem_mem within)
    refine ⟨?_, real⟩
    rw [content, if_neg, charAt_append_nul]
    rintro ⟨other, member', rfl⟩
    have outside := (spans other member').ends (by omega)
    rw [outside] at letter
    exact Bool.false_ne_true letter
  · rw [Nat.add_sub_cancel' order, content, if_pos ⟨word, member, rfl⟩]

theorem strings_eq (nulFree : nul ∉ line) {cmd : Cmd Span} (spans : ∀ word ∈ cmd.words, IsSpan line word) :
    cmd.strings (nulterminate cmd (line ++ [nul])) = cmd.map (slice line) :=
  Cmd.map_congr fun _ member => stringAt_word nulFree spans member

theorem length_nulterminate (cmd : Cmd Span) (buf : List Char) : (nulterminate cmd buf).length = buf.length := by
  induction cmd generalizing buf with
  | exec argv =>
      rw [nulterminate]
      induction argv generalizing buf with
      | nil => rfl
      | cons word argv ih => rw [List.foldl_cons, ih, List.length_set]
  | redir cmd target ih => rw [nulterminate, List.length_set, ih]
  | pipe first second ih ih' => rw [nulterminate, ih', ih]
  | list first second ih ih' => rw [nulterminate, ih', ih]
  | back cmd ih => rw [nulterminate, ih]

end Strings

theorem left_zero (line : List Char) : left line 0 = tokens line := rfl

theorem left_length (line : List Char) : left line line.length = [] := by
  rw [left, List.drop_length, tokens]

theorem skip_of_left_nil {ps : Nat} (none : left line ps = []) (inside : ps ≤ line.length) :
    skip line ps = line.length := by
  have bound := skip_le inside
  rcases skip_cases line ps with ended | ⟨c, rest, begins, text⟩
  · have past := List.drop_eq_nil_iff.mp ended
    omega
  · have some := left_skip line ps
    rw [left, begins, tokens, if_neg text, none] at some
    split at some
    · simp at some
    · split at some <;> simp at some

theorem enough_fuel (line : List Char) : 4 * (left line 0).length + 4 ≤ 4 * line.length + 4 := by
  have shorter := length_tokens_le line
  rw [left_zero]
  omega

theorem parseline_sound (nulFree : nul ∉ line) :
    Meets (· ≠ .fuel) (fun result => ∃ ts, Parsed line .line 0 result ts) (parseline line (4 * line.length + 4) 0) :=
  (parser_sound nulFree (4 * line.length + 4)).line 0 (enough_fuel line)

theorem parsecmd_parsed (nulFree : nul ∉ line) {cmd : Cmd Span} {buf : List Char}
    (parsed : parsecmd line = .ok (cmd, buf)) :
    buf = nulterminate cmd (line ++ [nul]) ∧ (∀ word ∈ cmd.words, IsSpan line word) ∧
      Derives .line (tokens line) (cmd.map (slice line)) := by
  have sound := parseline_sound nulFree
  rw [parsecmd] at parsed
  cases result : parseline line (4 * line.length + 4) 0 with
  | error failure => simp [result, bind, Except.bind] at parsed
  | ok value =>
      obtain ⟨cmd', ps⟩ := value
      rw [result] at sound parsed
      obtain ⟨ts, splits, derives, spans, -⟩ := sound
      rw [ok_bind] at parsed
      dsimp only at parsed splits derives spans
      split at parsed
      · simp at parsed
      · rename_i ended
        obtain ⟨rfl, rfl⟩ := Prod.mk.inj (Except.ok.inj parsed)
        have none : left line ps = [] := by
          rw [← left_skip, show skip line ps = line.length from not_not.mp ended, left_length]
        rw [none, List.append_nil, left_zero] at splits
        exact ⟨rfl, spans, splits ▸ derives⟩

theorem parsecmd_derives (nulFree : nul ∉ line) {cmd : Cmd Span} {buf : List Char}
    (parsed : parsecmd line = .ok (cmd, buf)) : Derives .line (tokens line) (cmd.strings buf) := by
  obtain ⟨rfl, spans, derives⟩ := parsecmd_parsed nulFree parsed
  rwa [strings_eq nulFree spans]

/-- `parsecmd` ends on every line, and it accepts exactly the lines that the grammar derives, with the tree of
the derivation. -/
theorem parsecmd_exact (nulFree : nul ∉ line) :
    parsecmd line ≠ .error .fuel ∧
      ∀ tree, (∃ cmd buf, parsecmd line = .ok (cmd, buf) ∧ cmd.strings buf = tree) ↔
        Derives .line (tokens line) tree := by
  have sound := parseline_sound nulFree
  refine ⟨?_, fun tree => ⟨?_, fun derives => ?_⟩⟩
  · rw [parsecmd]
    cases result : parseline line (4 * line.length + 4) 0 with
    | error failure =>
        rw [result] at sound
        simpa [bind, Except.bind] using sound
    | ok value =>
        simp only [ok_bind]
        split <;> simp [pure, Except.pure]
  · rintro ⟨cmd, buf, parsed, rfl⟩
    exact parsecmd_derives nulFree parsed
  · obtain ⟨cmd, ps, result, none, mapped⟩ := parser_complete nulFree (4 * line.length + 4) derives
      (List.append_nil _).symm (Or.inl rfl) (enough_fuel line)
    dsimp only [parser] at result
    rw [result] at sound
    obtain ⟨-, -, -, spans, within⟩ := sound
    have ended := skip_of_left_nil none (within (Nat.zero_le _))
    refine ⟨cmd, nulterminate cmd (line ++ [nul]), ?_, by rw [strings_eq nulFree spans, mapped]⟩
    rw [parsecmd, result, ok_bind]
    simp only [peek, ended, ne_eq, not_true_eq_false, if_false]
    rfl

/-- `ls >out | (cat; wc) &`. -/
theorem parsecmd_exact_pipe :
    Derives .line (tokens "ls >out | (cat; wc) &".toList)
      (.back (.pipe (.redir (.exec ["ls".toList]) ⟨"out".toList, ⟨true, true, false⟩, 1⟩)
        (.list (.exec ["cat".toList]) (.exec ["wc".toList])))) := by
  refine ((parsecmd_exact (by decide)).2 _).mp ?_
  have parsed : (parsecmd "ls >out | (cat; wc) &".toList).toOption.map (fun result => result.1.strings result.2) =
      some (.back (.pipe (.redir (.exec ["ls".toList]) ⟨"out".toList, ⟨true, true, false⟩, 1⟩)
        (.list (.exec ["cat".toList]) (.exec ["wc".toList])))) := by decide +kernel
  obtain ⟨⟨cmd, buf⟩, returned, same⟩ := Option.map_eq_some_iff.mp parsed
  exact ⟨cmd, buf, eq_ok_of_toOption returned, same⟩

/-- Every word of an accepted line is the string at its pointer, and only the positions after words have
changed. -/
theorem nulterminate_keeps_words (nulFree : nul ∉ line) {cmd : Cmd Span} {buf : List Char}
    (parsed : parsecmd line = .ok (cmd, buf)) :
    Derives .line (tokens line) (cmd.map (slice line)) ∧
      (∀ word ∈ cmd.words, IsSpan line word ∧ stringAt buf word.q = slice line word) ∧
      cmd.strings buf = cmd.map (slice line) ∧ buf.length = line.length + 1 ∧
      ∀ i, charAt buf i = if ∃ word ∈ cmd.words, word.eq = i then nul else charAt line i := by
  obtain ⟨rfl, spans, derives⟩ := parsecmd_parsed nulFree parsed
  refine ⟨derives, fun word member => ⟨spans word member, stringAt_word nulFree spans member⟩,
    strings_eq nulFree spans, ?_, ?_⟩
  · rw [length_nulterminate, List.length_append, List.length_singleton]
  · intro i
    rw [nulterminate_eq, charAt_terminated, charAt_append_nul]

/-- `cat<a>b;c`, where every word is followed by a symbol or by the end. -/
theorem nulterminate_keeps_words_tight :
    ∃ cmd buf, parsecmd "cat<a>b;c".toList = .ok (cmd, buf) ∧
      cmd.words.map (fun word => stringAt buf word.q) = cmd.words.map (slice "cat<a>b;c".toList) ∧
      cmd.words.length = 4 := by
  have parsed : (parsecmd "cat<a>b;c".toList).toOption.map (fun result => result.1.words.length) = some 4 := by
    decide +kernel
  obtain ⟨⟨cmd, buf⟩, returned, count⟩ := Option.map_eq_some_iff.mp parsed
  have returns := eq_ok_of_toOption returned
  obtain ⟨-, words, -⟩ := nulterminate_keeps_words (by decide) returns
  exact ⟨cmd, buf, returns, List.map_congr_left fun word member => (words word member).2, count⟩

end OsLabs.Shell
