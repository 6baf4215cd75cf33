import OsLabs.Shell.ShellAccepts

/-!
The parsers of `xv6/sh.c` and `lab-02/sh.c` on the lines of their common language. They read the same tokens,
so their functions agree step by step; they differ in that the second one truncates the files it writes.
-/

namespace OsLabs.Shell

open Outcomes

variable {line : List Char}

/-- The redirection with the flags of `lab-02/sh.c`: a file that is written is also truncated. -/
def Redir.truncating {W : Type} (redir : Redir W) : Redir W :=
  { redir with mode := { redir.mode with truncate := redir.mode.write } }

def Cmd.truncating {W : Type} : Cmd W → Cmd W
  | .exec argv => .exec argv
  | .redir cmd target => .redir cmd.truncating target.truncating
  | .pipe left right => .pipe left.truncating right.truncating
  | .list left right => .list left.truncating right.truncating
  | .back cmd => .back cmd.truncating

structure Common (line : List Char) : Prop where
  nulFree : nul ∉ line
  plain : ∀ c ∈ line, c ∉ ['&', ';', '(', ')']
  single : ¬ ['>', '>'] <:+: line

theorem charAt_mem {s : Nat} (some : charAt line s ≠ nul) : charAt line s ∈ line := by
  have inside := lt_of_charAt some
  rw [charAt, List.getElem?_eq_getElem inside, Option.getD_some]
  exact List.getElem_mem inside

theorem takeWhile_congr {α : Type} {p q : α → Bool} {l : List α} (same : ∀ a ∈ l, p a = q a) :
    l.takeWhile p = l.takeWhile q := by
  induction l with
  | nil => rfl
  | cons a rest ih =>
      rw [List.takeWhile_cons, List.takeWhile_cons, same a List.mem_cons_self,
        ih fun b member => same b (List.mem_cons_of_mem _ member)]

namespace Common

variable (common : Common line)

include common

theorem symbols_iff {c : Char} (member : c ∈ line) : c ∈ lab.symbols ↔ c ∈ xv6.symbols := by
  have plain := common.plain c member
  simp only [List.mem_cons, List.not_mem_nil, or_false, not_or] at plain
  simp [lab, xv6, plain]

theorem isWordChar_eq {c : Char} (member : c ∈ line) : lab.isWordChar c = xv6.isWordChar c := by
  simp only [Dialect.isWordChar, common.symbols_iff member]

theorem no_append (s : Nat) (first : charAt line s = '>') : charAt line (s + 1) ≠ '>' := by
  intro second
  have begins := drop_of_charAt (first.trans_ne (by decide))
  have continues := drop_of_charAt (second.trans_ne (by decide))
  rw [first, continues, second] at begins
  exact common.single ⟨line.take s, line.drop (s + 1 + 1), by
    rw [List.append_assoc, List.cons_append, List.cons_append, List.nil_append, ← begins, List.take_append_drop]⟩

theorem gettoken_eq (ps : Nat) : lab.gettoken line ps = xv6.gettoken line ps := by
  have words : (line.drop (skip line ps)).takeWhile lab.isWordChar =
      (line.drop (skip line ps)).takeWhile xv6.isWordChar :=
    takeWhile_congr fun c member => common.isWordChar_eq (List.mem_of_mem_drop member)
  rw [Dialect.gettoken, Dialect.gettoken, words]
  by_cases ended : charAt line (skip line ps) = nul
  · simp only [ended, if_true]
  · simp only [if_neg ended, common.symbols_iff (charAt_mem ended)]
    by_cases output : charAt line (skip line ps) = '>'
    · simp [output, lab, common.no_append _ output]
    · simp only [if_neg output]

theorem peek_absent (ps : Nat) {c : Char} (absent : c ∈ ['&', ';', '(', ')']) : (peek line ps [c]).2 = false := by
  simp only [peek, List.mem_singleton, decide_eq_false_iff_not, not_and]
  intro some same
  exact common.plain _ (charAt_mem some) (same ▸ absent)

theorem peek_stops (ps : Nat) : peek line ps lab.stops = peek line ps xv6.stops := by
  simp only [peek, Prod.mk.injEq, true_and, decide_eq_decide]
  refine and_congr_right fun some => ?_
  have plain := common.plain _ (charAt_mem some)
  simp only [List.mem_cons, List.not_mem_nil, or_false, not_or] at plain
  simp [lab, xv6, plain]

end Common

def Fails (failure failure' : Failure) : Prop := failure = .fuel ↔ failure' = .fuel

theorem fails_exits {text text' : String} : Fails (.exits text) (.exits text') := by
  simp [Fails]

def copied (line : List Char) (redir : Redir Span) : Redir Word := (redir.map (slice line)).truncating

theorem redirect_copied (line : List Char) (tok : Tok) (file : Token) :
    lab.redirect line tok file = (xv6.redirect line tok file).map (copied line) := by
  unfold Dialect.redirect
  split <;> rfl

theorem foldl_copied (line : List Char) (redirs : List (Redir Span)) (cmd : Cmd Span) :
    (redirs.map (copied line)).foldl .redir (cmd.map (slice line)).truncating =
      ((redirs.foldl .redir cmd).map (slice line)).truncating := by
  induction redirs generalizing cmd with
  | nil => rfl
  | cons first rest ih => exact ih (.redir cmd first)

def SameTree (line : List Char) (result : Cmd Span × Nat) (result' : Cmd Word × Nat) : Prop :=
  result'.1 = (result.1.map (slice line)).truncating ∧ skip line result'.2 = skip line result.2

theorem skip_skip (line : List Char) (s : Nat) : skip line (skip line s) = skip line s := by
  nth_rewrite 1 [skip]
  rw [drop_skip, Nat.add_eq_left, List.length_eq_zero_iff, List.takeWhile_eq_nil_iff]
  intro some
  simpa using List.dropWhile_get_zero_not (· ∈ whitespace) (line.drop s) some

theorem peek_congr {s s' : Nat} (same : skip line s' = skip line s) (toks : List Char) :
    peek line s' toks = peek line s toks := by
  rw [peek, same, peek]

theorem parseredirs_congr {W : Type} (d : Dialect W) {s s' : Nat} (same : skip line s' = skip line s) (fuel : Nat)
    (redirs : List (Redir W)) : d.parseredirs line fuel redirs s' = d.parseredirs line fuel redirs s := by
  cases fuel with
  | zero => rfl
  | succ fuel => rw [Dialect.parseredirs, peek_congr same, Dialect.parseredirs]

section Agreement

variable (common : Common line)

include common

theorem parseredirs_agree (fuel : Nat) (redirs : List (Redir Span)) (ps : Nat) :
    Agree Fails (fun result result' => result' = (result.1.map (copied line), result.2))
      (xv6.parseredirs line fuel redirs ps) (lab.parseredirs line fuel (redirs.map (copied line)) ps) := by
  induction fuel generalizing redirs ps with
  | zero => exact Iff.rfl
  | succ fuel ih =>
      rw [Dialect.parseredirs, Dialect.parseredirs]
      dsimp only
      rw [common.gettoken_eq, common.gettoken_eq, redirect_copied]
      split
      · split
        · exact fails_exits
        · rw [← List.map_append]
          exact ih _ _
      · exact rfl

theorem parseargs_agree (fuel : Nat) (argv : List Span) (redirs : List (Redir Span)) (ps : Nat) :
    Agree Fails
      (fun result result' => result' = (result.1.map (slice line), result.2.1.map (copied line), result.2.2))
      (xv6.parseargs line fuel argv redirs ps)
      (lab.parseargs line fuel (argv.map (slice line)) (redirs.map (copied line)) ps) := by
  induction fuel generalizing argv redirs ps with
  | zero => exact Iff.rfl
  | succ fuel ih =>
      have kept (token : Token) : argv.map (slice line) ++ [lab.keep line token.q token.eq] =
          (argv ++ [xv6.keep line token.q token.eq]).map (slice line) := by
        rw [List.map_append]
        rfl
      rw [Dialect.parseargs, Dialect.parseargs, common.peek_stops]
      dsimp only
      rw [common.gettoken_eq, kept, List.length_map]
      split
      · exact rfl
      · split
        · exact rfl
        · split
          · exact fails_exits
          · split
            · exact fails_exits
            · refine (parseredirs_agree common fuel redirs _).bind ?_
              rintro ⟨redirs, ps⟩ _ rfl
              exact ih _ _ _

theorem parsesimple_agree (fuel ps : Nat) :
    Agree Fails (SameTree line) (xv6.parsesimple line fuel ps) (lab.parsesimple line fuel ps) := by
  refine (parseredirs_agree common fuel [] ps).bind ?_
  rintro ⟨redirs, ps⟩ _ rfl
  refine (parseargs_agree common fuel [] redirs ps).bind ?_
  rintro ⟨argv, redirs, ps⟩ _ rfl
  exact ⟨foldl_copied line redirs (.exec argv), rfl⟩

theorem parseexec_agree (fuel ps : Nat) :
    Agree Fails (SameTree line) (Xv6.parseexec line fuel ps) (Lab.parseexec line fuel ps) := by
  cases fuel with
  | zero =>
      rw [Xv6.parseexec]
      exact Iff.rfl
  | succ fuel =>
      have moved : xv6.parsesimple line fuel (peek line ps ['(']).1 = xv6.parsesimple line fuel ps := by
        rw [Dialect.parsesimple, peek, parseredirs_congr xv6 (skip_skip line ps), Dialect.parsesimple]
      rw [Xv6.parseexec, Lab.parseexec]
      dsimp only
      rw [common.peek_absent ps (c := '(') (by decide), if_neg Bool.false_ne_true, moved]
      exact parsesimple_agree common fuel ps

theorem parsepipe_agree (fuel ps : Nat) :
    Agree Fails (SameTree line) (Xv6.parsepipe line fuel ps) (Lab.parsepipe line fuel ps) := by
  induction fuel generalizing ps with
  | zero =>
      rw [Xv6.parsepipe]
      exact Iff.rfl
  | succ fuel ih =>
      rw [Xv6.parsepipe, Lab.parsepipe]
      refine (parseexec_agree common fuel ps).bind ?_
      rintro ⟨cmd, ps⟩ ⟨_, ps'⟩ ⟨rfl, same⟩
      dsimp only at same ⊢
      rw [peek_congr same, common.gettoken_eq]
      split
      · refine (ih _).bind ?_
        rintro ⟨right, ps⟩ ⟨_, ps'⟩ ⟨rfl, same⟩
        exact ⟨rfl, same⟩
      · exact ⟨rfl, rfl⟩

theorem parseline_agree (fuel ps : Nat) :
    Agree Fails (SameTree line) (Xv6.parseline line fuel ps) (Lab.parseline line fuel ps) := by
  match fuel with
  | 0 =>
      rw [Xv6.parseline]
      exact Iff.rfl
  | 1 =>
      rw [Xv6.parseline, Lab.parseline, Xv6.parsepipe]
      exact Iff.rfl
  | fuel + 2 =>
      rw [Xv6.parseline, Lab.parseline, ← bind_pure (Lab.parsepipe line (fuel + 1) ps)]
      refine (parsepipe_agree common (fuel + 1) ps).bind ?_
      rintro ⟨cmd, ps⟩ ⟨_, ps'⟩ ⟨rfl, same⟩
      dsimp only at same ⊢
      rw [Xv6.parsebacks]
      dsimp only
      rw [common.peek_absent ps (c := '&') (by decide), if_neg Bool.false_ne_true, ok_bind]
      dsimp only
      rw [common.peek_absent _ (c := ';') (by decide), if_neg Bool.false_ne_true]
      refine ⟨rfl, ?_⟩
      simp only [peek, skip_skip, same]

end Agreement

theorem parsecmd_agree (common : Common line) :
    Agree (fun failure failure' => failure ≠ .fuel ∧ failure' ≠ .fuel)
      (fun result tree => tree = (result.1.strings result.2).truncating) (Xv6.parsecmd line) (Lab.parsecmd line) := by
  have agree := (parseline_agree common (4 * line.length + 4) 0).and_meets (parseline_sound common.nulFree)
  rw [Xv6.parsecmd, Lab.parsecmd]
  obtain ⟨failure, failure', result, result', fails, ends⟩ |
    ⟨⟨cmd, ps⟩, ⟨_, ps'⟩, result, result', ⟨rfl, same⟩, ts, -, -, spans, -⟩ := agree.elim
  · rw [result, result']
    exact ⟨ends, fun fuel => ends (fails.mpr fuel)⟩
  · rw [result, result', ok_bind, ok_bind]
    dsimp only at same spans ⊢
    rw [peek_congr same]
    split
    · exact ⟨by simp, by simp⟩
    · exact (congrArg Cmd.truncating (strings_eq common.nulFree spans)).symm

/-- On a line of the common language both parsers exit, or both return the same tree, in which the second one
truncates the files it writes. -/
theorem shells_agree (nulFree : nul ∉ line) (plain : ∀ c ∈ line, c ∉ ['&', ';', '(', ')'])
    (single : ¬ ['>', '>'] <:+: line) :
    (∃ text text', Xv6.parsecmd line = .error (.exits text) ∧ Lab.parsecmd line = .error (.exits text')) ∨
      ∃ cmd buf, Xv6.parsecmd line = .ok (cmd, buf) ∧ Lab.parsecmd line = .ok (cmd.strings buf).truncating := by
  obtain ⟨failure, failure', result, result', ends, ends'⟩ | ⟨⟨cmd, buf⟩, _, result, result', rfl⟩ :=
    (parsecmd_agree ⟨nulFree, plain, single⟩).elim
  · cases failure with
    | fuel => exact absurd rfl ends
    | exits text =>
        cases failure' with
        | fuel => exact absurd rfl ends'
        | exits text' => exact Or.inl ⟨text, text', result, result'⟩
  · exact Or.inr ⟨cmd, buf, result, result'⟩

/-- `sort <in >out | wc`. -/
theorem shells_agree_sort :
    ∃ cmd buf, Xv6.parsecmd "sort <in >out | wc".toList = .ok (cmd, buf) ∧
      Lab.parsecmd "sort <in >out | wc".toList = .ok (cmd.strings buf).truncating := by
  have plain := List.all_eq_true (p := fun c => decide (c ∉ ['&', ';', '(', ')'])).mp
    (show "sort <in >out | wc".toList.all _ = true by decide)
  rcases @shells_agree "sort <in >out | wc".toList (by decide)
      (fun c inside => of_decide_eq_true (plain c inside)) (by decide +kernel) with
    ⟨text, text', result, -⟩ | both
  · have parsed : (Xv6.parsecmd "sort <in >out | wc".toList).isOk = true := by decide +kernel
    rw [result] at parsed
    exact absurd parsed Bool.false_ne_true
  · exact both

end OsLabs.Shell
