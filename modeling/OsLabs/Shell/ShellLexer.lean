import OsLabs.Foundation.Outcomes
import OsLabs.Shell.ShellGrammar

/-!
What `gettoken` and `peek` of `xv6/sh.c` do to the tokens that are left.
-/

namespace OsLabs.Shell

variable {line : List Char}

theorem charAt_of_nil {s : Nat} (none : line.drop s = []) : charAt line s = nul := by
  rw [charAt, List.getElem?_eq_none (List.drop_eq_nil_iff.mp none), Option.getD_none]

theorem charAt_add_of_drop (line : List Char) (s i : Nat) : charAt line (s + i) = ((line.drop s)[i]?).getD nul := by
  rw [charAt, List.getElem?_drop]

theorem charAt_of_cons {s : Nat} {c : Char} {rest : List Char} (begins : line.drop s = c :: rest) :
    charAt line s = c := by
  have here := charAt_add_of_drop line s 0
  rwa [begins, Nat.add_zero, List.getElem?_cons_zero, Option.getD_some] at here

theorem drop_succ_of_cons {s : Nat} {c : Char} {rest : List Char} (begins : line.drop s = c :: rest) :
    line.drop (s + 1) = rest := by
  rw [← List.drop_drop, begins, List.drop_one, List.tail_cons]

theorem skip_cases (line : List Char) (s : Nat) :
    line.drop (skip line s) = [] ∨ ∃ c rest, line.drop (skip line s) = c :: rest ∧ c ∉ whitespace := by
  rw [drop_skip]
  cases h : (line.drop s).dropWhile (· ∈ whitespace) with
  | nil => exact Or.inl rfl
  | cons c rest =>
      have stops := List.head?_dropWhile_not (· ∈ whitespace) (line.drop s)
      rw [h] at stops
      exact Or.inr ⟨c, rest, rfl, by simpa using stops⟩

theorem skip_le {s : Nat} (inside : s ≤ line.length) : skip line s ≤ line.length := by
  have shorter := (List.takeWhile_prefix (l := line.drop s) (· ∈ whitespace)).length_le
  rw [List.length_drop] at shorter
  rw [skip]
  omega

theorem lt_of_charAt {s : Nat} (some : charAt line s ≠ nul) : s < line.length := by
  by_contra past
  exact some (charAt_of_nil (List.drop_eq_nil_of_le (not_lt.mp past)))

theorem drop_of_charAt {s : Nat} (some : charAt line s ≠ nul) :
    line.drop s = charAt line s :: line.drop (s + 1) := by
  have begins := List.drop_eq_getElem_cons (lt_of_charAt some)
  rwa [← charAt_of_cons begins] at begins

theorem gettoken_le {W : Type} (d : Dialect W) {ps : Nat} (inside : ps ≤ line.length) :
    (d.gettoken line ps).s ≤ line.length := by
  have start := skip_le inside
  rw [Dialect.gettoken]
  refine skip_le ?_
  split
  · exact start
  rename_i some
  have here := lt_of_charAt some
  split
  · split
    · rename_i both
      exact lt_of_charAt (by rw [both.2]; decide)
    · exact here
  split
  · exact here
  · have shorter := (List.takeWhile_prefix (l := line.drop (skip line ps)) d.isWordChar).length_le
    rw [List.length_drop] at shorter
    omega

inductive Scanned (line : List Char) (ps : Nat) (t : Token) : Prop
  | eof (tok : t.tok = .eof) (none : left line ps = []) (still : left line t.s = [])
  | sym (c : Char) (tok : t.tok = .sym c) (first : left line ps = .sym c :: left line t.s)
  | append (tok : t.tok = .append) (first : left line ps = .append :: left line t.s)
  | word (tok : t.tok = .word) (span : IsSpan line ⟨t.q, t.eq⟩)
      (first : left line ps = .word (slice line ⟨t.q, t.eq⟩) :: left line t.s)

theorem span_of_run {q : Nat} {run rest : List Char} (split : line.drop q = run ++ rest)
    (inside : ∀ c ∈ run, ofWord c = true) (bounded : q ≤ line.length)
    (ends : ∀ c, rest.head? = some c → ofWord c = false) :
    IsSpan line ⟨q, q + run.length⟩ ∧ slice line ⟨q, q + run.length⟩ = run ∧ line.drop (q + run.length) = rest := by
  have length := congrArg List.length split
  have after : line.drop (q + run.length) = rest := by rw [← List.drop_drop, split, List.drop_left]
  rw [List.length_drop, List.length_append] at length
  refine ⟨⟨Nat.le_add_right _ _, by dsimp only; omega, ?_, ?_⟩, ?_, after⟩
  · intro i low high
    obtain ⟨j, rfl⟩ := Nat.exists_eq_add_of_le low
    have within : j < run.length := by dsimp only at high; omega
    rw [charAt_add_of_drop, split, List.getElem?_append_left within, List.getElem?_eq_getElem within]
    exact inside _ (List.getElem_mem within)
  · intro bound
    dsimp only at bound ⊢
    cases h : rest with
    | nil =>
        rw [h] at length
        simp at length
        omega
    | cons c more =>
        rw [charAt_of_cons (after.trans h)]
        exact ends c (by rw [h]; rfl)
  · rw [slice, mkcopy, split, Nat.add_sub_cancel_left, List.take_left]

theorem xv6_symbols : xv6.symbols = metas := rfl

theorem gettoken_scans (nulFree : nul ∉ line) (ps : Nat) : Scanned line ps (xv6.gettoken line ps) := by
  rw [Dialect.gettoken]
  have begins := left_skip line ps
  rcases skip_cases line ps with none | ⟨c, rest, some, text⟩
  · rw [left, none, tokens] at begins
    dsimp only
    rw [charAt_of_nil none, if_pos rfl]
    refine .eof rfl begins.symm ?_
    rw [left_skip, left, none, tokens]
  · have real : c ≠ nul := by
      rintro rfl
      exact nulFree (List.mem_of_mem_drop (some ▸ List.mem_cons_self))
    have next := drop_succ_of_cons some
    have there : charAt line (skip line ps + 1) = '>' ↔ rest.head? = Option.some '>' := by
      rw [charAt_add_of_drop, some, List.getElem?_cons_succ]
      cases rest with
      | nil => decide
      | cons d more => simp
    dsimp only
    rw [charAt_of_cons some, if_neg real]
    rw [left, some, tokens, if_neg text] at begins
    by_cases output : c = '>'
    · subst output
      rw [if_pos rfl]
      by_cases twice : rest.head? = Option.some '>'
      · rw [if_pos ⟨rfl, twice⟩] at begins
        have after : line.drop (skip line ps + 2) = rest.tail := by
          rw [← Nat.add_assoc _ 1 1, ← List.drop_drop, next, List.drop_one]
        rw [if_pos ⟨rfl, there.mpr twice⟩]
        refine .append rfl ?_
        rw [left_skip, ← begins, left, after]
      · rw [if_neg fun both => twice both.2, if_pos (by decide)] at begins
        rw [if_neg fun both => twice (there.mp both.2)]
        refine .sym '>' rfl ?_
        rw [left_skip, ← begins, left, next]
    · rw [if_neg fun both => output both.1] at begins
      rw [if_neg output, xv6_symbols]
      by_cases symbol : c ∈ metas
      · rw [if_pos symbol] at begins
        rw [if_pos symbol]
        refine .sym c rfl ?_
        rw [left_skip, ← begins, left, next]
      · have letter : ofWord c = true := by simp [ofWord, text, symbol]
        have run : (line.drop (skip line ps)).takeWhile xv6.isWordChar = c :: rest.takeWhile ofWord := by
          rw [some]
          exact List.takeWhile_cons_of_pos letter
        have split : line.drop (skip line ps) = (c :: rest.takeWhile ofWord) ++ rest.dropWhile ofWord := by
          rw [some, List.cons_append, List.takeWhile_append_dropWhile]
        have bounded : skip line ps ≤ line.length := by
          by_contra past
          rw [List.drop_eq_nil_of_le (by omega)] at some
          simp at some
        obtain ⟨span, text, after⟩ := span_of_run split (by
          intro d inside
          rcases List.mem_cons.mp inside with rfl | inside
          · exact letter
          · exact List.mem_takeWhile_imp inside) bounded (by
          intro d first
          have stops := List.head?_dropWhile_not ofWord rest
          rw [first] at stops
          simpa using stops)
        rw [if_neg symbol] at begins
        rw [if_neg symbol, run]
        refine .word rfl span ?_
        rw [left_skip, ← begins, text, left, after]

theorem peek_spec (nulFree : nul ∉ line) (ps : Nat) (toks : List Char) (symbols : ∀ c ∈ toks, c ∈ metas) :
    (peek line ps toks).2 = (left line ps).head?.any (Lexeme.begins toks) ∧
      left line (peek line ps toks).1 = left line ps := by
  refine ⟨?_, left_skip line ps⟩
  rw [← left_skip line ps, peek, left]
  rcases skip_cases line ps with none | ⟨c, rest, some, text⟩
  · rw [none, tokens, charAt_of_nil none]
    simp
  · have real : c ≠ nul := by
      rintro rfl
      exact nulFree (List.mem_of_mem_drop (some ▸ List.mem_cons_self))
    rw [some, tokens, if_neg text, charAt_of_cons some]
    split
    · rename_i both
      simp [both.1, Lexeme.begins, nul]
    · split
      · simp [Lexeme.begins, real]
      · rename_i other
        have outside : c ∉ toks := fun inside => other (symbols c inside)
        simp [Lexeme.begins, outside]

end OsLabs.Shell
