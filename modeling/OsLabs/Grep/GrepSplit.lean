import OsLabs.Grep.GrepMatch

/-!
The reading loop of grep.c: the buffer keeps a partial line from one `read` to the next.
-/

namespace OsLabs.Grep

def newline : Byte := byte '\n'

def strchr : List Byte → Byte → Option Nat
  | [], _ => none
  | letter :: s, c =>
      if letter = 0 then none else if letter = c then some 0 else (strchr s c).map (· + 1)

theorem strchr_lt {s : List Byte} {c : Byte} {q : Nat} (found : strchr s c = some q) : q < s.length := by
  induction s generalizing q with
  | nil => simp [strchr] at found
  | cons letter s ih =>
      rw [strchr] at found
      split at found
      · simp at found
      · split at found
        · simp at found
          simp [← found]
        · obtain ⟨r, later, rfl⟩ := Option.map_eq_some_iff.mp found
          simpa using ih later

/-- The inner loop: what it writes from `p` on, and where it leaves `p`. -/
def printLines (accepts : List Byte → Bool) (p : List Byte) : List Byte × List Byte :=
  match _ : strchr p newline with
  | none => ([], p)
  | some q =>
      let (later, left) := printLines accepts (p.drop (q + 1))
      ((if accepts (p.take q) then p.take (q + 1) else []) ++ later, left)
termination_by p.length
decreasing_by
  have := strchr_lt ‹strchr p newline = some q›
  simp only [List.length_drop]
  omega

/-- One turn of the outer loop: what it writes, and the `m` bytes left in the buffer. -/
def round (accepts : List Byte → Bool) (held piece : List Byte) : List Byte × List Byte :=
  let done := printLines accepts (held ++ piece)
  (done.1, if done.2.length = (held ++ piece).length then [] else done.2)

/-- The outer loop, with what `read` returns before it returns 0. -/
def grepLoop (accepts : List Byte → Bool) : List Byte → List (List Byte) → List Byte
  | _, [] => []
  | held, piece :: pieces =>
      (round accepts held piece).1 ++ grepLoop accepts (round accepts held piece).2 pieces

def grep (pattern : List Byte) (pieces : List (List Byte)) : List Byte :=
  grepLoop (matchText pattern) [] pieces

def bufSize : Nat := 1024

/-- Each `read` but the last returns as many bytes as it was asked for, as it does on a file. -/
def FullReads (accepts : List Byte → Bool) : List Byte → List (List Byte) → Prop
  | _, [] => True
  | held, piece :: pieces =>
      piece ≠ [] ∧ (piece.length = bufSize - held.length - 1 ∨ pieces = []) ∧
        FullReads accepts (round accepts held piece).2 pieces

def joined (lines : List (List Byte)) : List Byte := lines.flatMap fun line => line ++ [newline]

variable {accepts : List Byte → Bool} {line text : List Byte}

theorem strchr_absent (absent : newline ∉ text) : strchr text newline = none := by
  induction text with
  | nil => rfl
  | cons letter text ih =>
      rw [strchr, if_neg (List.ne_of_not_mem_cons absent).symm, ih (List.not_mem_of_not_mem_cons absent)]
      simp

theorem strchr_line (free : 0 ∉ line) (absent : newline ∉ line) (rest : List Byte) :
    strchr (line ++ newline :: rest) newline = some line.length := by
  induction line with
  | nil => rfl
  | cons letter line ih =>
      rw [List.cons_append, strchr, if_neg (List.ne_of_not_mem_cons free).symm,
        if_neg (List.ne_of_not_mem_cons absent).symm,
        ih (List.not_mem_of_not_mem_cons free) (List.not_mem_of_not_mem_cons absent)]
      rfl

theorem printLines_absent (absent : newline ∉ text) : printLines accepts text = ([], text) := by
  rw [printLines]
  split
  · rfl
  · rename_i found
    rw [strchr_absent absent] at found
    simp at found

def shown (accepts : List Byte → Bool) (line : List Byte) : List Byte :=
  if accepts line then line ++ [newline] else []

theorem printLines_line (free : 0 ∉ line) (absent : newline ∉ line) (rest : List Byte) :
    printLines accepts (line ++ newline :: rest) =
      (shown accepts line ++ (printLines accepts rest).1, (printLines accepts rest).2) := by
  rw [printLines]
  split
  · rename_i missing
    rw [strchr_line free absent] at missing
    simp at missing
  · rename_i q found
    rw [strchr_line free absent] at found
    obtain rfl := Option.some.inj found
    have parts : line ++ newline :: rest = (line ++ [newline]) ++ rest := List.append_cons ..
    have size : (line ++ [newline]).length = line.length + 1 := by simp
    have after : (line ++ newline :: rest).drop (line.length + 1) = rest := parts ▸ List.drop_left' size
    have whole : (line ++ newline :: rest).take (line.length + 1) = line ++ [newline] :=
      parts ▸ List.take_left' size
    rw [after, whole, List.take_left]
    rfl

theorem printLines_append (free : 0 ∉ text) (rest : List Byte) :
    printLines accepts (text ++ rest) =
      ((printLines accepts text).1 ++ (printLines accepts ((printLines accepts text).2 ++ rest)).1,
        (printLines accepts ((printLines accepts text).2 ++ rest)).2) := by
  induction size : text.length using Nat.strong_induction_on generalizing text with
  | h n ih =>
      by_cases present : newline ∈ text
      · obtain ⟨line, later, rfl, absent⟩ := List.eq_append_cons_of_mem present
        simp only [List.mem_append, List.mem_cons, not_or] at free
        rw [List.append_assoc, List.cons_append, printLines_line free.1 absent,
          printLines_line free.1 absent, ih later.length (by simp at size; omega) free.2.2 rfl,
          List.append_assoc]
      · rw [printLines_absent present, List.nil_append]

theorem printLines_left (accepts : List Byte → Bool) (free : 0 ∉ text) :
    newline ∉ (printLines accepts text).2 ∧ 0 ∉ (printLines accepts text).2 := by
  induction size : text.length using Nat.strong_induction_on generalizing text with
  | h n ih =>
      by_cases present : newline ∈ text
      · obtain ⟨line, later, rfl, absent⟩ := List.eq_append_cons_of_mem present
        simp only [List.mem_append, List.mem_cons, not_or] at free
        rw [printLines_line free.1 absent]
        exact ih later.length (by simp at size; omega) free.2.2 rfl
      · rw [printLines_absent present]
        exact ⟨present, free⟩

theorem printLines_shorter (accepts : List Byte → Bool) (free : 0 ∉ text) (present : newline ∈ text) :
    (printLines accepts text).2.length < text.length := by
  induction size : text.length using Nat.strong_induction_on generalizing text with
  | h n ih =>
      obtain ⟨line, later, rfl, absent⟩ := List.eq_append_cons_of_mem present
      simp only [List.mem_append, List.mem_cons, not_or] at free
      rw [printLines_line free.1 absent]
      have shorter : later.length < n := by simp at size; omega
      by_cases more : newline ∈ later
      · exact (ih later.length shorter free.2.2 more rfl).trans shorter
      · rw [printLines_absent more]
        exact shorter

theorem joined_cons (line : List Byte) (lines : List (List Byte)) :
    joined (line :: lines) = line ++ newline :: joined lines := by
  rw [joined, List.flatMap_cons, List.append_assoc, List.singleton_append, joined]

theorem printLines_joined {lines : List (List Byte)}
    (plain : ∀ line ∈ lines, 0 ∉ line ∧ newline ∉ line) :
    printLines accepts (joined lines) = (lines.flatMap (shown accepts), []) := by
  induction lines with
  | nil => exact printLines_absent List.not_mem_nil
  | cons line lines ih =>
      obtain ⟨free, absent⟩ := plain line (by simp)
      rw [joined_cons, printLines_line free absent,
        ih fun other member => plain other (List.mem_cons_of_mem _ member), List.flatMap_cons]

theorem round_newline {held piece : List Byte} (free : 0 ∉ held ++ piece) (present : newline ∈ piece) :
    round accepts held piece = printLines accepts (held ++ piece) := by
  have shorter := printLines_shorter accepts free (List.mem_append_right held present)
  rw [round, if_neg (Nat.ne_of_lt shorter)]

theorem grepLoop_newlines {held : List Byte} {pieces : List (List Byte)} (heldFree : 0 ∉ held)
    (absent : newline ∉ held) (free : ∀ piece ∈ pieces, 0 ∉ piece)
    (present : ∀ piece ∈ pieces, newline ∈ piece) :
    grepLoop accepts held pieces = (printLines accepts (held ++ pieces.flatten)).1 := by
  induction pieces generalizing held with
  | nil => rw [grepLoop, List.flatten_nil, List.append_nil, printLines_absent absent]
  | cons piece pieces ih =>
      have joinedFree : 0 ∉ held ++ piece := by
        rw [List.mem_append, not_or]
        exact ⟨heldFree, free piece (by simp)⟩
      have left := printLines_left accepts joinedFree
      rw [grepLoop, round_newline joinedFree (present piece (by simp)),
        ih left.2 left.1 (fun other member => free other (List.mem_cons_of_mem _ member))
          fun other member => present other (List.mem_cons_of_mem _ member),
        List.flatten_cons, ← List.append_assoc, printLines_append joinedFree]

theorem free_joined {lines : List (List Byte)} (plain : ∀ line ∈ lines, 0 ∉ line ∧ newline ∉ line) :
    0 ∉ joined lines := by
  simp only [joined, List.mem_flatMap, List.mem_append, not_exists, not_and, not_or]
  intro line member
  exact ⟨(plain line member).1, by decide⟩

theorem flatMap_shown (accepts : List Byte → Bool) (lines : List (List Byte)) :
    lines.flatMap (shown accepts) = joined (lines.filter accepts) := by
  induction lines with
  | nil => rfl
  | cons line lines ih =>
      rw [List.flatMap_cons, ih, shown]
      split
      · rename_i accepted
        rw [List.filter_cons_of_pos accepted, joined, joined, List.flatMap_cons]
      · rename_i refused
        rw [List.filter_cons_of_neg refused, List.nil_append]

theorem line_unique {other rest after : List Byte} (absent : newline ∉ line) (bare : newline ∉ other)
    (same : line ++ newline :: rest = other ++ newline :: after) : line = other ∧ rest = after := by
  induction line generalizing other with
  | nil =>
      cases other with
      | nil => exact ⟨rfl, (List.cons.inj same).2⟩
      | cons letter other => exact absurd (List.cons.inj same).1 (List.ne_of_not_mem_cons bare)
  | cons letter line ih =>
      cases other with
      | nil => exact absurd (List.cons.inj same).1 (List.ne_of_not_mem_cons absent).symm
      | cons second other =>
          obtain ⟨rfl, tails⟩ := List.cons.inj same
          obtain ⟨rfl, ends⟩ :=
            ih (List.not_mem_of_not_mem_cons absent) (List.not_mem_of_not_mem_cons bare) tails
          exact ⟨rfl, ends⟩

theorem printLines_rest {lines : List (List Byte)} {rest : List Byte}
    (plain : ∀ line ∈ lines, 0 ∉ line ∧ newline ∉ line) (whole : text ++ rest = joined lines) :
    ∃ later, later ⊆ lines ∧ (printLines accepts text).2 ++ rest = joined later := by
  induction lines generalizing text with
  | nil =>
      obtain ⟨rfl, rfl⟩ := List.append_eq_nil_iff.mp whole
      exact ⟨[], by simp, by rw [printLines_absent List.not_mem_nil]; rfl⟩
  | cons first lines ih =>
      by_cases present : newline ∈ text
      · obtain ⟨line, after, rfl, absent⟩ := List.eq_append_cons_of_mem present
        obtain ⟨free, bare⟩ := plain first (by simp)
        rw [joined_cons, List.append_assoc, List.cons_append] at whole
        obtain ⟨rfl, same⟩ := line_unique absent bare whole
        obtain ⟨later, among, left⟩ :=
          ih (fun other member => plain other (List.mem_cons_of_mem _ member)) same
        refine ⟨later, fun other member => List.mem_cons_of_mem _ (among member), ?_⟩
        rw [printLines_line free absent]
        exact left
      · exact ⟨first :: lines, List.Subset.refl _, by rw [printLines_absent present]; exact whole⟩

theorem newline_of_fullReads {held : List Byte} {lines pieces : List (List Byte)}
    (plain : ∀ line ∈ lines, 0 ∉ line ∧ newline ∉ line) (short : ∀ line ∈ lines, line.length + 1 < bufSize)
    (absent : newline ∉ held) (whole : held ++ pieces.flatten = joined lines)
    (full : FullReads accepts held pieces) : ∀ piece ∈ pieces, newline ∈ piece := by
  induction pieces generalizing held lines with
  | nil => simp
  | cons piece pieces ih =>
      obtain ⟨nonempty, size, later⟩ := full
      have positive : 0 < piece.length := List.length_pos_iff.mpr nonempty
      rw [List.flatten_cons, ← List.append_assoc] at whole
      have inside : newline ∈ held ++ piece := by
        cases lines with
        | nil =>
            obtain ⟨front, -⟩ := List.append_eq_nil_iff.mp whole
            exact absurd (List.append_eq_nil_iff.mp front).2 nonempty
        | cons first lines =>
            rw [joined_cons] at whole
            rcases size with exactly | last
            · have bound := short first (by simp)
              have total : first.length < (held ++ piece).length := by
                rw [List.length_append]
                simp only [bufSize] at exactly bound
                omega
              have there : ((held ++ piece) ++ pieces.flatten)[first.length]? = some newline := by
                rw [whole, List.getElem?_append_right le_rfl, Nat.sub_self]
                rfl
              rw [List.getElem?_append_left total] at there
              exact List.mem_of_getElem? there
            · rw [last, List.flatten_nil, List.append_nil] at whole
              rw [whole]
              simp
      have present := (List.mem_append.mp inside).resolve_left absent
      have free : 0 ∉ held ++ piece := fun zero =>
        free_joined plain (whole ▸ List.mem_append_left _ zero)
      obtain ⟨remaining, among, left⟩ := printLines_rest plain whole
      rw [round_newline free present] at later
      have others := ih (fun line member => plain line (among member))
        (fun line member => short line (among member)) (printLines_left accepts free).1 left later
      intro other member
      rcases List.mem_cons.mp member with rfl | member
      · exact present
      · exact others other member

theorem printLines_length (accepts : List Byte → Bool) (text : List Byte) :
    (printLines accepts text).1.length + (printLines accepts text).2.length ≤ text.length := by
  induction size : text.length using Nat.strong_induction_on generalizing text with
  | h n ih =>
      rw [printLines]
      split
      · simp [size]
      · rename_i q found
        have below := strchr_lt found
        have later := ih (text.drop (q + 1)).length (by simp; omega) _ rfl
        simp only [List.length_append, List.length_drop] at later ⊢
        split
        · rw [List.length_take]
          omega
        · rw [List.length_nil]
          omega

theorem grepLoop_length (accepts : List Byte → Bool) (held : List Byte) (pieces : List (List Byte)) :
    (grepLoop accepts held pieces).length ≤ held.length + pieces.flatten.length := by
  induction pieces generalizing held with
  | nil => simp [grepLoop]
  | cons piece pieces ih =>
      have shown := printLines_length accepts (held ++ piece)
      have later := ih (round accepts held piece).2
      have left : (round accepts held piece).2.length ≤ (printLines accepts (held ++ piece)).2.length := by
        rw [round]
        split <;> simp
      simp only [grepLoop, List.flatten_cons, List.length_append] at shown later ⊢
      simp only [round] at left later ⊢
      omega

/-- A piece without a newline is dropped, together with what was held back before it. -/
theorem grepLoop_loses {held : List Byte} {pieces : List (List Byte)} (heldFree : 0 ∉ held)
    (absent : newline ∉ held) (free : ∀ piece ∈ pieces, 0 ∉ piece) (some : ∀ piece ∈ pieces, piece ≠ [])
    (without : ∃ piece ∈ pieces, newline ∉ piece) :
    (grepLoop accepts held pieces).length < held.length + pieces.flatten.length := by
  induction pieces generalizing held with
  | nil => simp at without
  | cons piece pieces ih =>
      have joinedFree : 0 ∉ held ++ piece := by
        rw [List.mem_append, not_or]
        exact ⟨heldFree, free piece (by simp)⟩
      rw [grepLoop, List.flatten_cons, List.length_append, List.length_append]
      by_cases present : newline ∈ piece
      · have left := printLines_left accepts joinedFree
        have shown := printLines_length accepts (held ++ piece)
        have elsewhere : ∃ other ∈ pieces, newline ∉ other := by
          obtain ⟨other, member, bare⟩ := without
          rcases List.mem_cons.mp member with rfl | member
          · exact absurd present bare
          · exact ⟨other, member, bare⟩
        have later := ih left.2 left.1 (fun other member => free other (List.mem_cons_of_mem _ member))
          (fun other member => some other (List.mem_cons_of_mem _ member)) elsewhere
        rw [round_newline joinedFree present]
        rw [List.length_append] at shown
        omega
      · have nothing : round accepts held piece = ([], []) := by
          rw [round, printLines_absent (by simp [absent, present]), if_pos rfl]
        have later := grepLoop_length accepts [] pieces
        have positive := List.length_pos_iff.mpr (some piece (by simp))
        rw [nothing]
        simp only [List.length_nil] at later ⊢
        omega

theorem matchText_nil (line : List Byte) : matchText [] line = true := by
  cases line <;> simp [matchText, matchAnywhere, matchhere]

/-- Whatever the pattern, grep prints the accepted lines: exactly when every `read` returns a piece
with a newline in it, which it does when it returns as many bytes as it was asked for. -/
theorem grep_prints_lines (lines pieces : List (List Byte))
    (plain : ∀ line ∈ lines, 0 ∉ line ∧ newline ∉ line) (short : ∀ line ∈ lines, line.length + 1 < bufSize)
    (text : pieces.flatten = joined lines) (some : ∀ piece ∈ pieces, piece ≠ []) :
    ((∀ pattern, grep pattern pieces = joined (lines.filter (matchText pattern))) ↔
        ∀ piece ∈ pieces, newline ∈ piece) ∧
      ∀ pattern, FullReads (matchText pattern) [] pieces → ∀ piece ∈ pieces, newline ∈ piece := by
  have free : ∀ piece ∈ pieces, 0 ∉ piece := by
    intro piece member inside
    exact free_joined plain (text ▸ List.mem_flatten_of_mem member inside)
  refine ⟨⟨?_, ?_⟩, fun pattern => newline_of_fullReads plain short List.not_mem_nil text⟩
  · intro prints
    by_contra missing
    push Not at missing
    have loses : (grepLoop (matchText []) [] pieces).length < _ :=
      grepLoop_loses List.not_mem_nil List.not_mem_nil free some missing
    have whole := prints []
    rw [List.filter_eq_self.mpr fun line _ => matchText_nil line, ← text] at whole
    rw [← grep, whole, List.length_nil, Nat.zero_add] at loses
    exact absurd loses (lt_irrefl _)
  · intro present pattern
    rw [grep, grepLoop_newlines List.not_mem_nil List.not_mem_nil free present, List.nil_append, text,
      printLines_joined plain, flatMap_shown]

theorem grep_prints_lines_two :
    grep (['b'].map byte) [['a', '\n', 'b'].map byte, ['c', '\n'].map byte] = ['b', 'c', '\n'].map byte := by
  rw [(grep_prints_lines [['a'].map byte, ['b', 'c'].map byte] _ (by decide) (by decide) (by decide)
    (by decide)).1.mpr (by decide)]
  simp [matchText, matchAnywhere, matchhere, byte, joined, newline]

/-- The line `a` comes in two pieces, and the first one has no newline. -/
theorem grep_drops_partial_line :
    grep [byte 'a'] [[byte 'a'], [newline]] = [] ∧ matchText [byte 'a'] [byte 'a'] = true := by
  have empty : matchText [byte 'a'] [] = false := by simp [matchText, matchAnywhere, matchhere, byte]
  have first : round (matchText [byte 'a']) [] [byte 'a'] = ([], []) := by
    rw [round, List.nil_append, printLines_absent (by decide)]
    rfl
  have second : round (matchText [byte 'a']) [] [newline] = ([], []) := by
    rw [round_newline (by decide) (by decide), printLines_line List.not_mem_nil List.not_mem_nil,
      printLines_absent List.not_mem_nil, shown, empty]
    rfl
  refine ⟨?_, by simp [matchText, matchAnywhere, matchhere, byte]⟩
  rw [grep, grepLoop, first, grepLoop, second]
  rfl

end OsLabs.Grep
