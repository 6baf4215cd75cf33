import OsLabs.Foundation.ItemPatterns
import Mathlib.Data.BitVec

/-!
The pattern matcher of grep.c. A string is the list of its bytes up to the terminating NUL, and
reading at its end reads the NUL.
-/

namespace OsLabs.Grep

open OsLabs.ItemPatterns

abbrev Byte := BitVec 8

def byte (letter : Char) : Byte := BitVec.ofNat 8 letter.toNat

def peek (s : List Byte) : Byte := s.headD 0

@[simp] theorem peek_nil : peek [] = 0 := rfl

@[simp] theorem peek_cons (letter : Byte) (s : List Byte) : peek (letter :: s) = letter := rfl

theorem ne_nil_of_peek {s : List Byte} (more : peek s ≠ 0) : 0 < s.length := by
  cases s with
  | nil => exact absurd rfl more
  | cons => simp

mutual

/-- Search for `re` at the beginning of the text. -/
def matchhere (re text : List Byte) : Bool :=
  if _ : peek re = 0 then true
  else if peek re.tail = byte '*' then matchstar (peek re) re.tail.tail text
  else if peek re = byte '$' ∧ peek re.tail = 0 then peek text = 0
  else if peek text ≠ 0 ∧ (peek re = byte '.' ∨ peek re = peek text) then matchhere re.tail text.tail
  else false
termination_by (re.length, 0)
decreasing_by
  all_goals have := ne_nil_of_peek ‹peek re ≠ 0›
  all_goals simp only [List.length_tail]
  all_goals exact Prod.Lex.left _ _ (by omega)

def matchstar (c : Byte) (re text : List Byte) : Bool :=
  if matchhere re text then true
  else if _ : peek text ≠ 0 ∧ (peek text = c ∨ c = byte '.') then matchstar c re text.tail
  else false
termination_by (re.length, text.length + 1)
decreasing_by
  · exact Prod.Lex.right _ (by omega)
  · have := ne_nil_of_peek (‹peek text ≠ 0 ∧ _›).1
    exact Prod.Lex.right _ (by simp only [List.length_tail]; omega)

end

def matchAnywhere (re : List Byte) : List Byte → Bool
  | [] => matchhere re []
  | letter :: text =>
      if matchhere re (letter :: text) then true
      else if letter ≠ 0 then matchAnywhere re text
      else false

def matchText (re text : List Byte) : Bool :=
  if peek re = byte '^' then matchhere re.tail text else matchAnywhere re text

def Stands (c letter : Byte) : Prop := c = byte '.' ∨ c = letter

instance (c letter : Byte) : Decidable (Stands c letter) := inferInstanceAs (Decidable (_ ∨ _))

def items : List Byte → List (Item Byte)
  | [] => []
  | [c] => if c = byte '$' then [.ending] else [.one (Stands c)]
  | c :: next :: rest =>
      if next = byte '*' then .many (Stands c) :: items rest else .one (Stands c) :: items (next :: rest)

variable {re text : List Byte}

theorem peek_eq_zero (free : 0 ∉ text) : peek text = 0 ↔ text = [] := by
  cases text with
  | nil => exact iff_of_true rfl rfl
  | cons letter rest => exact iff_of_false (List.ne_of_not_mem_cons free).symm (List.cons_ne_nil _ _)

theorem matchhere_ended (text : List Byte) : matchhere [] text = true := by
  rw [matchhere, dif_pos peek_nil]

theorem matchhere_cons {c : Byte} (nonzero : c ≠ 0) (rest text : List Byte) :
    matchhere (c :: rest) text =
      if peek rest = byte '*' then matchstar c rest.tail text
      else if c = byte '$' ∧ peek rest = 0 then decide (peek text = 0)
      else if peek text ≠ 0 ∧ Stands c (peek text) then matchhere rest text.tail
      else false := by
  rw [matchhere]
  exact dif_neg nonzero

theorem matchhere_star {c : Byte} (nonzero : c ≠ 0) (rest text : List Byte) :
    matchhere (c :: byte '*' :: rest) text = matchstar c rest text := by
  rw [matchhere_cons nonzero, if_pos (peek_cons _ _), List.tail_cons]

theorem matchhere_end (textFree : 0 ∉ text) : matchhere [byte '$'] text = true ↔ text = [] := by
  rw [matchhere_cons (by decide), if_neg (by decide), if_pos (by decide), decide_eq_true_iff,
    peek_eq_zero textFree]

theorem matchhere_one {c : Byte} {rest : List Byte} (nonzero : c ≠ 0) (single : peek rest ≠ byte '*')
    (inner : ¬(c = byte '$' ∧ peek rest = 0)) (textFree : 0 ∉ text) :
    matchhere (c :: rest) text = true ↔
      ∃ letter after, text = letter :: after ∧ Stands c letter ∧ matchhere rest after = true := by
  rw [matchhere_cons nonzero, if_neg single, if_neg inner]
  cases text with
  | nil => simp
  | cons letter after =>
      have more := (List.ne_of_not_mem_cons textFree).symm
      simp only [peek_cons, ne_eq, more, not_false_eq_true, true_and, List.tail_cons, List.cons.injEq]
      split
      · rename_i fits
        constructor
        · intro later
          exact ⟨letter, after, ⟨rfl, rfl⟩, fits, later⟩
        · rintro ⟨_, _, ⟨rfl, rfl⟩, -, later⟩
          exact later
      · rename_i differs
        constructor
        · intro impossible
          simp at impossible
        · rintro ⟨_, _, ⟨rfl, rfl⟩, fits, -⟩
          exact absurd fits differs

theorem matchstar_cons {letter : Byte} (nonzero : letter ≠ 0) (c : Byte) (re after : List Byte) :
    matchstar c re (letter :: after) =
      if matchhere re (letter :: after) then true
      else if Stands c letter then matchstar c re after
      else false := by
  have stands : peek (letter :: after) = c ∨ c = byte '.' ↔ Stands c letter := by
    rw [Stands, or_comm, peek_cons, eq_comm (b := c)]
  rw [matchstar]
  congr 1
  by_cases fits : Stands c letter
  · rw [if_pos fits, dif_pos ⟨nonzero, stands.mpr fits⟩, List.tail_cons]
  · rw [if_neg fits, dif_neg fun both => fits (stands.mp both.2)]

theorem matchstar_iff {c : Byte} {rest : List Byte} {later : List (Item Byte)}
    (here : ∀ text, 0 ∉ text → (matchhere rest text = true ↔ Accepts later text)) (textFree : 0 ∉ text) :
    matchstar c rest text = true ↔ Accepts (.many (Stands c) :: later) text := by
  induction text with
  | nil =>
      rw [matchstar, accepts_many, ← here [] textFree]
      simp
  | cons letter after ih =>
      have more := (List.ne_of_not_mem_cons textFree).symm
      rw [matchstar_cons more, accepts_many, ← here _ textFree]
      split
      · rename_i found
        exact iff_of_true rfl (Or.inl found)
      · rename_i missing
        rw [or_iff_right missing]
        split
        · rename_i fits
          rw [ih (List.not_mem_of_not_mem_cons textFree)]
          constructor
          · intro again
            exact ⟨letter, after, rfl, fits, again⟩
          · rintro ⟨_, _, same, -, again⟩
            obtain ⟨-, rfl⟩ := List.cons.inj same
            exact again
        · rename_i differs
          refine iff_of_false (by simp) ?_
          rintro ⟨_, _, same, fits, -⟩
          obtain ⟨rfl, -⟩ := List.cons.inj same
          exact differs fits

theorem matchhere_iff (reFree : 0 ∉ re) (textFree : 0 ∉ text) :
    matchhere re text = true ↔ Accepts (items re) text := by
  induction re using items.induct generalizing text with
  | case1 => exact iff_of_true (matchhere_ended text) (accepts_nil text)
  | case2 =>
      rw [matchhere_end textFree, items, if_pos rfl, accepts_ending]
  | case3 c inner =>
      have nonzero := (List.ne_of_not_mem_cons reFree).symm
      rw [matchhere_one nonzero (by decide) (fun both => inner both.1) textFree, items, if_neg inner,
        accepts_one]
      simp only [matchhere_ended, accepts_nil]
  | case4 c rest ih =>
      have nonzero := (List.ne_of_not_mem_cons reFree).symm
      have restFree := List.not_mem_of_not_mem_cons (List.not_mem_of_not_mem_cons reFree)
      rw [matchhere_star nonzero, items, if_pos rfl]
      exact matchstar_iff (fun _ free => ih restFree free) textFree
  | case5 c next rest single ih =>
      have nonzero := (List.ne_of_not_mem_cons reFree).symm
      have restFree := List.not_mem_of_not_mem_cons reFree
      have inner : ¬(c = byte '$' ∧ peek (next :: rest) = 0) := fun both =>
        (List.ne_of_not_mem_cons restFree).symm both.2
      rw [matchhere_one nonzero (by exact single) inner textFree, items, if_neg single, accepts_one]
      constructor
      · rintro ⟨letter, after, rfl, fits, later⟩
        exact ⟨letter, after, rfl, fits, (ih restFree (List.not_mem_of_not_mem_cons textFree)).mp later⟩
      · rintro ⟨letter, after, rfl, fits, later⟩
        exact ⟨letter, after, rfl, fits, (ih restFree (List.not_mem_of_not_mem_cons textFree)).mpr later⟩

theorem matchAnywhere_iff (textFree : 0 ∉ text) :
    matchAnywhere re text = true ↔ ∃ suffix, suffix <:+ text ∧ matchhere re suffix = true := by
  induction text with
  | nil => simp [matchAnywhere]
  | cons letter text ih =>
      have more := (List.ne_of_not_mem_cons textFree).symm
      rw [matchAnywhere, if_pos more]
      split
      · rename_i found
        exact iff_of_true rfl ⟨_, List.suffix_refl _, found⟩
      · rename_i missing
        rw [ih (List.not_mem_of_not_mem_cons textFree)]
        constructor
        · rintro ⟨suffix, ends, found⟩
          exact ⟨suffix, ends.trans (List.suffix_cons letter text), found⟩
        · rintro ⟨suffix, ends, found⟩
          rcases List.suffix_cons_iff.mp ends with rfl | ends
          · exact absurd found missing
          · exact ⟨suffix, ends, found⟩

/-- `match` decides whether the items of the pattern accept a suffix of the text, or the whole
text after a `^`. -/
theorem matchText_iff (re text : List Byte) (reFree : 0 ∉ re) (textFree : 0 ∉ text) :
    matchText re text = true ↔
      if re.head? = some (byte '^') then Accepts (items re.tail) text
      else ∃ suffix, suffix <:+ text ∧ Accepts (items re) suffix := by
  have anchored : re.head? = some (byte '^') ↔ peek re = byte '^' := by
    cases re with
    | nil => exact iff_of_false (by simp) (by decide)
    | cons c rest => simp
  rw [matchText, if_congr anchored rfl rfl]
  split
  · exact matchhere_iff (fun inside => reFree (List.mem_of_mem_tail inside)) textFree
  · rw [matchAnywhere_iff textFree]
    constructor
    · rintro ⟨suffix, ends, found⟩
      exact ⟨suffix, ends, (matchhere_iff reFree fun inside => textFree (ends.mem inside)).mp found⟩
    · rintro ⟨suffix, ends, found⟩
      exact ⟨suffix, ends, (matchhere_iff reFree fun inside => textFree (ends.mem inside)).mpr found⟩

theorem matchText_iff_suffix :
    matchText (['b', '*', 'c', '$'].map byte) (['a', 'b', 'b', 'c'].map byte) = true := by
  rw [matchText_iff _ _ (by decide) (by decide), if_neg (by decide)]
  have b : Stands (byte 'b') (byte 'b') := Or.inr rfl
  have c : Stands (byte 'c') (byte 'c') := Or.inr rfl
  refine ⟨['b', 'b', 'c'].map byte, by decide, [['b', 'b'].map byte, ['c'].map byte, []], [], rfl, ?_, fun _ => rfl⟩
  exact .cons (by simp [Item.Takes, b]) (.cons ⟨_, c, rfl⟩ (.cons rfl .nil))

end OsLabs.Grep
