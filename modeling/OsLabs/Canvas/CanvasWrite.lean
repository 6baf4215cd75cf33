import Mathlib.Algebra.Order.Ring.Int
import Mathlib.Data.BitVec
import Mathlib.Tactic.Common
import OsLabs.Foundation.Outcomes

/-!
The write and print commands of the shared canvas. The memory of the mapping is indexed from the
first cell of the canvas, so a negative index is memory in front of it.
-/

namespace OsLabs.Canvas

open Function OsLabs.Outcomes

abbrev Byte := BitVec 8

def height : Nat := 25

def width : Nat := 25

abbrev Memory := Int → Byte

inductive Fault where
  | overflow
deriving DecidableEq

def IsInt (value : Int) : Prop := -2 ^ 31 ≤ value ∧ value < 2 ^ 31

instance (value : Int) : Decidable (IsInt value) := inferInstanceAs (Decidable (_ ∧ _))

def checked (value : Int) : Except Fault Int := if IsInt value then .ok value else .error .overflow

/-- `((HEIGHT * x) + y + k) % (HEIGHT*WIDTH)` -/
def cell (x y k : Int) : Except Fault Int := do
  let row ← checked (height * x)
  let start ← checked (row + y)
  let position ← checked (start + k)
  return position.tmod (height * width)

/-- The loop of the write command from character `k` on. -/
def writeFrom (x y k : Int) : List Byte → Memory → Except Fault Memory
  | [], canvas => .ok canvas
  | character :: message, canvas => do
      let index ← cell x y k
      let next ← checked (k + 1)
      writeFrom x y next message (update canvas index character)

def write (x y : Int) (message : List Byte) (canvas : Memory) : Except Fault Memory :=
  writeFrom x y 0 message canvas

/-- `putchar` of a cell, with a blank for an empty one. -/
def shown (character : Byte) : Byte := if character = 0 then 32 else character

def printRow (canvas : Memory) (i : Nat) : List Byte :=
  (List.range width).map (fun j : Nat => shown (canvas (height * i + j))) ++ [10]

def print (canvas : Memory) : List Byte := (List.range height).flatMap (printRow canvas) ++ [10]

def printedAt (index : Int) : Nat := (width + 1) * (index.toNat / width) + index.toNat % width

section Rows

variable {α : Type*} {rows : Nat → List α} {size n i j : Nat}

theorem length_rows (uniform : ∀ i, (rows i).length = size) :
    ((List.range n).flatMap rows).length = size * n := by
  induction n with
  | zero => rfl
  | succ n ih => simp [List.range_succ, ih, uniform, Nat.mul_succ]

theorem getElem?_rows (uniform : ∀ i, (rows i).length = size) (row : i < n) (column : j < size) :
    ((List.range n).flatMap rows)[size * i + j]? = (rows i)[j]? := by
  induction n with
  | zero => omega
  | succ n ih =>
      rw [List.range_succ, List.flatMap_append]
      rcases Nat.lt_succ_iff_lt_or_eq.mp row with before | rfl
      · have inside : size * i + j < size * n := by
          calc
            size * i + j < size * i + size := by omega
            _ = size * (i + 1) := (Nat.mul_succ ..).symm
            _ ≤ size * n := Nat.mul_le_mul_left size before
        rw [List.getElem?_append_left (by rwa [length_rows uniform]), ih before]
      · rw [List.getElem?_append_right (by rw [length_rows uniform]; omega), length_rows uniform,
          Nat.add_sub_cancel_left, List.flatMap_singleton]

end Rows

theorem print_cell (canvas : Memory) {index : Int} (inside : 0 ≤ index ∧ index < height * width) :
    (print canvas)[printedAt index]? = some (shown (canvas index)) := by
  have uniform : ∀ i, (printRow canvas i).length = width + 1 := by simp [printRow]
  have column : index.toNat % width < width := Nat.mod_lt _ (by decide)
  have row : index.toNat / width < height := by
    rw [Nat.div_lt_iff_lt_mul (by decide)]
    simp only [height, width] at inside ⊢
    omega
  have place : ((height : Int) * (index.toNat / width : Nat) + (index.toNat % width : Nat)) = index := by
    simp only [height, width]
    omega
  have printed := getElem?_rows uniform row (Nat.lt_succ_of_lt column)
  have short : printedAt index < ((List.range height).flatMap (printRow canvas)).length := by
    rw [length_rows uniform]
    simp only [printedAt, height, width] at row column ⊢
    omega
  rw [print, List.getElem?_append_left short, printedAt, printed, printRow,
    List.getElem?_append_left (by simpa using column)]
  rw [List.getElem?_map, List.getElem?_range column, Option.map_some, place]

variable {x y : Int}

theorem checked_eq_ok {value result : Int} : checked value = .ok result ↔ IsInt value ∧ value = result := by
  rw [checked]
  split
  · rename_i inside
    simp [inside]
  · rename_i outside
    simp [outside]

theorem cell_eq_ok {k index : Int} :
    cell x y k = .ok index ↔ (IsInt (height * x) ∧ IsInt (height * x + y) ∧ IsInt (height * x + y + k)) ∧
      (height * x + y + k).tmod (height * width) = index := by
  simp only [cell, bind_eq_ok, checked_eq_ok, pure, Except.pure, Except.ok.injEq]
  constructor
  · rintro ⟨_, ⟨row, rfl⟩, _, ⟨start, rfl⟩, _, ⟨position, rfl⟩, same⟩
    exact ⟨⟨row, start, position⟩, same⟩
  · rintro ⟨⟨row, start, position⟩, same⟩
    exact ⟨_, ⟨row, rfl⟩, _, ⟨start, rfl⟩, _, ⟨position, rfl⟩, same⟩

def written (position : Int) : List Byte → Memory → Memory
  | [], canvas => canvas
  | character :: message, canvas =>
      written (position + 1) message (update canvas (position.tmod (height * width)) character)

theorem writeFrom_eq_ok {message : List Byte} {canvas after : Memory} {k : Int} :
    writeFrom x y k message canvas = .ok after ↔
      (∀ j < message.length, IsInt (height * x) ∧ IsInt (height * x + y) ∧
        IsInt (height * x + y + (k + j)) ∧ IsInt (k + j + 1)) ∧
      written (height * x + y + k) message canvas = after := by
  induction message generalizing canvas k with
  | nil => simp [writeFrom, written]
  | cons character message ih =>
      have shift : ∀ j : Nat, k + 1 + (j : Int) = k + (j + 1 : Nat) := fun j => by
        push_cast
        omega
      rw [writeFrom, bind_eq_ok]
      simp only [bind_eq_ok, cell_eq_ok, checked_eq_ok, ih, List.length_cons, written, Int.add_assoc]
      constructor
      · rintro ⟨_, ⟨⟨row, start, position⟩, rfl⟩, _, ⟨next, rfl⟩, later, rfl⟩
        refine ⟨?_, rfl⟩
        intro j bound
        cases j with
        | zero => simpa using ⟨row, start, position, next⟩
        | succ j =>
            have there := later j (by omega)
            simpa [Int.add_comm, Int.add_left_comm, Int.add_assoc] using there
      · rintro ⟨ints, rfl⟩
        have here := ints 0 (by omega)
        simp only [Nat.cast_zero, Int.zero_add, Int.add_zero] at here
        refine ⟨_, ⟨⟨here.1, here.2.1, here.2.2.1⟩, rfl⟩, _, ⟨here.2.2.2, rfl⟩, ?_, rfl⟩
        intro j bound
        have there := ints (j + 1) (by omega)
        simpa [Int.add_comm, Int.add_left_comm, Int.add_assoc] using there

/-- A cell has a character of the message that was written there, or is as before. -/
theorem written_at (position : Int) (message : List Byte) (canvas : Memory) (index : Int) :
    (∃ j, ∃ bound : j < message.length, (position + j).tmod (height * width) = index ∧
        written position message canvas index = message[j]) ∨
      (∀ j < message.length, (position + j).tmod (height * width) ≠ index) ∧
        written position message canvas index = canvas index := by
  induction message generalizing position canvas with
  | nil => exact Or.inr ⟨by simp, rfl⟩
  | cons character message ih =>
      rw [written]
      rcases ih (position + 1) (update canvas (position.tmod (height * width)) character) with
        ⟨j, bound, there, value⟩ | ⟨away, value⟩
      · refine Or.inl ⟨j + 1, by simpa using bound, ?_, by simpa using value⟩
        rw [← there]
        congr 1
        push_cast
        omega
      · by_cases first : position.tmod (height * width) = index
        · refine Or.inl ⟨0, by simp, by simpa using first, ?_⟩
          rw [value, ← first, update_self]
          rfl
        · refine Or.inr ⟨?_, value.trans (update_of_ne (Ne.symm first) _ _)⟩
          intro j bound
          cases j with
          | zero => simpa using first
          | succ j =>
              have later := away j (by simpa using bound)
              rwa [Int.add_assoc, Int.add_comm 1, ← Int.natCast_succ] at later

/-- Characters that come to the same cell are equal. -/
def Repeats (message : List Byte) : Prop :=
  ∀ k, ∀ character ∈ message[k + height * width]?, message[k]? = some character

theorem Repeats.eq {message : List Byte} (repeats : Repeats message) {k : Nat} (turns : Nat)
    {character : Byte} (there : message[k + height * width * turns]? = some character) :
    message[k]? = some character := by
  induction turns with
  | zero => simpa using there
  | succ turns ih => exact ih (repeats _ character (by rwa [Nat.mul_succ, ← Nat.add_assoc] at there))

theorem Repeats.same {message : List Byte} (repeats : Repeats message) {j k : Nat}
    (jBound : j < message.length) (kBound : k < message.length)
    (cells : j % (height * width) = k % (height * width)) : message[j] = message[k] := by
  have back : ∀ {i : Nat} (bound : i < message.length),
      message[i % (height * width)]? = some message[i] := by
    intro i bound
    refine repeats.eq (i / (height * width)) ?_
    rw [Nat.mod_add_div, List.getElem?_eq_getElem bound]
  have left := back jBound
  rw [cells, back kBound] at left
  exact (Option.some.inj left).symm

/-- The message stands on the canvas from its cell on, and nothing else changes. -/
def Shown (x y : Int) (message : List Byte) (canvas after : Memory) : Prop :=
  (∀ index : Int, index < 0 ∨ height * width ≤ index → after index = canvas index) ∧
    (∀ index, (∀ k < message.length, index ≠ (height * x + y + k) % (height * width)) →
      after index = canvas index) ∧
    ∀ k, ∀ bound : k < message.length,
      (print after)[printedAt ((height * x + y + k) % (height * width))]? = some message[k]

/-- No `int` overflows, no cell before the canvas is written, and characters that come to the same
cell are equal. -/
structure Fitting (x y : Int) (message : List Byte) : Prop where
  row : IsInt (height * x)
  start : IsInt (height * x + y)
  last : height * x + y + message.length ≤ 2 ^ 31
  length : message.length < 2 ^ 31
  inside : 0 ≤ height * x + y ∨ message.length = 1 ∧ (height * x + y) % (height * width) = 0
  repeats : Repeats message

variable {message : List Byte}

theorem Fitting.cell (fitting : Fitting x y message) {k : Nat} (bound : k < message.length) :
    (height * x + y + k).tmod (height * width) = (height * x + y + k) % (height * width) := by
  rcases fitting.inside with nonneg | ⟨single, zero⟩
  · exact Int.tmod_eq_emod_of_nonneg (by omega)
  · obtain rfl : k = 0 := by omega
    rw [Nat.cast_zero, Int.add_zero, zero]
    exact Int.tmod_eq_zero_of_dvd (Int.dvd_of_emod_eq_zero zero)

theorem Fitting.shown (fitting : Fitting x y message) (free : 0 ∉ message) (canvas : Memory) :
    ∃ after, write x y message canvas = .ok after ∧ Shown x y message canvas after := by
  have size : (height : Int) * width = 625 := rfl
  obtain ⟨row, start, last, length, inside, repeats⟩ := id fitting
  refine ⟨written (height * x + y) message canvas, ?_, ?_, ?_, ?_⟩
  · rw [write, writeFrom_eq_ok, Int.add_zero]
    refine ⟨?_, rfl⟩
    intro j bound
    refine ⟨row, start, ?_, ?_⟩ <;> simp only [IsInt] at start ⊢ <;> omega
  · intro index off
    rcases written_at (height * x + y) message canvas index with ⟨j, bound, there, -⟩ | ⟨-, same⟩
    · rw [fitting.cell bound, size] at there
      rw [size] at off
      omega
    · exact same
  · intro index apart
    rcases written_at (height * x + y) message canvas index with ⟨j, bound, there, -⟩ | ⟨-, same⟩
    · rw [fitting.cell bound] at there
      exact absurd there.symm (apart j bound)
    · exact same
  · intro k bound
    rw [print_cell _ (by rw [size]; omega)]
    rcases written_at (height * x + y) message canvas ((height * x + y + k) % (height * width)) with
      ⟨j, jBound, there, value⟩ | ⟨away, -⟩
    · have cells : j % (height * width) = k % (height * width) := by
        rw [fitting.cell jBound, size] at there
        simp only [height, width] at there ⊢
        omega
      have equal := repeats.same jBound bound cells
      have nonzero : message[k] ≠ 0 := fun zero => free (zero ▸ List.getElem_mem bound)
      rw [value, equal, Canvas.shown, if_neg nonzero]
    · exact absurd (fitting.cell bound) (away k bound)

theorem tmod_neg {position : Int} (negative : position < 0) (apart : position % 625 ≠ 0) :
    position.tmod 625 < 0 := by
  have opposite : (-position).tmod 625 = (-position) % 625 := Int.tmod_eq_emod_of_nonneg (by omega)
  rw [Int.neg_tmod] at opposite
  omega

theorem fitting_of_shown (free : 0 ∉ message) (some : message ≠ []) {after : Memory}
    (done : write x y message (fun _ => 0) = .ok after) (shown : Shown x y message (fun _ => 0) after) :
    Fitting x y message := by
  have size : (height : Int) * width = 625 := rfl
  have positive := List.length_pos_iff.mpr some
  obtain ⟨outside, -, printed⟩ := shown
  rw [write, writeFrom_eq_ok, Int.add_zero] at done
  obtain ⟨ints, rfl⟩ := done
  have first := ints 0 positive
  have final := ints (message.length - 1) (by omega)
  simp only [IsInt] at first final
  refine ⟨first.1, ?_, ?_, ?_, ?_, ?_⟩
  · simp only [IsInt]
    omega
  · omega
  · omega
  · by_contra off
    push Not at off
    obtain ⟨j, bound, negative⟩ : ∃ j < message.length,
        (height * x + y + j).tmod (height * width) < 0 := by
      rw [size] at off ⊢
      by_cases zero : (height * x + y) % 625 = 0
      · have several : message.length ≠ 1 := fun single => off.2 single zero
        exact ⟨1, by omega, tmod_neg (by omega) (by omega)⟩
      · exact ⟨0, positive, tmod_neg (by omega) (by omega)⟩
    have same : written (height * x + y) message (fun _ => 0) _ = 0 := outside _ (Or.inl negative)
    rcases written_at (height * x + y) message (fun _ => 0)
        ((height * x + y + j).tmod (height * width)) with ⟨i, iBound, -, value⟩ | ⟨away, -⟩
    · exact free (by rw [← same, value]; exact List.getElem_mem iBound)
    · exact absurd rfl (away j bound)
  · intro k character there
    obtain ⟨bound, value⟩ := List.getElem?_eq_some_iff.mp there
    have below : k < message.length := by omega
    have here := printed k below
    have again := printed (k + height * width) bound
    have cells : (height * x + y + (k + height * width : Nat)) % (height * width) =
        (height * x + y + k) % (height * width : Int) := by
      push_cast
      rw [← Int.add_assoc, Int.add_emod_right]
    rw [cells, here, value] at again
    rw [List.getElem?_eq_getElem below]
    exact again

/-- The message stands on the canvas from its cell on, and nothing else changes: exactly when it is
empty or fits. -/
theorem write_shown (x y : Int) (message : List Byte) (free : 0 ∉ message) :
    (∀ canvas, ∃ after, write x y message canvas = .ok after ∧ Shown x y message canvas after) ↔
      message = [] ∨ Fitting x y message := by
  constructor
  · intro shows
    by_cases empty : message = []
    · exact Or.inl empty
    · obtain ⟨after, done, shown⟩ := shows fun _ => 0
      exact Or.inr (fitting_of_shown free empty done shown)
  · rintro (rfl | fitting) canvas
    · exact ⟨canvas, rfl, fun _ _ => rfl, fun _ _ => rfl, by simp⟩
    · exact fitting.shown free canvas

theorem Repeats.short {message : List Byte} (short : message.length ≤ height * width) : Repeats message := by
  intro k character there
  rw [List.getElem?_eq_none (by omega)] at there
  simp at there

/-- A message in the last two cells and the first one. -/
theorem write_shown_wrapped :
    ∃ after, write 24 23 [65, 66, 67] (fun _ => 0) = .ok after ∧
      (print after)[printedAt 623]? = some 65 ∧ (print after)[printedAt 0]? = some 67 := by
  have fitting : Fitting 24 23 [65, 66, 67] :=
    ⟨by decide, by decide, by decide, by decide, by decide, .short (by decide)⟩
  obtain ⟨after, done, -, -, printed⟩ :=
    (write_shown 24 23 [65, 66, 67] (by decide)).mpr (Or.inr fitting) fun _ => 0
  exact ⟨after, done, printed 0 (by decide), printed 2 (by decide)⟩

/-- A negative position is written in front of the canvas, and a message that is too long loses its
first characters. -/
theorem write_before_canvas :
    ((write 0 (-1) [65] fun _ => 0).toOption.map fun after => after (-1)) = some 65 ∧
      ((write 0 0 (List.replicate 625 65 ++ [66]) fun _ => 0).toOption.map fun after => after 0) = some 66 := by
  decide +kernel

end OsLabs.Canvas
