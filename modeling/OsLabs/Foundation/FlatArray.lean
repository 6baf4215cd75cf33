import Mathlib.Logic.Function.Basic
import Mathlib.Tactic.Common

/-!
Cells in one line, read and written a stretch at a time, as a loop over a row of a
two-dimensional array does.
-/

namespace OsLabs.FlatArray

open Function

variable {α : Type*}

def readFrom (cells : Int → α) (start : Int) : Nat → List α
  | 0 => []
  | count + 1 => cells start :: readFrom cells (start + 1) count

def writeFrom (cells : Int → α) (start : Int) : List α → Int → α
  | [] => cells
  | value :: rest => writeFrom (update cells start value) (start + 1) rest

def takeFrom (filler : α) (cells : Int → α) (start : Int) : Nat → List α × (Int → α)
  | 0 => ([], cells)
  | count + 1 =>
      let rest := takeFrom filler (update cells start filler) (start + 1) count
      (cells start :: rest.1, rest.2)

@[simp] theorem length_readFrom (cells : Int → α) (start : Int) (count : Nat) :
    (readFrom cells start count).length = count := by
  induction count generalizing start with
  | zero => rfl
  | succ count ih => rw [readFrom, List.length_cons, ih]

theorem readFrom_append (cells : Int → α) (start : Int) (first second : Nat) :
    readFrom cells start (first + second) =
      readFrom cells start first ++ readFrom cells (start + first) second := by
  induction first generalizing start with
  | zero => simp [readFrom]
  | succ first ih =>
      have shift : start + (first + 1 : Nat) = start + 1 + first := by omega
      rw [Nat.add_right_comm, readFrom, readFrom, ih, List.cons_append, shift]

theorem readFrom_congr {cells other : Int → α} {start : Int} {count : Nat}
    (same : ∀ index, start ≤ index → index < start + count → cells index = other index) :
    readFrom cells start count = readFrom other start count := by
  induction count generalizing start with
  | zero => rfl
  | succ count ih =>
      rw [readFrom, readFrom, same start (by omega) (by omega)]
      rw [ih fun index lower upper => same index (by omega) (by omega)]

theorem eq_of_mem_readFrom {cells : Int → α} {start : Int} {count : Nat} {value : α}
    (member : value ∈ readFrom cells start count) : ∃ index, value = cells index := by
  induction count generalizing start with
  | zero => simp [readFrom] at member
  | succ count ih =>
      rcases List.mem_cons.mp member with here | later
      · exact ⟨start, here⟩
      · exact ih later

theorem writeFrom_outside (cells : Int → α) (start index : Int) (values : List α)
    (outside : index < start ∨ start + values.length ≤ index) :
    writeFrom cells start values index = cells index := by
  induction values generalizing cells start with
  | nil => rfl
  | cons value rest ih =>
      simp only [List.length_cons] at outside
      rw [writeFrom, ih _ _ (by omega), update_of_ne (by omega)]

theorem readFrom_writeFrom (cells : Int → α) (start : Int) (values : List α) (extra : Nat) :
    readFrom (writeFrom cells start values) start (values.length + extra) =
      values ++ readFrom cells (start + values.length) extra := by
  induction values generalizing cells start with
  | nil => simp [writeFrom]
  | cons value rest ih =>
      have first : writeFrom (update cells start value) (start + 1) rest start = value := by
        rw [writeFrom_outside _ _ _ _ (by omega), update_self]
      have later : readFrom (update cells start value) (start + 1 + rest.length) extra =
          readFrom cells (start + 1 + rest.length) extra := by
        apply readFrom_congr
        intro index lower upper
        exact update_of_ne (by omega) _ _
      have shift : start + (rest.length + 1 : Nat) = start + 1 + rest.length := by omega
      rw [List.length_cons, Nat.add_right_comm, readFrom, writeFrom, first, ih, later,
        List.cons_append, shift]

theorem takeFrom_eq (filler : α) (cells : Int → α) (start : Int) (count : Nat) :
    takeFrom filler cells start count =
      (readFrom cells start count, writeFrom cells start (List.replicate count filler)) := by
  induction count generalizing cells start with
  | zero => rfl
  | succ count ih =>
      have same : readFrom (update cells start filler) (start + 1) count =
          readFrom cells (start + 1) count := by
        apply readFrom_congr
        intro index lower upper
        exact update_of_ne (by omega) _ _
      simp only [takeFrom, ih, same, readFrom, List.replicate_succ, writeFrom]

end OsLabs.FlatArray
