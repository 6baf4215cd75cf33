import Mathlib.Data.List.Basic
import Mathlib.Data.Nat.ModEq
import Mathlib.Logic.Function.Basic

/-!
A ring buffer with counters that run freely and wrap: cell `n % size` holds item `n`. The size divides the
range of the counters, so that the cells go on in turn where the counters wrap.
-/

namespace OsLabs.RingBuffer

variable {α : Type*} {w size : Nat}

def cell (pos : 0 < size) (n : BitVec w) : Fin size := ⟨n.toNat % size, Nat.mod_lt _ pos⟩

def contents (pos : 0 < size) (cells : Fin size → α) (first : BitVec w) (count : Nat) : List α :=
  (List.range count).map fun i => cells (cell pos (first + BitVec.ofNat w i))

variable {pos : 0 < size} {cells : Fin size → α} {first : BitVec w} {count : Nat}

theorem cell_add (divides : size ∣ 2 ^ w) (first : BitVec w) (offset : Nat) :
    (cell pos (first + BitVec.ofNat w offset)).val = (first.toNat + offset) % size := by
  simp only [cell, BitVec.toNat_add, BitVec.toNat_ofNat, Nat.add_mod_mod]
  exact Nat.mod_mod_of_dvd _ divides

theorem cell_ne (divides : size ∣ 2 ^ w) (first : BitVec w) {near far : Nat} (before : near < far) (turn : far < size) :
    cell pos (first + BitVec.ofNat w near) ≠ cell pos (first + BitVec.ofNat w far) := by
  intro same
  have values := congrArg Fin.val same
  rw [cell_add divides, cell_add divides] at values
  have close : near ≡ far [MOD size] := Nat.ModEq.add_left_cancel' first.toNat values
  exact before.ne (Nat.ModEq.eq_of_lt_of_lt close (before.trans turn) turn)

theorem succ_add : first + BitVec.ofNat w (count + 1) = first + 1 + BitVec.ofNat w count := by
  rw [Nat.add_comm count, BitVec.ofNat_add, ← BitVec.add_assoc]
  rfl

theorem contents_succ :
    contents pos cells first (count + 1) = cells (cell pos first) :: contents pos cells (first + 1) count := by
  simp only [contents, List.range_succ_eq_map, List.map_cons, List.map_map]
  congr 1
  · simp
  · exact List.map_congr_left fun i _ => by simp only [Function.comp_apply, Nat.succ_eq_add_one, succ_add]

theorem contents_concat : contents pos cells first (count + 1) =
    contents pos cells first count ++ [cells (cell pos (first + BitVec.ofNat w count))] := by
  simp only [contents, List.range_succ, List.map_append, List.map_cons, List.map_nil]

theorem take_contents {fewer : Nat} (le : fewer ≤ count) :
    (contents pos cells first count).take fewer = contents pos cells first fewer := by
  rw [contents, ← List.map_take, List.take_range, Nat.min_eq_left le, contents]

theorem contents_update (divides : size ∣ 2 ^ w) (room : count < size) (value : α) :
    contents pos (Function.update cells (cell pos (first + BitVec.ofNat w count)) value) first (count + 1) =
      contents pos cells first count ++ [value] := by
  rw [contents_concat, Function.update_self]
  congr 1
  refine List.map_congr_left fun i inside => ?_
  rw [Function.update_of_ne (cell_ne divides first (List.mem_range.mp inside) room)]

theorem toNat_add_sub (bound : count < 2 ^ w) : (first + BitVec.ofNat w count - first).toNat = count := by
  rw [BitVec.add_comm, BitVec.add_sub_cancel, BitVec.toNat_ofNat, Nat.mod_eq_of_lt bound]

theorem add_ofNat_inj {other : Nat} (bound : count < 2 ^ w) (bound' : other < 2 ^ w) :
    first + BitVec.ofNat w count = first + BitVec.ofNat w other ↔ count = other := by
  constructor
  · intro same
    rw [← toNat_add_sub bound, same, toNat_add_sub bound']
  · rintro rfl
    rfl

theorem add_succ : first + BitVec.ofNat w (count + 1) = first + BitVec.ofNat w count + 1 := by
  rw [BitVec.ofNat_add, ← BitVec.add_assoc]
  rfl

theorem add_succ_sub_one : first + BitVec.ofNat w (count + 1) - 1 = first + BitVec.ofNat w count := by
  rw [add_succ]
  exact BitVec.add_sub_cancel _ _

end OsLabs.RingBuffer
