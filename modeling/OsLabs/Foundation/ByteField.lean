import Mathlib.Data.BitVec
import Mathlib.Logic.Function.Basic
import Mathlib.Tactic.Common

/-!
Fields of records in arrays of bytes: stretches that are copied in and out, and
little-endian numbers of any width stored in them.
-/

namespace OsLabs.ByteField

section Stretches

variable {α : Type*}

def slice (cells : Nat → α) (offset count : Nat) : List α := (List.range' offset count).map cells

def blit (cells : Nat → α) (offset : Nat) (values : List α) : Nat → α := fun index =>
  if offset ≤ index then (values[index - offset]?).getD (cells index) else cells index

@[simp] theorem length_slice (cells : Nat → α) (offset count : Nat) :
    (slice cells offset count).length = count := by
  simp [slice]

theorem slice_congr {cells other : Nat → α} {offset count : Nat}
    (same : ∀ index, offset ≤ index → index < offset + count → cells index = other index) :
    slice cells offset count = slice other offset count := by
  apply List.map_congr_left
  intro index member
  rw [List.mem_range'_1] at member
  exact same index member.1 member.2

theorem slice_shift {cells other : Nat → α} {offset start count : Nat}
    (same : ∀ index < count, cells (offset + index) = other (start + index)) :
    slice cells offset count = slice other start count := by
  apply List.ext_getElem (by rw [length_slice, length_slice])
  intro index left _
  rw [length_slice] at left
  simp only [slice, List.getElem_map, List.getElem_range', Nat.one_mul]
  exact same index left

theorem slice_add (cells : Nat → α) (offset first second : Nat) :
    slice cells offset (first + second) =
      slice cells offset first ++ slice cells (offset + first) second := by
  rw [slice, slice, slice, ← List.map_append, List.range'_append_1]

theorem take_slice (cells : Nat → α) (offset count n : Nat) :
    (slice cells offset count).take n = slice cells offset (min n count) := by
  by_cases fewer : n ≤ count
  · have parts := slice_add cells offset n (count - n)
    rw [Nat.add_sub_cancel' fewer] at parts
    rw [Nat.min_eq_left fewer, parts, List.take_left' (length_slice ..)]
  · rw [Nat.min_eq_right (by omega), List.take_of_length_le (by rw [length_slice]; omega)]

theorem blit_inside (cells : Nat → α) (offset : Nat) {values : List α} {index : Nat}
    (bound : index < values.length) : blit cells offset values (offset + index) = values[index] := by
  simp [blit, bound]

theorem blit_outside (cells : Nat → α) (offset : Nat) (values : List α) {index : Nat}
    (outside : index < offset ∨ offset + values.length ≤ index) :
    blit cells offset values index = cells index := by
  rw [blit]
  split
  · rw [List.getElem?_eq_none (by omega), Option.getD_none]
  · rfl

theorem blit_append (cells : Nat → α) (offset : Nat) (first second : List α) :
    blit cells offset (first ++ second) = blit (blit cells offset first) (offset + first.length) second := by
  funext index
  by_cases before : index < offset + first.length
  · rw [blit_outside _ _ second (Or.inl before), blit, blit]
    by_cases inside : offset ≤ index
    · rw [if_pos inside, if_pos inside, List.getElem?_append_left (by omega)]
    · rw [if_neg inside, if_neg inside]
  · rw [blit, if_pos (by omega), List.getElem?_append_right (by omega), blit, if_pos (by omega),
      blit_outside _ _ first (Or.inr (by omega)), Nat.sub_sub]

theorem slice_blit (cells : Nat → α) (offset : Nat) (values : List α) :
    slice (blit cells offset values) offset values.length = values := by
  apply List.ext_getElem (length_slice _ _ _)
  intro index left right
  simp [slice, blit, right]

theorem slice_blit_apart (cells : Nat → α) {offset start count : Nat} (values : List α)
    (apart : start + count ≤ offset ∨ offset + values.length ≤ start) :
    slice (blit cells offset values) start count = slice cells start count := by
  apply slice_congr
  intro index lower upper
  exact blit_outside cells offset values (by omega)

end Stretches

abbrev Bytes := Nat → BitVec 8

def split : Nat → Nat → List (BitVec 8)
  | 0, _ => []
  | width + 1, value => BitVec.ofNat 8 value :: split width (value / 256)

def combine : List (BitVec 8) → Nat
  | [] => 0
  | byte :: rest => byte.toNat + 256 * combine rest

@[simp] theorem length_split (width value : Nat) : (split width value).length = width := by
  induction width generalizing value with
  | zero => rfl
  | succ width ih => rw [split, List.length_cons, ih]

theorem combine_split (width value : Nat) : combine (split width value) = value % 256 ^ width := by
  induction width generalizing value with
  | zero => rw [split, combine, Nat.pow_zero, Nat.mod_one]
  | succ width ih =>
      have low : (BitVec.ofNat 8 value).toNat = value % 256 := rfl
      rw [split, combine, ih, low, Nat.pow_succ', Nat.mod_mul]

theorem combine_lt (bytes : List (BitVec 8)) : combine bytes < 256 ^ bytes.length := by
  induction bytes with
  | nil => exact Nat.one_pos
  | cons byte rest ih =>
      rw [combine, List.length_cons, Nat.pow_succ]
      have small : byte.toNat < 256 := byte.isLt
      omega

theorem combine_zero {bytes : List (BitVec 8)} (zero : ∀ byte ∈ bytes, byte = 0) :
    combine bytes = 0 := by
  induction bytes with
  | nil => rfl
  | cons byte rest ih =>
      rw [combine, zero byte List.mem_cons_self, ih fun b member => zero b (List.mem_cons_of_mem _ member)]
      rfl

def load (width : Nat) (bytes : Bytes) (offset : Nat) : Nat := combine (slice bytes offset width)

def store (width : Nat) (bytes : Bytes) (offset value : Nat) : Bytes :=
  blit bytes offset (split width value)

theorem load_lt (width : Nat) (bytes : Bytes) (offset : Nat) : load width bytes offset < 256 ^ width := by
  simpa only [load, length_slice] using combine_lt (slice bytes offset width)

theorem load_zero (width offset : Nat) : load width (fun _ => 0) offset = 0 := by
  apply combine_zero
  intro byte member
  obtain ⟨_, _, rfl⟩ := List.mem_map.mp member
  rfl

theorem load_congr {width : Nat} {bytes other : Bytes} {offset : Nat}
    (same : ∀ index, offset ≤ index → index < offset + width → bytes index = other index) :
    load width bytes offset = load width other offset := by
  rw [load, load, slice_congr same]

theorem load_store (width : Nat) (bytes : Bytes) (offset value : Nat) :
    load width (store width bytes offset value) offset = value % 256 ^ width := by
  have same := slice_blit bytes offset (split width value)
  rw [length_split] at same
  rw [load, store, same, combine_split]

theorem store_outside (width : Nat) (bytes : Bytes) (offset value : Nat) {index : Nat}
    (outside : index < offset ∨ offset + width ≤ index) :
    store width bytes offset value index = bytes index :=
  blit_outside bytes offset _ (by simpa using outside)

theorem load_store_apart (width other : Nat) (bytes : Bytes) {offset start : Nat} (value : Nat)
    (apart : start + width ≤ offset ∨ offset + other ≤ start) :
    load width (store other bytes offset value) start = load width bytes start := by
  apply load_congr
  intro index lower upper
  exact store_outside other bytes offset value (by omega)

def storeAll (width : Nat) : Bytes → Nat → List Nat → Bytes
  | bytes, _, [] => bytes
  | bytes, offset, value :: rest =>
      storeAll width (store width bytes offset value) (offset + width) rest

def loadAll (width : Nat) (bytes : Bytes) (offset count : Nat) : List Nat :=
  (List.range count).map fun index => load width bytes (offset + width * index)

theorem storeAll_outside (width : Nat) (bytes : Bytes) (offset : Nat) (values : List Nat) {index : Nat}
    (outside : index < offset ∨ offset + width * values.length ≤ index) :
    storeAll width bytes offset values index = bytes index := by
  induction values generalizing bytes offset with
  | nil => rfl
  | cons value rest ih =>
      rw [List.length_cons, Nat.mul_succ] at outside
      rw [storeAll, ih _ _ (by omega), store_outside _ _ _ _ (by omega)]

theorem load_storeAll_apart (width other : Nat) (bytes : Bytes) {offset start : Nat}
    (values : List Nat) (apart : start + width ≤ offset ∨ offset + other * values.length ≤ start) :
    load width (storeAll other bytes offset values) start = load width bytes start := by
  apply load_congr
  intro index lower upper
  exact storeAll_outside other bytes offset values (by omega)

theorem load_storeAll (width : Nat) (bytes : Bytes) (offset : Nat) {values : List Nat} {index : Nat}
    (bound : index < values.length) :
    load width (storeAll width bytes offset values) (offset + width * index) =
      values[index] % 256 ^ width := by
  induction values generalizing bytes offset index with
  | nil => exact absurd bound (Nat.not_lt_zero _)
  | cons value rest ih =>
      cases index with
      | zero => rw [storeAll, load_storeAll_apart _ _ _ _ (by omega), Nat.mul_zero, Nat.add_zero,
          load_store, List.getElem_cons_zero]
      | succ index =>
          have position : offset + width * (index + 1) = offset + width + width * index := by
            rw [Nat.mul_succ]
            omega
          rw [storeAll, position, ih _ _ (Nat.lt_of_succ_lt_succ bound), List.getElem_cons_succ]

theorem blit_flatMap_split (width : Nat) (bytes : Bytes) (offset : Nat) (values : List Nat) :
    blit bytes offset (values.flatMap (split width)) = storeAll width bytes offset values := by
  induction values generalizing bytes offset with
  | nil =>
      funext index
      exact blit_outside bytes offset [] (by simp; omega)
  | cons value rest ih => rw [List.flatMap_cons, blit_append, length_split, ih, storeAll, store]

theorem loadAll_succ (width : Nat) (bytes : Bytes) (offset count : Nat) :
    loadAll width bytes offset (count + 1) =
      load width bytes offset :: loadAll width bytes (offset + width) count := by
  rw [loadAll, List.range_succ_eq_map, List.map_cons, List.map_map, Nat.mul_zero, Nat.add_zero]
  congr 1
  apply List.map_congr_left
  intro index _
  simp only [Function.comp_apply, Nat.succ_eq_add_one, Nat.mul_add, Nat.mul_one]
  rw [Nat.add_comm (width * index), Nat.add_assoc]

theorem loadAll_storeAll (width : Nat) (bytes : Bytes) (offset : Nat) {values : List Nat}
    (small : ∀ value ∈ values, value < 256 ^ width) :
    loadAll width (storeAll width bytes offset values) offset values.length = values := by
  induction values generalizing bytes offset with
  | nil => rfl
  | cons value rest ih =>
      have head : load width (storeAll width (store width bytes offset value) (offset + width) rest)
          offset = value := by
        rw [load_storeAll_apart _ _ _ _ (by omega), load_store,
          Nat.mod_eq_of_lt (small value List.mem_cons_self)]
      rw [List.length_cons, loadAll_succ, storeAll, head,
        ih _ _ fun v member => small v (List.mem_cons_of_mem _ member)]

end OsLabs.ByteField
