import Mathlib.Data.BitVec
import Mathlib.Logic.Function.Basic
import Mathlib.Order.Interval.Set.Defs
import Mathlib.Tactic.Common

/-!
Byte memory with 32-bit addresses and little-endian words. Regions are intervals of
natural numbers, so that addresses inside them can be compared by linear arithmetic.
-/

namespace OsLabs.WordMemory

open Function

abbrev Word := BitVec 32

abbrev Byte := BitVec 8

abbrev Memory := Word → Byte

def read32 (memory : Memory) (address : Word) : Word :=
  memory (address + 3) ++ memory (address + 2) ++ memory (address + 1) ++ memory address

def write32 (memory : Memory) (address value : Word) : Memory :=
  update (update (update (update memory
    address (value.extractLsb' 0 8))
    (address + 1) (value.extractLsb' 8 8))
    (address + 2) (value.extractLsb' 16 8))
    (address + 3) (value.extractLsb' 24 8)

structure Region where
  low : Nat
  high : Nat
deriving DecidableEq, Repr

def Region.Holds (region : Region) (address : Word) : Prop :=
  region.low ≤ address.toNat ∧ address.toNat < region.high

instance (region : Region) (address : Word) : Decidable (region.Holds address) :=
  inferInstanceAs (Decidable (_ ∧ _))

def Region.Apart (first second : Region) : Prop :=
  first.high ≤ second.low ∨ second.high ≤ first.low

def span (address : Word) (length : Nat) : Region := ⟨address.toNat, address.toNat + length⟩

def Region.Within (inner outer : Region) : Prop :=
  outer.low ≤ inner.low ∧ inner.high ≤ outer.high

theorem Region.Apart.symm {first second : Region} (apart : first.Apart second) :
    second.Apart first := Or.symm apart

theorem Region.Apart.mono_left {small large other : Region} (apart : large.Apart other)
    (within : small.Within large) : small.Apart other := by
  simp only [Region.Apart, Region.Within] at *
  omega

theorem Region.Apart.mono_right {small large other : Region} (apart : other.Apart large)
    (within : small.Within large) : other.Apart small :=
  (apart.symm.mono_left within).symm

def Agree (region : Region) (before after : Memory) : Prop :=
  ∀ address, region.Holds address → after address = before address

def ChangedIn (region : Region) (before after : Memory) : Prop :=
  ∀ address, ¬region.Holds address → after address = before address

theorem ChangedIn.refl (region : Region) (memory : Memory) : ChangedIn region memory memory :=
  fun _ _ => rfl

theorem ChangedIn.agree {changed kept : Region} {before after : Memory}
    (change : ChangedIn changed before after) (apart : changed.Apart kept) :
    Agree kept before after := by
  intro address inside
  apply change
  intro hit
  simp only [Region.Apart, Region.Holds] at apart inside hit
  omega

theorem ChangedIn.mono {small large : Region} {before after : Memory}
    (change : ChangedIn small before after) (within : small.Within large) :
    ChangedIn large before after := by
  intro address outside
  apply change
  intro hit
  simp only [Region.Within, Region.Holds] at within outside hit
  omega

theorem ChangedIn.trans {region : Region} {first second third : Memory}
    (start : ChangedIn region first second) (rest : ChangedIn region second third) :
    ChangedIn region first third := by
  intro address outside
  rw [rest address outside, start address outside]

theorem Agree.trans {region : Region} {first second third : Memory}
    (start : Agree region first second) (rest : Agree region second third) :
    Agree region first third := by
  intro address inside
  rw [rest address inside, start address inside]

theorem Agree.mono {small large : Region} {before after : Memory} (agree : Agree large before after)
    (within : small.Within large) : Agree small before after := by
  intro address inside
  apply agree
  simp only [Region.Within, Region.Holds] at within inside ⊢
  omega

theorem extract_bytes (value : Word) :
    value.extractLsb' 24 8 ++ value.extractLsb' 16 8 ++ value.extractLsb' 8 8 ++
      value.extractLsb' 0 8 = value := by
  ext index bound
  simp only [BitVec.getElem_append, BitVec.getElem_extractLsb']
  rw [← BitVec.getLsbD_eq_getElem bound]
  split_ifs <;> congr 1 <;> omega

theorem read32_write32 (memory : Memory) (address value : Word) :
    read32 (write32 memory address value) address = value := by
  simp [read32, write32, extract_bytes]

theorem write32_changedIn (memory : Memory) (address value : Word)
    (fits : address.toNat + 4 < 2 ^ 32) :
    ChangedIn (span address 4) memory (write32 memory address value) := by
  intro other outside
  simp only [span, Region.Holds] at outside
  have apart : ∀ offset : Word, offset.toNat < 4 → other ≠ address + offset := by
    intro offset small same
    have sum := BitVec.toNat_add_of_lt (x := address) (y := offset) (by omega)
    rw [same] at outside
    omega
  have first : other ≠ address := by simpa using apart 0 (by decide)
  rw [write32, update_of_ne (apart 3 (by decide)), update_of_ne (apart 2 (by decide)),
    update_of_ne (apart 1 (by decide)), update_of_ne first]

theorem Agree.read32_eq {before after : Memory} {address : Word}
    (agree : Agree (span address 4) before after) (fits : address.toNat + 4 < 2 ^ 32) :
    read32 after address = read32 before address := by
  have inside : ∀ offset : Word, offset.toNat < 4 → (span address 4).Holds (address + offset) := by
    intro offset small
    have sum := BitVec.toNat_add_of_lt (x := address) (y := offset) (by omega)
    simp only [span, Region.Holds]
    omega
  have first : (span address 4).Holds address := by simpa using inside 0 (by decide)
  rw [read32, read32, agree _ (inside 3 (by decide)), agree _ (inside 2 (by decide)),
    agree _ (inside 1 (by decide)), agree _ first]

def writeBytes (memory : Memory) (writes : List (Word × Byte)) : Memory :=
  writes.foldl (fun current write => update current write.1 write.2) memory

theorem writeBytes_changedIn (memory : Memory) (writes : List (Word × Byte)) (region : Region)
    (inside : ∀ write ∈ writes, region.Holds write.1) :
    ChangedIn region memory (writeBytes memory writes) := by
  induction writes generalizing memory with
  | nil => exact ChangedIn.refl region memory
  | cons write rest ih =>
      intro address outside
      have tail := ih (update memory write.1 write.2)
        (fun other member => inside other (List.mem_cons_of_mem _ member)) address outside
      have differ : address ≠ write.1 := by
        intro same
        exact outside (same ▸ inside write List.mem_cons_self)
      rw [update_of_ne differ] at tail
      exact tail

theorem writeBytes_agree (memory : Memory) (writes : List (Word × Byte)) (region : Region)
    (outside : ∀ write ∈ writes, ¬region.Holds write.1) : Agree region memory (writeBytes memory writes) := by
  induction writes generalizing memory with
  | nil => exact fun _ _ => rfl
  | cons write rest ih =>
      intro address inside
      have tail := ih (update memory write.1 write.2)
        (fun other member => outside other (List.mem_cons_of_mem _ member)) address inside
      have differ : address ≠ write.1 := by
        intro same
        exact outside write List.mem_cons_self (same ▸ inside)
      rw [update_of_ne differ] at tail
      exact tail

def storeWords (memory : Memory) (address : Word) : List Word → Memory
  | [] => memory
  | value :: rest => write32 (storeWords memory (address + 4) rest) address value

theorem toNat_add_four (address : Word) (fits : address.toNat + 4 < 2 ^ 32) :
    (address + 4).toNat = address.toNat + 4 :=
  BitVec.toNat_add_of_lt (y := 4) fits

theorem add_words (address : Word) (count : Nat) :
    address + BitVec.ofNat 32 (4 * (count + 1)) = address + 4 + BitVec.ofNat 32 (4 * count) := by
  rw [BitVec.add_assoc, Nat.mul_succ, Nat.add_comm, BitVec.ofNat_add]
  rfl

theorem storeWords_changedIn (memory : Memory) (address : Word) (values : List Word)
    (fits : address.toNat + 4 * values.length < 2 ^ 32) :
    ChangedIn (span address (4 * values.length)) memory (storeWords memory address values) := by
  induction values generalizing address with
  | nil => exact ChangedIn.refl _ memory
  | cons value rest ih =>
      simp only [List.length_cons] at fits
      have next := toNat_add_four address (by omega)
      intro other outside
      simp only [span, Region.Holds, List.length_cons] at outside
      rw [storeWords, write32_changedIn _ address value (by omega) other, ih (address + 4) (by omega)]
      · simp only [span, Region.Holds]
        omega
      · simp only [span, Region.Holds]
        omega

theorem read32_storeWords (memory : Memory) (address value : Word) (values : List Word) (index : Nat)
    (fits : address.toNat + 4 * values.length < 2 ^ 32) (found : values[index]? = some value) :
    read32 (storeWords memory address values) (address + BitVec.ofNat 32 (4 * index)) = value := by
  induction values generalizing address index with
  | nil => simp at found
  | cons first rest ih =>
      simp only [List.length_cons] at fits
      have next := toNat_add_four address (by omega)
      cases index with
      | zero =>
          simp only [List.getElem?_cons_zero, Option.some.injEq] at found
          simpa [storeWords, found] using read32_write32 _ address value
      | succ index =>
          simp only [List.getElem?_cons_succ] at found
          have bound : index < rest.length := (List.getElem?_eq_some_iff.mp found).1
          have target : (address + BitVec.ofNat 32 (4 * (index + 1))).toNat =
              address.toNat + 4 * (index + 1) := by
            rw [BitVec.toNat_add_of_lt] <;> rw [BitVec.toNat_ofNat] <;> omega
          rw [storeWords, ((write32_changedIn _ address first (by omega)).agree ?_).read32_eq (by omega),
            add_words, ih (address + 4) index (by omega) found]
          simp only [span, Region.Apart]
          omega

theorem storeWords_append (memory : Memory) (address : Word) (low high : List Word) :
    storeWords memory address (low ++ high) =
      storeWords (storeWords memory (address + BitVec.ofNat 32 (4 * low.length)) high) address low := by
  induction low generalizing address with
  | nil => simp [storeWords]
  | cons value rest ih =>
      rw [List.cons_append, storeWords, ih, storeWords, List.length_cons, add_words]

end OsLabs.WordMemory
