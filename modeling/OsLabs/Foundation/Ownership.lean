import OsLabs.Foundation.ByteField

/-!
A bitmap of used numbers, and the places that refer to numbers marked in it: every number in
use is reserved or has exactly one place.
-/

namespace OsLabs.Bitmap

open Function OsLabs.ByteField

def mask (index : Nat) : BitVec 8 := 1#8 <<< (index % 8)

def test (bytes : Bytes) (index : Nat) : Bool := (bytes (index / 8) &&& mask index) != 0

def set (bytes : Bytes) (index : Nat) : Bytes :=
  update bytes (index / 8) (bytes (index / 8) ||| mask index)

def clear (bytes : Bytes) (index : Nat) : Bytes :=
  update bytes (index / 8) (bytes (index / 8) &&& ~~~mask index)

theorem getLsbD_mask (index bit : Nat) :
    (mask index).getLsbD bit = (decide (bit < 8) && decide (bit = index % 8)) := by
  simp only [mask, BitVec.getLsbD_shiftLeft, BitVec.getLsbD_one]
  grind

theorem test_eq_getLsbD (bytes : Bytes) (index : Nat) :
    test bytes index = (bytes (index / 8)).getLsbD (index % 8) := by
  rw [Bool.eq_iff_iff, test, bne_iff_ne, Ne, BitVec.eq_of_getLsbD_eq_iff]
  have bound : index % 8 < 8 := Nat.mod_lt _ (by decide)
  simp only [BitVec.getLsbD_and, getLsbD_mask, BitVec.ofNat_eq_ofNat, BitVec.getLsbD_zero]
  constructor
  · intro differs
    by_contra clear
    apply differs
    intro bit _
    by_cases same : bit = index % 8
    · simp [same, Bool.eq_false_iff.mpr clear]
    · simp [same]
  · intro present all
    have zero := all _ bound
    rw [present, decide_eq_true bound, decide_eq_true rfl] at zero
    exact Bool.noConfusion zero

theorem test_set (bytes : Bytes) (index other : Nat) :
    test (set bytes index) other = if other = index then true else test bytes other := by
  have bound : other % 8 < 8 := Nat.mod_lt _ (by decide)
  rw [test_eq_getLsbD, test_eq_getLsbD, set]
  by_cases byte : other / 8 = index / 8
  · have same : other % 8 = index % 8 ↔ other = index := by omega
    rw [byte, update_self, BitVec.getLsbD_or, getLsbD_mask, decide_eq_true bound]
    simp only [same]
    split <;> simp [*]
  · have differs : other ≠ index := fun same => byte (same ▸ rfl)
    rw [update_of_ne byte, if_neg differs]

theorem test_clear (bytes : Bytes) (index other : Nat) :
    test (clear bytes index) other = if other = index then false else test bytes other := by
  have bound : other % 8 < 8 := Nat.mod_lt _ (by decide)
  rw [test_eq_getLsbD, test_eq_getLsbD, clear]
  by_cases byte : other / 8 = index / 8
  · have same : other % 8 = index % 8 ↔ other = index := by omega
    rw [byte, update_self, BitVec.getLsbD_and, BitVec.getLsbD_not, getLsbD_mask,
      decide_eq_true bound]
    simp only [same]
    split <;> simp [*]
  · have differs : other ≠ index := fun same => byte (same ▸ rfl)
    rw [update_of_ne byte, if_neg differs]

/-- The bitmap in which the first `count` bits are set, bit by bit. -/
def first (count : Nat) : Bytes := (List.range count).foldl set fun _ => 0

theorem first_succ (count : Nat) : first (count + 1) = set (first count) count := by
  rw [first, List.range_succ, List.foldl_append, List.foldl_cons, List.foldl_nil, ← first]

theorem test_first (count index : Nat) : test (first count) index = decide (index < count) := by
  induction count with
  | zero =>
      have empty : first 0 = fun _ => 0 := rfl
      rw [empty, test_eq_getLsbD]
      simp
  | succ count ih =>
      rw [first_succ, test_set, ih]
      split <;> simp <;> omega

end OsLabs.Bitmap

namespace OsLabs.Ownership

open Function

variable {π : Type*}

structure Owns (low high : Nat) (used : Nat → Bool) (ref : π → Nat) : Prop where
  inside : ∀ place, ref place ≠ 0 → low ≤ ref place ∧ ref place < high
  single : ∀ place other, ref place ≠ 0 → ref place = ref other → place = other
  marked : ∀ number < high, used number = true ↔ number < low ∨ ∃ place, ref place = number

namespace Owns

variable {low high number : Nat} {used : Nat → Bool} {ref : π → Nat} {place : π}

theorem unreferenced (owns : Owns low high used ref) (bound : number < high)
    (free : used number = false) : low ≤ number ∧ ∀ place, ref place ≠ number := by
  have unmarked : ¬(number < low ∨ ∃ place, ref place = number) := by
    rw [← owns.marked number bound, free]
    exact Bool.false_ne_true
  rw [not_or, not_lt, not_exists] at unmarked
  exact unmarked

theorem used_of_ref (owns : Owns low high used ref) (held : ref place ≠ 0) :
    used (ref place) = true :=
  (owns.marked _ (owns.inside place held).2).mpr (Or.inr ⟨place, rfl⟩)

theorem congr {later : Nat → Bool} {next : π → Nat} (owns : Owns low high used ref)
    (bits : ∀ number < high, later number = used number) (refs : ∀ place, next place = ref place) :
    Owns low high later next := by
  have same : next = ref := funext refs
  subst same
  refine ⟨owns.inside, owns.single, ?_⟩
  intro number bound
  rw [bits number bound]
  exact owns.marked number bound

variable [DecidableEq π]

theorem exists_update_iff {after : Nat} (left : ref place ≠ number) (right : after ≠ number) :
    (∃ spot, ref spot = number) ↔ ∃ spot, update ref place after spot = number := by
  constructor
  · rintro ⟨spot, refers⟩
    have differs : spot ≠ place := fun same => left (same ▸ refers)
    exact ⟨spot, (update_of_ne differs _ _).trans refers⟩
  · rintro ⟨spot, refers⟩
    have differs : spot ≠ place := by
      intro same
      rw [same, update_self] at refers
      exact right refers
    exact ⟨spot, (update_of_ne differs _ _).symm.trans refers⟩

theorem take (owns : Owns low high used ref) (positive : 0 < low) (bound : number < high)
    (free : used number = false) (empty : ref place = 0) :
    Owns low high (update used number true) (update ref place number) := by
  obtain ⟨lower, absent⟩ := owns.unreferenced bound free
  refine ⟨?_, ?_, ?_⟩
  · intro spot held
    by_cases here : spot = place
    · rw [here, update_self]
      exact ⟨lower, bound⟩
    · rw [update_of_ne here] at held ⊢
      exact owns.inside spot held
  · intro spot other held same
    by_cases here : spot = place <;> by_cases there : other = place
    · rw [here, there]
    · subst here
      rw [update_self, update_of_ne there] at same
      exact absurd same.symm (absent other)
    · subst there
      rw [update_self, update_of_ne here] at same
      exact absurd same (absent spot)
    · rw [update_of_ne here] at held
      rw [update_of_ne here, update_of_ne there] at same
      exact owns.single spot other held same
  · intro block below
    rcases Nat.lt_or_ge block low with reserved | data
    · have differs : block ≠ number := by omega
      rw [update_of_ne differs, owns.marked block below]
      exact ⟨fun _ => Or.inl reserved, fun _ => Or.inl reserved⟩
    · by_cases same : block = number
      · subst same
        rw [update_self]
        exact ⟨fun _ => Or.inr ⟨place, update_self _ _ _⟩, fun _ => rfl⟩
      · rw [update_of_ne same, owns.marked block below]
        apply or_congr_right
        exact exists_update_iff (by omega) (Ne.symm same)

theorem drop (owns : Owns low high used ref) (positive : 0 < low) (held : ref place ≠ 0) :
    Owns low high (update used (ref place) false) (update ref place 0) := by
  obtain ⟨lower, upper⟩ := owns.inside place held
  refine ⟨?_, ?_, ?_⟩
  · intro spot taken
    by_cases here : spot = place
    · rw [here, update_self] at taken
      exact absurd rfl taken
    · rw [update_of_ne here] at taken ⊢
      exact owns.inside spot taken
  · intro spot other taken same
    by_cases here : spot = place
    · rw [here, update_self] at taken
      exact absurd rfl taken
    rw [update_of_ne here] at taken same
    by_cases there : other = place
    · rw [there, update_self] at same
      exact absurd same taken
    · rw [update_of_ne there] at same
      exact owns.single spot other taken same
  · intro block below
    by_cases same : block = ref place
    · rw [same, update_self]
      refine ⟨fun impossible => absurd impossible Bool.false_ne_true, ?_⟩
      rintro (reserved | ⟨spot, refers⟩)
      · exact absurd reserved (Nat.not_lt.mpr lower)
      · by_cases here : spot = place
        · rw [here, update_self] at refers
          exact absurd refers.symm held
        · rw [update_of_ne here] at refers
          exact absurd (owns.single place spot held refers.symm).symm here
    · rw [update_of_ne same, owns.marked block below]
      rcases Nat.lt_or_ge block low with reserved | data
      · exact ⟨fun _ => Or.inl reserved, fun _ => Or.inl reserved⟩
      · apply or_congr_right
        exact exists_update_iff (Ne.symm same) (by omega)

end Owns

end OsLabs.Ownership
