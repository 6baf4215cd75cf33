import Mathlib.Data.Finset.Insert
import Mathlib.Logic.Equiv.Basic
import Mathlib.Tactic.Common

/-!
Slot stores: an indexed family of slots, some of them empty, that together hold
a finite set of items. The items may move between slots in any way that only
permutes the slots, and a new item may be put in an empty slot.
-/

namespace OsLabs.SlotStore

open Function

variable {ι α : Type*}

structure Stores (empty : α) (slots : ι → α) (stored : Finset α) : Prop where
  absent : empty ∉ stored
  sound : ∀ index, slots index ≠ empty → slots index ∈ stored
  unique : ∀ item ∈ stored, ∃! index, slots index = item

theorem stores_nothing (empty : α) : Stores empty (fun _ : ι => empty) ∅ := by
  constructor
  · simp
  · intro index occupied
    exact absurd rfl occupied
  · simp

theorem Stores.injective_on {empty : α} {slots : ι → α} {stored : Finset α}
    (holds : Stores empty slots stored) {first second : ι} (occupied : slots first ≠ empty)
    (same : slots first = slots second) : first = second := by
  obtain ⟨owner, _, only⟩ := holds.unique (slots first) (holds.sound first occupied)
  exact (only first rfl).trans (only second same.symm).symm

theorem Stores.comp_equiv {empty : α} {slots : ι → α} {stored : Finset α}
    (holds : Stores empty slots stored) (permutation : ι ≃ ι) :
    Stores empty (slots ∘ permutation) stored := by
  refine ⟨holds.absent, fun index => holds.sound (permutation index), ?_⟩
  intro item member
  obtain ⟨owner, found, only⟩ := holds.unique item member
  refine ⟨permutation.symm owner, by simpa using found, ?_⟩
  intro other otherFound
  rw [Equiv.eq_symm_apply]
  exact only (permutation other) otherFound

section Updates

variable [DecidableEq ι]

theorem Stores.put [DecidableEq α] {empty : α} {slots : ι → α} {stored : Finset α}
    (holds : Stores empty slots stored) (free : ι) {item : α} (isFree : slots free = empty)
    (fresh : item ∉ stored) (real : item ≠ empty) :
    Stores empty (update slots free item) (insert item stored) := by
  constructor
  · simp [holds.absent, Ne.symm real]
  · intro index occupied
    by_cases same : index = free
    · simp [same]
    · rw [update_of_ne same] at occupied ⊢
      exact Finset.mem_insert_of_mem (holds.sound index occupied)
  · intro other member
    by_cases same : other = item
    · subst other
      refine ⟨free, by simp, ?_⟩
      intro index found
      by_contra different
      rw [update_of_ne different] at found
      exact fresh (found ▸ holds.sound index (by rwa [found]))
    · have old : other ∈ stored := (Finset.mem_insert.mp member).resolve_left same
      obtain ⟨owner, found, only⟩ := holds.unique other old
      have apart : owner ≠ free := by
        intro eq
        rw [eq, isFree] at found
        exact holds.absent (found ▸ old)
      refine ⟨owner, by simp [apart, found], ?_⟩
      intro index indexFound
      by_cases here : index = free
      · subst index
        rw [update_self] at indexFound
        exact absurd indexFound.symm same
      · exact only index (by rwa [update_of_ne here] at indexFound)

theorem Stores.displace [DecidableEq α] {empty : α} {slots : ι → α} {stored : Finset α}
    (holds : Stores empty slots stored) (target spare : ι) {item : α}
    (isFree : slots spare = empty) (fresh : item ∉ stored) (real : item ≠ empty) :
    Stores empty (update (update slots spare (slots target)) target item)
      (insert item stored) := by
  have vacated : (slots ∘ Equiv.swap target spare) target = empty := by simpa using isFree
  have moved := (holds.comp_equiv (Equiv.swap target spare)).put target vacated fresh real
  rwa [Equiv.comp_swap_eq_update, update_idem] at moved

theorem Stores.exchange {empty : α} {slots : ι → α} {stored : Finset α}
    (holds : Stores empty slots stored) (target spare : ι) :
    Stores empty (update (update slots spare (slots target)) target (slots spare))
      stored := by
  rw [← Equiv.comp_swap_eq_update]
  exact holds.comp_equiv (Equiv.swap target spare)

end Updates

end OsLabs.SlotStore
