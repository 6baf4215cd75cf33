import Mathlib.Algebra.BigOperators.Group.Finset.Basic
import Mathlib.Algebra.BigOperators.Group.Finset.Piecewise
import Mathlib.Algebra.Order.BigOperators.Group.Finset
import Mathlib.Algebra.Order.Group.Multiset
import Mathlib.Tactic.Common

/-!
Things that are held at places, at most one at a place, as a multiset. A change at one place changes the
multiset by what was and what is there.
-/

namespace OsLabs.Holdings

variable {ι α : Type*}

section Change

variable [DecidableEq ι] {M : Type*} [AddCommMonoid M] {places : Finset ι} {f g : ι → M} {j : ι}

theorem sum_change (member : j ∈ places) (same : ∀ i ∈ places, i ≠ j → g i = f i) :
    ∑ i ∈ places, g i + f j = ∑ i ∈ places, f i + g j := by
  have others : ∑ i ∈ places.erase j, g i = ∑ i ∈ places.erase j, f i :=
    Finset.sum_congr rfl fun i found => same i (Finset.mem_of_mem_erase found) (Finset.ne_of_mem_erase found)
  rw [← Finset.add_sum_erase places g member, ← Finset.add_sum_erase places f member, others,
    add_comm (g j), add_assoc, add_comm (g j), ← add_assoc, add_comm (f j)]

end Change

def held : Option α → Multiset α
  | none => 0
  | some a => {a}

@[simp] theorem held_none : held (none : Option α) = 0 := rfl

@[simp] theorem held_some (a : α) : held (some a) = {a} := rfl

@[simp] theorem mem_held {o : Option α} {a : α} : a ∈ held o ↔ o = some a := by
  cases o <;> simp [eq_comm]

@[irreducible] def holding (places : Finset ι) (what : ι → Option α) : Multiset α := ∑ i ∈ places, held (what i)

variable {places : Finset ι} {what what' : ι → Option α} {i j : ι} {a : α}

theorem mem_holding : a ∈ holding places what ↔ ∃ i ∈ places, what i = some a := by
  simp [holding, Multiset.mem_sum]

theorem holding_congr (same : ∀ i ∈ places, what' i = what i) : holding places what' = holding places what := by
  rw [holding, holding]
  exact Finset.sum_congr rfl fun i found => by rw [same i found]

theorem holding_none (none : ∀ i ∈ places, what i = none) : holding places what = 0 := by
  rw [holding]
  exact Finset.sum_eq_zero fun i found => by rw [none i found, held_none]

theorem card_held_le (o : Option α) : (held o).card ≤ 1 := by
  cases o <;> simp

theorem card_holding_le [DecidableEq ι] {used : Finset ι} (unused : ∀ i ∈ places, i ∉ used → what i = none) :
    (holding places what).card ≤ used.card := by
  rw [holding, Multiset.card_sum]
  calc ∑ i ∈ places, (held (what i)).card
      ≤ ∑ i ∈ places, if i ∈ used then 1 else 0 := by
        refine Finset.sum_le_sum fun i found => ?_
        by_cases inside : i ∈ used
        · rw [if_pos inside]
          exact card_held_le _
        · rw [unused i found inside, if_neg inside]
          exact le_rfl
    _ = (places.filter (· ∈ used)).card := (Finset.card_filter _ _).symm
    _ ≤ used.card := Finset.card_le_card fun i found => (Finset.mem_filter.mp found).2

theorem holding_change [DecidableEq ι] (member : j ∈ places) (same : ∀ i ∈ places, i ≠ j → what' i = what i) :
    holding places what' + held (what j) = holding places what + held (what' j) := by
  rw [holding, holding]
  exact sum_change (f := fun i => held (what i)) (g := fun i => held (what' i)) member
      fun i found differ => congrArg held (same i found differ)

theorem holding_put [DecidableEq ι] (member : j ∈ places) (same : ∀ i ∈ places, i ≠ j → what' i = what i)
    (before : what j = none) (after : what' j = some a) : holding places what' = a ::ₘ holding places what := by
  have change := holding_change member same
  rw [before, after, held_none, held_some, add_zero] at change
  rw [change, add_comm, Multiset.singleton_add]

theorem holding_inj [DecidableEq ι] (nodup : (holding places what).Nodup) (first : i ∈ places) (second : j ∈ places)
    (here : what i = some a) (there : what j = some a) : i = j := by
  by_contra differ
  have rest : a ∈ ∑ l ∈ places.erase i, held (what l) := by
    rw [Multiset.mem_sum]
    exact ⟨j, Finset.mem_erase.mpr ⟨Ne.symm differ, second⟩, by rw [mem_held, there]⟩
  have split : holding places what = a ::ₘ ∑ l ∈ places.erase i, held (what l) := by
    rw [holding, ← Finset.add_sum_erase places _ first, here, held_some, Multiset.singleton_add]
  rw [split, Multiset.nodup_cons] at nodup
  exact nodup.1 rest

end OsLabs.Holdings
