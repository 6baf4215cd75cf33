import Mathlib.Algebra.BigOperators.Group.Finset.Piecewise
import Mathlib.Algebra.Order.BigOperators.Group.Finset
import Mathlib.Tactic.Common
import OsLabs.Foundation.Runs

/-!
Processes that share memory, one step of one process at a time. A quantity of the
shared memory that every step pays for with the place of the process that takes it
is conserved, and a lock is held exactly by the process inside its section.
-/

namespace OsLabs.Interleaving

open Function

variable {σ ι κ : Type*}

structure System (σ ι κ : Type*) where
  shared : σ
  place : ι → κ

section Tally

variable [Fintype ι]

def tally (weight : κ → Int) (place : ι → κ) : Int := ∑ i, weight (place i)

theorem tally_eq_zero {weight : κ → Int} {place : ι → κ} (none : ∀ i, weight (place i) = 0) :
    tally weight place = 0 :=
  Finset.sum_eq_zero fun i _ => none i

theorem tally_nonneg {weight : κ → Int} (nonneg : ∀ k, 0 ≤ weight k) (place : ι → κ) :
    0 ≤ tally weight place :=
  Finset.sum_nonneg fun i _ => nonneg (place i)

theorem le_tally {weight : κ → Int} (nonneg : ∀ k, 0 ≤ weight k) (place : ι → κ) (i : ι) :
    weight (place i) ≤ tally weight place :=
  Finset.single_le_sum (fun j _ => nonneg (place j)) (Finset.mem_univ i)

theorem tally_eq_single {weight : κ → Int} {place : ι → κ} (i : ι)
    (others : ∀ j, j ≠ i → weight (place j) = 0) : tally weight place = weight (place i) :=
  Finset.sum_eq_single i (fun j _ different => others j different)
    (fun absent => absurd (Finset.mem_univ i) absent)

end Tally

variable [DecidableEq ι]

theorem tally_update [Fintype ι] (weight : κ → Int) (place : ι → κ) (i : ι) (moved : κ) :
    tally weight (update place i moved) =
      tally weight place - weight (place i) + weight moved := by
  have comp : (fun j => weight (update place i moved j)) =
      update (fun j => weight (place j)) i (weight moved) := by
    funext j
    exact Function.apply_update (fun _ => weight) place i moved j
  have whole := Finset.sum_erase_add Finset.univ (fun j => weight (place j)) (Finset.mem_univ i)
  rw [tally, comp, Finset.sum_update_of_mem (Finset.mem_univ i), Finset.sdiff_singleton_eq_erase,
    tally]
  omega

def act (program : ι → σ → κ → Option (σ × κ)) (s : System σ ι κ) (i : ι) :
    Option (System σ ι κ) :=
  (program i s.shared (s.place i)).map fun next => ⟨next.1, update s.place i next.2⟩

theorem act_eq_some {program : ι → σ → κ → Option (σ × κ)} {s next : System σ ι κ} {i : ι} :
    act program s i = some next ↔ ∃ shared place,
      program i s.shared (s.place i) = some (shared, place) ∧
        next = ⟨shared, update s.place i place⟩ := by
  rw [act, Option.map_eq_some_iff]
  constructor
  · rintro ⟨⟨shared, place⟩, moved, same⟩
    exact ⟨shared, place, moved, same.symm⟩
  · rintro ⟨shared, place, moved, same⟩
    exact ⟨(shared, place), moved, same.symm⟩

theorem run_places {program : ι → σ → κ → Option (σ × κ)} (property : κ → Prop)
    {start final : System σ ι κ} {schedule : List ι} (initial : ∀ i, property (start.place i))
    (preserved : ∀ history state i shared place,
      Runs.run (act program) start history = some state →
      program i state.shared (state.place i) = some (shared, place) →
      property (state.place i) → property place)
    (reached : Runs.run (act program) start schedule = some final) (i : ι) :
    property (final.place i) := by
  revert i
  refine Runs.run_invariant_reached (fun _ s => ∀ i, property (s.place i)) initial ?_ schedule final
    Runs.along_true reached
  intro history state mover next before holds _ stepped i
  obtain ⟨shared, place, moved, same⟩ := act_eq_some.mp stepped
  subst same
  by_cases self : i = mover
  · subst i
    simp only [update_self]
    exact preserved history state mover shared place before moved (holds mover)
  · simp only [update_of_ne self]
    exact holds i

section Conservation

variable [Fintype ι]

def Balanced (program : ι → σ → κ → Option (σ × κ)) (value : σ → Int) (weight : κ → Int) : Prop :=
  ∀ i shared place shared' place', program i shared place = some (shared', place') →
    value shared' - weight place' = value shared - weight place

theorem act_conserved {program : ι → σ → κ → Option (σ × κ)} {value : σ → Int} {weight : κ → Int}
    (balanced : Balanced program value weight) {s next : System σ ι κ} {i : ι}
    (stepped : act program s i = some next) :
    value next.shared - tally weight next.place = value s.shared - tally weight s.place := by
  obtain ⟨shared, place, moved, same⟩ := act_eq_some.mp stepped
  have change := balanced i _ _ _ _ moved
  subst same
  simp only [tally_update]
  omega

theorem run_conserved {program : ι → σ → κ → Option (σ × κ)} {value : σ → Int} {weight : κ → Int}
    (balanced : Balanced program value weight) {start final : System σ ι κ} {schedule : List ι}
    (reached : Runs.run (act program) start schedule = some final) :
    value final.shared - tally weight final.place = value start.shared - tally weight start.place := by
  refine Runs.run_invariant (fun _ s => value s.shared - tally weight s.place =
    value start.shared - tally weight start.place) rfl ?_ schedule final reached
  intro _ state i next holds stepped
  rw [act_conserved balanced stepped, holds]

end Conservation

section Exclusion

structure Guards (program : ι → σ → κ → Option (σ × κ)) (critical : κ → Bool)
    (holder : σ → Option ι) : Prop where
  enter : ∀ {i shared place shared' place'}, program i shared place = some (shared', place') →
    critical place = false → critical place' = true → holder shared = none ∧ holder shared' = some i
  leave : ∀ {i shared place shared' place'}, program i shared place = some (shared', place') →
    critical place = true → critical place' = false → holder shared' = none
  keep : ∀ {i shared place shared' place'}, program i shared place = some (shared', place') →
    critical place' = critical place → holder shared' = holder shared

def Exclusive (critical : κ → Bool) (holder : σ → Option ι) (s : System σ ι κ) : Prop :=
  ∀ i, critical (s.place i) = true ↔ holder s.shared = some i

theorem act_exclusive {program : ι → σ → κ → Option (σ × κ)} {critical : κ → Bool}
    {holder : σ → Option ι} (guards : Guards program critical holder) {s next : System σ ι κ} {i : ι}
    (exclusive : Exclusive critical holder s) (stepped : act program s i = some next) :
    Exclusive critical holder next := by
  obtain ⟨shared, place, moved, same⟩ := act_eq_some.mp stepped
  subst same
  intro j
  simp only
  have here := exclusive i
  have there := exclusive j
  by_cases self : j = i
  · subst j
    rw [update_self]
    cases before : critical (s.place i) <;> cases after : critical place
    · rw [guards.keep moved (after.trans before.symm), ← here, before]
    · simp [(guards.enter moved before after).2]
    · simp [guards.leave moved before after]
    · rw [guards.keep moved (after.trans before.symm), ← here, before]
  · rw [update_of_ne self, there]
    cases before : critical (s.place i) <;> cases after : critical place
    · rw [guards.keep moved (after.trans before.symm)]
    · obtain ⟨unlocked, locked⟩ := guards.enter moved before after
      simp [unlocked, locked, Ne.symm self]
    · simp [guards.leave moved before after, here.mp before, Ne.symm self]
    · rw [guards.keep moved (after.trans before.symm)]

theorem run_exclusive {program : ι → σ → κ → Option (σ × κ)} {critical : κ → Bool}
    {holder : σ → Option ι} (guards : Guards program critical holder) {start final : System σ ι κ}
    {schedule : List ι} (initial : Exclusive critical holder start)
    (reached : Runs.run (act program) start schedule = some final) :
    Exclusive critical holder final := by
  refine Runs.run_invariant (fun _ s => Exclusive critical holder s) initial ?_ schedule final reached
  intro _ state i next holds stepped
  exact act_exclusive guards holds stepped

end Exclusion

end OsLabs.Interleaving
