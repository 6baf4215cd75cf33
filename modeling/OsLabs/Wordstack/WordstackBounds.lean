import Mathlib.Algebra.BigOperators.Ring.Finset
import OsLabs.Wordstack.WordstackSteps

/-!
Counters and rows stay in bounds, whatever the interleaving.
-/

namespace OsLabs.Wordstack

open OsLabs.Interleaving

variable {ι : Type*} {s : State ι}

def Pc.pushed : Pc → Bool
  | .pushPost | .pushDone => true
  | _ => false

def Pc.popped : Pc → Bool
  | .popPost _ | .popDone _ => true
  | _ => false

def Pc.reading : Pc → Option (Int × Int)
  | .popWait read wordIndex | .popLock read wordIndex | .popCopy read wordIndex =>
      some (read, wordIndex)
  | _ => none

theorem wordIndexOf_bounds {free : Int} (lower : 0 ≤ free) (upper : free ≤ maxItems) :
    0 ≤ wordIndexOf free ∧ wordIndexOf free < maxItems := by
  rw [wordIndexOf]
  split
  · exact ⟨Int.le_refl 0, by decide⟩
  · omega

theorem Guarded.noncritical (guarded : Guarded s) (unlocked : s.shared.mutex = none) (i : ι) :
    (s.place i).critical = false := by
  have here := guarded i
  rw [unlocked] at here
  simpa using here

theorem itemsLead_noncritical {pc : Pc} (outside : pc.critical = false) : pc.itemsLead = 0 := by
  cases pc <;> simp_all [Pc.critical, Pc.itemsLead]

theorem freeShare_noncritical {pc : Pc} (outside : pc.critical = false) :
    pc.freeShare = (if pc.pushed then 1 else 0) - (if pc.popped then 1 else 0) := by
  cases pc <;> simp_all [Pc.critical, Pc.freeShare, Pc.pushed, Pc.popped]

variable [Fintype ι]

def pushesCompleted (s : State ι) : Nat := (Finset.univ.filter fun i => (s.place i).pushed).card

def popsCompleted (s : State ι) : Nat := (Finset.univ.filter fun i => (s.place i).popped).card

theorem Counted.free_bounds (counted : Counted s) : 0 ≤ s.shared.free ∧ s.shared.free ≤ maxItems := by
  have full := counted.full
  have empty := counted.empty
  have fullDebt := tally_nonneg fullDebt_nonneg s.place
  have emptyDebt := tally_nonneg emptyDebt_nonneg s.place
  omega

theorem Counted.free_lt (counted : Counted s) {i : ι} (owes : (s.place i).emptyDebt = 1) :
    s.shared.free < maxItems := by
  have empty := counted.empty
  have debt := le_tally emptyDebt_nonneg s.place i
  omega

theorem Counted.free_pos (counted : Counted s) {i : ι} (owes : (s.place i).fullDebt = 1) :
    0 < s.shared.free := by
  have full := counted.full
  have debt := le_tally fullDebt_nonneg s.place i
  omega

theorem tally_freeShare (outside : ∀ i, (s.place i).critical = false) :
    tally Pc.freeShare s.place = pushesCompleted s - popsCompleted s := by
  simp only [tally, fun i => freeShare_noncritical (outside i), Finset.sum_sub_distrib,
    Finset.sum_boole, pushesCompleted, popsCompleted]

variable [DecidableEq ι] {commands : ι → Command} {schedule : List ι}

theorem run_reading (reached : Runs.run step (initial commands) schedule = some s) (i : ι)
    {read wordIndex : Int} (carries : (s.place i).reading = some (read, wordIndex)) :
    0 ≤ read ∧ read ≤ maxItems ∧ wordIndex = wordIndexOf read := by
  refine run_places (fun pc => ∀ read wordIndex : Int, pc.reading = some (read, wordIndex) →
    0 ≤ read ∧ read ≤ maxItems ∧ wordIndex = wordIndexOf read) ?_ ?_ reached i read wordIndex carries
  · intro i read wordIndex carries
    cases command : commands i <;>
      simp [initial, Command.start, Pc.reading, command] at carries
  · intro history state mover shared pc before moved kept read wordIndex carries
    have bounds := (run_counted before).free_bounds
    cases pcEq : state.place mover <;> rw [pcEq] at moved kept <;> cases program_moves moved <;>
      simp only [Pc.reading, Option.some.injEq, Prod.mk.injEq, reduceCtorEq] at carries
    case popRead.popRead =>
      rw [← carries.1, ← carries.2]
      exact ⟨bounds.1, bounds.2, rfl⟩
    all_goals exact kept read wordIndex (by rw [← carries.1, ← carries.2]; rfl)

/-- Whenever the mutex is free the two counters agree, are within the array and count the
critical sections completed; and every row written or read is a row of the array. -/
theorem counters_in_bounds (commands : ι → Command) (schedule : List ι) (s : State ι)
    (reached : Runs.run step (initial commands) schedule = some s) :
    (s.shared.mutex = none →
      s.shared.items = s.shared.free ∧ 0 ≤ s.shared.free ∧ s.shared.free ≤ maxItems ∧
        s.shared.free = pushesCompleted s - popsCompleted s) ∧
    (∀ i palabra, s.place i = .pushCopy palabra → 0 ≤ s.shared.free ∧ s.shared.free < maxItems) ∧
    ∀ i read wordIndex, s.place i = .popCopy read wordIndex →
      0 ≤ wordIndex ∧ wordIndex < maxItems := by
  have counted := run_counted reached
  have bounds := counted.free_bounds
  refine ⟨?_, ?_, ?_⟩
  · intro unlocked
    have outside := (run_guarded reached).noncritical unlocked
    have lead := tally_eq_zero fun i => itemsLead_noncritical (outside i)
    have items := counted.items
    exact ⟨by omega, bounds.1, bounds.2, counted.share.trans (tally_freeShare outside)⟩
  · intro i palabra copying
    exact ⟨bounds.1, counted.free_lt (i := i) (by rw [copying]; rfl)⟩
  · intro i read wordIndex copying
    obtain ⟨lower, upper, same⟩ := run_reading reached i (by rw [copying]; rfl)
    rw [same]
    exact wordIndexOf_bounds lower upper

theorem counters_in_bounds_push :
    ∃ s, Runs.run step (initial fun _ : Fin 1 => .w ['h', 'o', 'l', 'a']) (List.replicate 7 0) = some s ∧
      s.shared.mutex = none ∧ s.shared.items = s.shared.free ∧ pushesCompleted s = 1 ∧
      s.shared.free = 1 := by
  let s := (Runs.run step (initial fun _ : Fin 1 => .w ['h', 'o', 'l', 'a']) (List.replicate 7 0)).get
    (by decide +kernel)
  have reached : Runs.run step (initial fun _ : Fin 1 => .w ['h', 'o', 'l', 'a'])
      (List.replicate 7 0) = some s := (Option.some_get _).symm
  have unlocked : s.shared.mutex = none := by decide +kernel
  exact ⟨s, reached, unlocked, ((counters_in_bounds _ _ s reached).1 unlocked).1, by decide +kernel,
    by decide +kernel⟩

end OsLabs.Wordstack
