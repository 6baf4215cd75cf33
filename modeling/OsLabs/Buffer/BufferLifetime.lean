import OsLabs.Buffer.BufferCore

/-!
Lifetime of the synchronisation objects. `main` destroys them right after it has created
the threads, and nothing orders that after their last call.
-/

namespace OsLabs.Buffer

open OsLabs.Interleaving

def Pc.uses : Pc → Option Object
  | .prodWait _ | .consPost _ => some .vacio
  | .prodPost _ | .consWait _ => some .lleno
  | .prodLock _ | .prodUnlock _ | .consLock _ | .consUnlock _ => some .mutex
  | _ => none

def Pc.destroys : Pc → Option Object
  | .destroyMutex => some .mutex
  | .destroyLleno => some .lleno
  | .destroyVacio => some .vacio
  | _ => none

def producerRound : List Object := [.vacio, .mutex, .mutex, .lleno]

def consumerRound : List Object := [.lleno, .mutex, .mutex, .vacio]

def rounds (round : List Object) (count : Nat) : List Object :=
  (List.replicate count round).flatten

/-- The objects of all the calls that a thread has still to make, in order. -/
def Pc.remaining (params : Params) : Pc → List Object
  | .prodStart => rounds producerRound params.items
  | .prodWait i => rounds producerRound (params.items - i)
  | .prodLock i => .mutex :: .mutex :: .lleno :: rounds producerRound (params.items - (i + 1))
  | .prodStore i | .prodUnlock i =>
      .mutex :: .lleno :: rounds producerRound (params.items - (i + 1))
  | .prodPost i => .lleno :: rounds producerRound (params.items - (i + 1))
  | .consStart => rounds consumerRound params.items
  | .consWait i => rounds consumerRound (params.items - i)
  | .consLock i => .mutex :: .mutex :: .vacio :: rounds consumerRound (params.items - (i + 1))
  | .consRead i | .consUnlock i =>
      .mutex :: .vacio :: rounds consumerRound (params.items - (i + 1))
  | .consPost i => .vacio :: rounds consumerRound (params.items - (i + 1))
  | _ => []

theorem rounds_next (round : List Object) {i items : Nat} (more : i < items) :
    rounds round (items - i) = round ++ rounds round (items - (i + 1)) := by
  rw [show items - i = items - (i + 1) + 1 by omega, rounds, List.replicate_succ, List.flatten_cons,
    ← rounds]

theorem moves_remaining {params : Params} {thread : Thread} {s next : Shared} {pc pc' : Pc}
    (moves : Moves params thread s pc next pc') :
    pc.remaining params = pc.uses.toList ++ pc'.remaining params := by
  cases moves with
  | prodWait more _ => exact rounds_next producerRound more
  | consWait more _ => exact rounds_next consumerRound more
  | _ => rfl

theorem moves_destroyed {params : Params} {thread : Thread} {s next : Shared} {pc pc' : Pc}
    (moves : Moves params thread s pc next pc') {object : Object}
    (destroyed : next.destroyed object = true) :
    s.destroyed object = true ∨ pc.destroys = some object := by
  cases moves
  case destroyMutex | destroyLleno | destroyVacio =>
    simp only [Shared.destroy, Function.update_apply] at destroyed
    split at destroyed
    next same => exact Or.inr (by rw [same]; rfl)
    next => exact Or.inl destroyed
  all_goals exact Or.inl destroyed

def NotDestroyed (s : State) (thread : Thread) : Prop :=
  ∀ object, (s.place thread).uses = some object → s.shared.destroyed object = false

/-- When `main` destroys an object, no thread has a call on it left to make. -/
def DestroysUnused (params : Params) (s : State) (thread : Thread) : Prop :=
  ∀ object, (s.place thread).destroys = some object →
    ∀ other, object ∉ (s.place other).remaining params

instance (params : Params) (s : State) : DecidablePred (DestroysUnused params s) := fun thread =>
  match destroys : (s.place thread).destroys with
  | none => .isTrue fun _ same => by simp [destroys] at same
  | some object =>
      decidable_of_iff (∀ other, object ∉ (s.place other).remaining params) <| by
        constructor
        · intro unused object' same
          rw [destroys, Option.some.injEq] at same
          subst same
          exact unused
        · intro unused
          exact unused object destroys

def Retired (params : Params) (s : State) : Prop :=
  ∀ object, s.shared.destroyed object = true → ∀ thread, object ∉ (s.place thread).remaining params

theorem step_retired {params : Params} {s next : State} {thread : Thread} (retired : Retired params s)
    (unused : DestroysUnused params s thread) (stepped : step params s thread = some next) :
    Retired params next := by
  obtain ⟨shared, place, moved, same⟩ := act_eq_some.mp stepped
  have moves := program_moves moved
  subst same
  intro object destroyed other member
  have before : object ∈ (s.place other).remaining params := by
    by_cases self : other = thread
    · subst other
      rw [moves_remaining moves]
      simp only [Function.update_self] at member
      exact List.mem_append_right _ member
    · simpa only [Function.update_of_ne self] using member
  rcases moves_destroyed moves destroyed with earlier | now
  · exact retired object earlier other before
  · exact unused object now other before

theorem Retired.notDestroyed {params : Params} {s next : State} {thread : Thread}
    (retired : Retired params s) (stepped : step params s thread = some next) :
    NotDestroyed s thread := by
  obtain ⟨shared, place, moved, _⟩ := act_eq_some.mp stepped
  intro object uses
  refine Bool.eq_false_of_not_eq_true fun destroyed => retired object destroyed thread ?_
  rw [moves_remaining (program_moves moved), uses]
  exact List.mem_cons_self

/-- No call is made on a destroyed object in a run where `main` destroys each object when
the calls on it are over. -/
theorem no_use_after_destroy (params : Params) (sinIniciar : (Nat → Int) × (Nat → Int))
    (schedule : List Thread) (s : State)
    (reached : Runs.run (step params) (initial params sinIniciar) schedule = some s)
    (unused : Runs.Along (step params) (fun _ => DestroysUnused params) (initial params sinIniciar)
      schedule) :
    Runs.Along (step params) (fun _ => NotDestroyed) (initial params sinIniciar) schedule := by
  refine Runs.run_along (fun _ s => Retired params s) ?_ ?_ ?_ schedule s unused reached
  · intro object destroyed
    simp [initial] at destroyed
  · intro _ state thread next retired permitted stepped
    exact step_retired retired permitted stepped
  · intro _ state thread next retired stepped
    exact retired.notDestroyed stepped

def oneItem : Params := ⟨1, 1, by decide, by decide⟩

def oneItemStart : State := initial oneItem (fun _ => 0, fun _ => 0)

/-- `main` creates the threads and destroys the objects when both have ended. -/
def joined : List Thread :=
  [.main, .main] ++ List.replicate 6 .producer ++ List.replicate 6 .consumer ++
    List.replicate 3 .main

theorem no_use_after_destroy_joined : ∃ s, Runs.run (step oneItem) oneItemStart joined = some s ∧
    (∀ object, s.shared.destroyed object = true) ∧
    Runs.Along (step oneItem) (fun _ => NotDestroyed) oneItemStart joined := by
  let s := (Runs.run (step oneItem) oneItemStart joined).get (by decide +kernel)
  have reached : Runs.run (step oneItem) oneItemStart joined = some s := (Option.some_get _).symm
  have unused : Runs.Along (step oneItem) (fun _ => DestroysUnused oneItem) oneItemStart joined :=
    Runs.alongCheck_sound _ _ _ _ (by decide +kernel)
  refine ⟨s, reached, ?_, no_use_after_destroy oneItem _ joined s reached unused⟩
  intro object
  cases object <;> decide +kernel

/-- `main` runs to its end; then the producer waits on a semaphore that is destroyed. -/
theorem waits_on_destroyed : ∃ s,
    Runs.run (step oneItem) oneItemStart (List.replicate 5 .main ++ [.producer]) = some s ∧
      (step oneItem s .producer).isSome = true ∧ (s.place .producer).uses = some .vacio ∧
      s.shared.destroyed .vacio = true := by
  refine ⟨(Runs.run (step oneItem) oneItemStart (List.replicate 5 .main ++ [.producer])).get
    (by decide +kernel), (Option.some_get _).symm, ?_, ?_, ?_⟩ <;> decide +kernel

end OsLabs.Buffer
