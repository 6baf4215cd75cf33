import OsLabs.Ipc.PipeWakeup

/-!
`kill` and the wait loops of `piperead`, `pipewrite`, `consoleread` and `sys_sleep`: a loop tests `killed`
under the lock of its data and `kill` sets it under `ptable.lock`, so that a process killed between its test
and its sleep goes to sleep all the same.
-/

namespace OsLabs.Ipc

open Function (update_of_ne update_self)
open Proc Runs

variable {C L K : Type*}

def Place.tested : Place → Bool
  | .writeWake _ _ _ | .writeSleep _ _ _ | .readSleep _ | .consSleep _ _ | .tickSleep _ _ => true
  | _ => false

theorem tested_lock {place : Place} (tested : place.tested = true) :
    ∃ l, (place.lock : Option (Lock ⊕ L)) = some l ∧ (place.rests : Option (Key ⊕ K)) = none := by
  cases place with
  | writeWake | writeSleep | readSleep | consSleep | tickSleep => exact ⟨_, rfl, rfl⟩
  | _ => simp [Place.tested] at tested

section Code

variable {d : Data} {killed : Bool} {key : Option Byte} {place : Place}
  {command : Command (Lock ⊕ L) (Key ⊕ K) Data Place}

theorem next_tested (given : next d killed key place = some command) (tested : (after d command).2.tested = true) :
    killed = false ∨ place.tested = true := by
  cases place with
  | out => simp [next] at given
  | writeTest n byte rest =>
      obtain rfl := Option.some.inj given
      simp only [after] at tested
      split at tested
      · simp [Place.tested] at tested
      · rename_i alive
        exact Or.inl (by simp_all)
  | readTest | consTest | tickTest =>
      obtain rfl := Option.some.inj given
      simp only [after] at tested
      split at tested
      · simp [Place.tested] at tested
      · rename_i alive
        exact Or.inl (by simpa using alive)
  | writeWake | writeSleep | readSleep | consSleep | tickSleep => exact Or.inr rfl
  | writeLoop n bytes =>
      cases bytes with
      | nil =>
          obtain rfl := Option.some.inj given
          simp [after, Place.tested] at tested
      | cons byte rest =>
          obtain rfl := Option.some.inj given
          simp only [after] at tested
          split at tested <;> simp [Place.tested] at tested
  | consTake n target =>
      simp only [next] at given
      split at given
      · split at given <;> obtain rfl := Option.some.inj given <;> simp [after, Place.tested] at tested
      · obtain rfl := Option.some.inj given
        simp only [after] at tested
        split at tested <;> simp [Place.tested] at tested
  | keyLoop =>
      cases key with
      | none =>
          obtain rfl := Option.some.inj given
          simp [after, Place.tested] at tested
      | some c =>
          obtain rfl := Option.some.inj given
          simp only [after] at tested
          split at tested <;> simp [Place.tested] at tested
  | readWait | readCopy | closeTest | consLoop | consWait | tickLoop =>
      obtain rfl := Option.some.inj given
      simp only [after] at tested
      split at tested <;> simp [Place.tested] at tested
  | _ =>
      obtain rfl := Option.some.inj given
      simp [after, Place.tested] at tested

theorem tested_of_sleep {chan : Chan (Key ⊕ K)} {l : Lock ⊕ L} {place' : Place}
    (given : next d killed key place = some (.sleep chan l place')) : place.tested = true := by
  cases place with
  | writeSleep | readSleep | consSleep | tickSleep => rfl
  | writeLoop n bytes => cases bytes <;> simp [next] at given
  | consTake n target =>
      simp only [next] at given
      split at given
      · split at given <;> simp at given
      · simp at given
  | keyLoop => cases key <;> simp [next] at given
  | _ => simp [next] at given

end Code

section Run

variable {bsp c : C} {w w' : World C (Lock ⊕ L) (Key ⊕ K) Data Place} {m : Machine C L K}

def killTarget (m : Machine C L K) (pid : BitVec 32) : Option Slot :=
  (List.finRange nproc).find? fun q => m.pid q = pid

theorem kill_killed (pid : BitVec 32) (q : Slot) :
    (m.kill pid).killed q = m.killed q ∨ killTarget m pid = some q ∧ (m.kill pid).state q ≠ .sleeping := by
  rw [Machine.kill, killTarget]
  split
  · rename_i target found
    by_cases self : q = target
    · subst self
      refine Or.inr ⟨found, ?_⟩
      dsimp only
      split
      · simp
      · assumption
    · exact Or.inl (update_of_ne self _ _)
  · exact Or.inl rfl

def inWindow (w : World C (Lock ⊕ L) (Key ⊕ K) Data Place) (q : Slot) : Bool :=
  match w.machine.pc q with
  | .user => (w.place q).tested
  | pc => match pc.asks with
    | some (.addr (.inl _)) => true
    | _ => false

/-- No process is killed between its test of `killed` and its sleep. -/
def timely (w : World C (Lock ⊕ L) (Key ⊕ K) Data Place)
    (event : C × Event (Lock ⊕ L) (Key ⊕ K) (Option Byte) Call Interrupt) : Bool :=
  match event.2 with
  | .kernel (.kill pid) => (killTarget w.machine pid).all fun q => !inWindow w q
  | _ => true

structure Unkilled (w : World C (Lock ⊕ L) (Key ⊕ K) Data Place) : Prop where
  tested : ∀ {q}, w.machine.pc q = .user → (w.place q).tested = true → w.machine.killed q = false
  waits : ∀ {q k}, Waits w.machine q (.addr (.inl k)) → w.machine.killed q = false

variable [DecidableEq C] [DecidableEq L] [DecidableEq K]

theorem killed_step {next : Machine C L K} {action : Action L K} (moves : Moves m c action next) (q : Slot) :
    next.killed q = m.killed q ∨ next.killed q = false ∨
      ∃ pid, action = .kill pid ∧ killTarget m pid = some q ∧ next.pc = m.pc ∧ next.state q ≠ .sleeping := by
  cases moves with
  | @kill _ pid =>
      rcases kill_killed pid q with same | target
      · exact Or.inl same
      · exact Or.inr (Or.inr ⟨pid, rfl, target.1, by rw [kill_frame], target.2⟩)
  | exit _ _ other =>
      refine Or.inl ?_
      rw [Machine.goto, (exit_exits other).frame]
  | @reap _ z =>
      by_cases self : q = z
      · subst self
        exact Or.inr (Or.inl (update_self _ _ _))
      · exact Or.inl (update_of_ne self _ _)
  | _ => exact Or.inl rfl

variable [Fintype L]

theorem Unkilled.kernel (unkilled : Unkilled w) (owned : Owned (ipc bsp) w) {action : Action (Lock ⊕ L) (Key ⊕ K)}
    {m : Machine C (Lock ⊕ L) (Key ⊕ K)} {d : Data} (timely : timely w (c, .kernel action) = true)
    (foreign : action.foreign (ipc (L := L) (K := K) bsp).ownsLock (ipc (L := L) (K := K) bsp).ownsKey = true)
    (stepped : Proc.step w.machine (c, action) = some m) :
    Unkilled { w with machine := m, data := d } := by
  have moves : Moves w.machine c action m := moves_of_step stepped
  refine ⟨fun {q} user tested => ?_, fun {q k} waits => ?_⟩
  · obtain ⟨l, lock, rests⟩ := tested_lock (L := L) (K := K) tested
    obtain ⟨-, -, before, -⟩ := (owned.held lock).resolve_right fun asleep => by simp [ipc, rests] at asleep
    rcases killed_step moves q with same | alive | ⟨pid, rfl, target, -, -⟩
    · exact same.trans (unkilled.tested before tested)
    · exact alive
    · have outside : inWindow w q = false := by simpa [Ipc.timely, target] using timely
      simp only [inWindow, before] at outside
      simp [outside] at tested
  · have before := owned.waits_kernel foreign stepped rfl waits
    rcases killed_step moves q with same | alive | ⟨pid, rfl, target, pcs, awake⟩
    · exact same.trans (unkilled.waits before)
    · exact alive
    · have outside : inWindow w q = false := by simpa [Ipc.timely, target] using timely
      have asks : (w.machine.pc q).asks = some (.addr (.inl k)) := by
        rw [← pcs]
        exact waits.resolve_right fun slept => awake slept.1
      rw [inWindow] at outside
      split at outside
      · rename_i user
        simp [user, Pc.asks] at asks
      · simp [asks] at outside

theorem Unkilled.step (unkilled : Unkilled w) (owned : Owned (ipc bsp) w)
    {event : C × Event (Lock ⊕ L) (Key ⊕ K) (Option Byte) Call Interrupt} (timely : timely w event = true)
    (stepped : w.step (ipc bsp) event = some w') : Unkilled w' := by
  obtain ⟨c, event⟩ := event
  cases acts_of_step stepped with
  | kernel idle foreign stays leaves went => exact unkilled.kernel owned timely foreign went
  | @call f p d place idle runs user outside given =>
      refine ⟨fun {q} user' tested => ?_, unkilled.waits⟩
      by_cases self : q = p
      · subst self
        dsimp only at tested
        rw [update_self] at tested
        obtain ⟨l, lock, -⟩ := tested_lock (L := L) (K := K) tested
        exact absurd ((enter_lock given).symm.trans lock) (by simp)
      · dsimp only at tested
        rw [update_of_ne self] at tested
        exact unkilled.tested user' tested
  | interrupt idle open' unlocked given => exact ⟨unkilled.tested, unkilled.waits⟩
  | @process input p command m d place idle runs user given ran kept =>
      have same := after_of_ran ran
      have beside := ran.outside
      refine ⟨fun {q} user' tested => ?_, fun {q k} waits => ?_⟩
      · dsimp only at user' tested ⊢
        rw [beside.killed]
        by_cases self : q = p
        · subst self
          rw [update_self] at tested
          rcases next_tested given (by rw [same]; exact tested) with alive | before
          · exact alive
          · exact unkilled.tested user before
        · rw [update_of_ne self] at tested
          rw [beside.pc q fun there => self (Option.some.inj (there.symm.trans runs))] at user'
          exact unkilled.tested user' tested
      · dsimp only
        rw [beside.killed]
        rcases ran.waits waits with before | ⟨on, l, calls⟩
        · exact unkilled.waits before
        · obtain rfl := Option.some.inj (runs.symm.trans on)
          subst calls
          exact unkilled.tested user (tested_of_sleep given)
  | @handler input command m d place busy given awake ran kept =>
      have beside := ran.outside
      have pcs : m.pc = w.machine.pc := by
        cases ran with
        | sleep => exact absurd rfl (awake _ _ _)
        | _ => rfl
      refine ⟨fun {q} user tested => ?_, fun {q k} waits => ?_⟩
      · dsimp only at user ⊢
        rw [beside.killed]
        exact unkilled.tested (pcs ▸ user) tested
      · dsimp only
        rw [beside.killed]
        rcases ran.waits waits with before | ⟨-, l, calls⟩
        · exact unkilled.waits before
        · exact absurd calls (awake _ _ _)

omit [DecidableEq L] [DecidableEq K] [Fintype L] in
theorem unkilled_start (d : Data) : Unkilled (World.start (ipc bsp) d : World C (Lock ⊕ L) (Key ⊕ K) Data Place) :=
  ⟨fun _ _ => rfl, fun _ => rfl⟩

/-- In every run in which nobody is killed between its test of `killed` and its sleep, who sleeps in one of the
four wait loops has not been killed. -/
theorem kill_not_lost {d : Data}
    {events : List (C × Event (Lock ⊕ L) (Key ⊕ K) (Option Byte) Call Interrupt)}
    (reached : run (World.step (ipc bsp)) (World.start (ipc bsp) d) events = some w)
    (timely : Along (World.step (ipc bsp)) (fun _ w event => timely w event = true) (World.start (ipc bsp) d) events)
    {q : Slot} {k : Key} (sleeps : w.machine.state q = .sleeping)
    (on : w.machine.chan q = some (.addr (.inl k))) : w.machine.killed q = false := by
  obtain ⟨-, unkilled⟩ : Owned (ipc bsp) w ∧ Unkilled w := by
    refine run_invariant_along (fun _ w => Owned (ipc bsp) w ∧ Unkilled w) ⟨owned_start d, unkilled_start d⟩ ?_
      events w timely reached
    rintro _ before event after ⟨owned, unkilled⟩ timely stepped
    exact ⟨owned.step stepped, unkilled.step owned timely stepped⟩
  exact unkilled.waits (Or.inr ⟨sleeps, on⟩)

end Run

section Examples

def otherKilled : List (Bool × Event (Lock ⊕ Empty) (Key ⊕ Empty) (Option Byte) Call Interrupt) :=
  readerSleeps ++ [(false, .kernel (.kill 3))]

theorem kill_not_lost_reader : ∃ w : World Bool (Lock ⊕ Empty) (Key ⊕ Empty) Data Place,
    run (World.step (ipc false)) (World.start (ipc false) .blank) otherKilled = some w ∧
      w.machine.state firstChild = .sleeping ∧ w.machine.chan firstChild = some (.addr (.inl .nread)) ∧
      w.machine.killed firstChild = false := by
  have facts : (run (World.step (ipc false)) (World.start (ipc false) .blank) otherKilled).map
      (fun w => decide (w.machine.state firstChild = .sleeping ∧
        w.machine.chan firstChild = some (.addr (.inl .nread)))) = some true := by decide +kernel
  obtain ⟨w, reached, values⟩ := Option.map_eq_some_iff.mp facts
  obtain ⟨sleeps, on⟩ := of_decide_eq_true values
  exact ⟨w, reached, sleeps, on, kill_not_lost reached
    (alongCheck_sound _ (fun w event => timely w event = true) _ _ (by decide +kernel)) sleeps on⟩

/-- The first child reads from an empty pipe. `init` kills it after its test of `killed` and before its call of
`sleep`. -/
def readerKilled : List (Bool × Event (Lock ⊕ Empty) (Key ⊕ Empty) (Option Byte) Call Interrupt) :=
  List.replicate 3 (false, .kernel (.go true)) ++ [(false, .call .pipe), (false, .code none)] ++ forks ++ forks ++
    List.replicate 3 (true, .kernel (.go true)) ++ [(true, .call (.read 1))] ++
    List.replicate 3 (true, .code none) ++ [(false, .kernel (.kill 2)), (true, .code none)] ++
    List.replicate 6 (true, .kernel (.go true))

/-- It sleeps on. -/
theorem kill_lost : ∃ w : World Bool (Lock ⊕ Empty) (Key ⊕ Empty) Data Place,
    run (World.step (ipc false)) (World.start (ipc false) .blank) readerKilled = some w ∧
      w.machine.lock none = none ∧ w.machine.killed firstChild = true ∧ w.machine.state firstChild = .sleeping ∧
      w.machine.chan firstChild = some (.addr (.inl .nread)) := by
  have facts : (run (World.step (ipc false)) (World.start (ipc false) .blank) readerKilled).map
      (fun w => decide (w.machine.lock none = none ∧ w.machine.killed firstChild = true ∧
        w.machine.state firstChild = .sleeping ∧
        w.machine.chan firstChild = some (.addr (.inl .nread)))) = some true := by decide +kernel
  obtain ⟨w, reached, values⟩ := Option.map_eq_some_iff.mp facts
  exact ⟨w, reached, of_decide_eq_true values⟩

end Examples

end OsLabs.Ipc
