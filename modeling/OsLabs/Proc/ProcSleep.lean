import OsLabs.Proc.ProcSound

/-!
No wakeup is lost between a call of `sleep` and the switch to the scheduler: the caller holds its
lock or the lock of the table until it is marked as sleeping.
-/

namespace OsLabs.Proc

open Function (update update_of_ne update_self)
open Runs

variable {C L K : Type*}

/-- The lock that `sleep` takes again before it returns. -/
def Back.lock : Back L → Option L
  | .table | .wait => none
  | .relock l => some l

/-- The lock that `sleep` was called with, at a place inside `sleep`. -/
def Pc.sleepLock : Pc L K → Option (Option L)
  | .sleepEnter _ l | .sleepRelease _ l | .sleepAcquire l => some (some l)
  | .sleepMark _ back | .sleepSched back | .sleepBack back => some back.lock
  | .yieldSched interrupted | .yieldBack interrupted => interrupted.sleepLock
  | _ => none

/-- The arguments of `sleep`, at the first place inside it. -/
def Pc.callOf : Pc L K → Option (Chan K × Option L)
  | .sleepEnter chan l => some (chan, some l)
  | .sleepMark chan .table | .sleepMark chan .wait => some (chan, none)
  | _ => none

def Pc.presleep : Pc L K → Bool
  | .sleepEnter _ _ | .sleepRelease _ _ | .sleepMark _ _ => true
  | _ => false

/-- Process `p` sleeps on `chan`, and this is its `call`-th call of `sleep`. -/
structure AsleepSince (m : Machine C L K) (p : Slot) (chan : Chan K) (call : Nat) : Prop where
  sleeping : m.state p = .sleeping
  chan : m.chan p = some chan
  call : m.calls p = call

/-- Process `p` is inside its `call`-th call of `sleep`. -/
def InSleep (m : Machine C L K) (p : Slot) (call : Nat) : Prop :=
  m.calls p = call ∧ (m.pc p).sleepLock ≠ none

section Places

variable {action : Action L K} {pc pc' : Pc L K} {c : C} {p : Slot} {lock : Option L → Option C}

theorem Enters.sleep_spec (enters : Enters action pc pc') :
    (pc'.presleep = true → pc.presleep = true) ∧ pc'.sleepLock = pc.sleepLock := by
  cases enters <;> simp [Pc.presleep, Pc.sleepLock]

theorem Leaves.sleep_spec (leaves : Leaves action pc pc') (proper : pc.proper = true) :
    pc'.presleep = false ∧ pc'.sleepLock = pc.sleepLock := by
  cases leaves with
  | yield => cases pc' <;> simp_all [Pc.presleep, Pc.sleepLock, Pc.proper, Pc.interruptible]
  | _ => simp [Pc.presleep, Pc.sleepLock, Back.lock]

theorem Shifts.sleep_spec (shifts : Shifts action pc pc') :
    pc'.presleep = false ∧ pc'.sleepLock = none ∧
      ∀ lk, pc.sleepLock = some lk → lk = none ∧ pc.inTable = true := by
  cases shifts <;> simp [Pc.presleep, Pc.sleepLock, Pc.inTable, Back.lock]

theorem Fails.outside (fails : Fails pc p) : pc.sleepLock = none := by
  cases fails <;> rfl

theorem Calls.outside (calls : Calls lock c p action pc pc') : pc.sleepLock = none := by
  cases calls <;> rfl

theorem Pc.returns_sleep {back : Pc L K} (returns : pc.returns = some back) :
    back.presleep = false ∧ back.sleepLock = pc.sleepLock := by
  cases pc <;> simp only [Pc.returns, Option.some.injEq, reduceCtorEq] at returns <;> subst returns <;>
    simp [Pc.presleep, Pc.sleepLock]

theorem Pc.eq_sleepSched (sleeps : pc.runsAs = .sleeping) : ∃ back, pc = .sleepSched back := by
  cases pc <;> simp_all [Pc.runsAs]

end Places

section Steps

variable {m next : Machine C L K} {c : C} {action : Action L K} {p : Slot}

structure Bystander (m next : Machine C L K) (p : Slot) : Prop where
  pc : next.pc p = m.pc p ∨ m.state p = .embryo ∧ next.pc p = .forkret
  chan : next.chan p = m.chan p
  calls : next.calls p = m.calls p
  sleeping : next.state p = .sleeping → m.state p = .sleeping
  on : ∀ c, m.proc c = some p → next.proc c = some p

theorem Bystander.of_woken (woken : Woken m.state next.state) (pc : next.pc = m.pc)
    (chan : next.chan = m.chan) (calls : next.calls = m.calls) (proc : next.proc = m.proc) :
    Bystander m next p := by
  refine ⟨Or.inl (by rw [pc]), by rw [chan], by rw [calls], fun sleeps => ?_, fun c runs => by rw [proc, runs]⟩
  by_contra awake
  exact woken.not_sleeping awake sleeps

structure OwnStep (m next : Machine C L K) (c : C) (p : Slot) : Prop where
  presleep : (next.pc p).presleep = true → (m.pc p).presleep = true
  sleeping : next.state p = .sleeping → m.state p = .sleeping ∨ (m.pc p).presleep = true
  locks : (next.pc p).sleepLock = (m.pc p).sleepLock ∨ (next.pc p).sleepLock = none ∧
    ∀ lk, (m.pc p).sleepLock = some lk → next.lock lk = some c ∧
      (lk ≠ none → next.lock none ≠ some c ∧ next.pc p = .user ∧ next.proc c = some p)

theorem OwnStep.moved {pc : Pc L K} (moved : next.pc p = pc) (lock : pc.sleepLock = (m.pc p).sleepLock)
    (presleep : pc.presleep = true → (m.pc p).presleep = true)
    (sleeping : next.state p = .sleeping → m.state p = .sleeping ∨ (m.pc p).presleep = true) :
    OwnStep m next c p := by
  subst moved
  exact ⟨presleep, sleeping, Or.inl lock⟩

theorem OwnStep.of_woken (pc : next.pc p = m.pc p) (woken : Woken m.state next.state) : OwnStep m next c p := by
  refine .moved pc rfl id fun sleeps => Or.inl ?_
  by_contra awake
  exact woken.not_sleeping awake sleeps

theorem OwnStep.returned {pc : Pc L K} (moved : next.pc p = pc) (outside : pc.sleepLock = none)
    (presleep : pc.presleep = false) (sleeping : next.state p = .sleeping → m.state p = .sleeping)
    (locks : ∀ lk, (m.pc p).sleepLock = some lk → next.lock lk = some c ∧
      (lk ≠ none → next.lock none ≠ some c ∧ next.pc p = .user ∧ next.proc c = some p)) :
    OwnStep m next c p := by
  subst moved
  exact ⟨by simp [presleep], fun sleeps => Or.inl (sleeping sleeps), Or.inr ⟨outside, locks⟩⟩

theorem sleeping_of_update {states : Slot → ProcState} {q : Slot} {state : ProcState}
    (awake : state ≠ .sleeping) (sleeps : update states q state p = .sleeping) :
    states p = .sleeping := by
  by_cases same : p = q
  · rw [same, update_self] at sleeps
    exact absurd sleeps awake
  · rwa [update_of_ne same] at sleeps

variable [DecidableEq C] [DecidableEq L] [DecidableEq K]

theorem bystander_step (moves : Moves m c action next) (wf : Wf m) (off : m.proc c ≠ some p) :
    Bystander m next p := by
  have apart {self : Slot} (runs : m.proc c = some self) : p ≠ self := by
    rintro rfl
    exact off runs
  have elsewhere {other : Option Slot} (c' : C) (there : m.proc c' = some p) :
      update m.proc c other c' = some p := by
    rw [update_of_ne, there]
    rintro rfl
    exact off there
  cases moves with
  | acquire | release | startScan | endScan | forkFull =>
      exact ⟨Or.inl rfl, rfl, rfl, id, fun _ there => there⟩
  | wakeup | wakeup1 => exact .of_woken (wakeup1_woken _) rfl rfl rfl rfl
  | kill =>
      exact .of_woken (kill_woken _) (by rw [kill_frame]) (by rw [kill_frame]) (by rw [kill_frame])
        (by rw [kill_frame])
  | pick => exact ⟨Or.inl rfl, rfl, rfl, sleeping_of_update (by simp), elsewhere⟩
  | enter runs | sleepRelease runs | sleepAcquire runs | forkParent runs =>
      exact ⟨Or.inl (update_of_ne (apart runs) _ _), rfl, rfl, id, fun _ there => there⟩
  | leave runs | shift runs =>
      exact ⟨Or.inl (update_of_ne (apart runs) _ _), update_of_ne (apart runs) _ _, rfl,
        id, fun _ there => there⟩
  | call runs =>
      exact ⟨Or.inl (update_of_ne (apart runs) _ _), rfl, update_of_ne (apart runs) _ _,
        id, fun _ there => there⟩
  | fork runs | forkFail runs | forkReady runs | preempt runs | reap runs =>
      exact ⟨Or.inl (update_of_ne (apart runs) _ _), rfl, rfl, sleeping_of_update (by simp),
        fun _ there => there⟩
  | @forkStack self np runs here =>
      refine ⟨?_, rfl, rfl, id, fun _ there => there⟩
      by_cases same : p = np
      · subst same
        refine Or.inr ⟨wf.newborn (by rw [here]; rfl), ?_⟩
        exact (update_of_ne (apart runs) _ _).trans (update_self _ _ _)
      · exact Or.inl ((update_of_ne (apart runs) _ _).trans (update_of_ne same _ _))
  | exit runs _ other =>
      have exits := exit_exits (m := { m with lock := update m.lock none (some c) }) other
      refine ⟨Or.inl ?_, ?_, ?_, fun sleeps => ?_, fun c' there => ?_⟩
      · rw [goto_pc, update_of_ne (apart runs), exits.frame]
      · rw [Machine.goto, exits.frame]
      · rw [Machine.goto, exits.frame]
      · rcases exits.woken p (apart runs) with same | ⟨slept, -⟩
        · exact same.symm.trans sleeps
        · exact slept
      · rw [Machine.goto, exits.frame]
        exact there
  | sched runs => exact ⟨Or.inl (update_of_ne (apart runs) _ _), rfl, rfl, id, elsewhere⟩
  | sleepMark runs =>
      refine ⟨Or.inl (update_of_ne (apart runs) _ _), update_of_ne (apart runs) _ _, rfl,
        fun sleeps => ?_, fun _ there => there⟩
      exact (update_of_ne (apart runs) _ _).symm.trans sleeps

theorem own_step (moves : Moves m c action next) (wf : Wf m) (runs : m.proc c = some p)
    (same : next.calls p = m.calls p) : OwnStep m next c p := by
  have self {q : Slot} (here : m.proc c = some q) : q = p := Option.some.inj (here.symm.trans runs)
  cases moves with
  | acquire | release | forkFull => exact .moved rfl rfl id Or.inl
  | wakeup | wakeup1 => exact .of_woken rfl (wakeup1_woken _)
  | kill => exact .of_woken (by rw [kill_frame]) (kill_woken _)
  | startScan idle | pick idle | endScan idle => simp [runs] at idle
  | enter there enters =>
      obtain rfl := self there
      exact .moved (update_self _ _ _) enters.sleep_spec.2 enters.sleep_spec.1 Or.inl
  | leave there leaves =>
      obtain rfl := self there
      have spec := leaves.sleep_spec (wf.proper _)
      exact .moved (update_self _ _ _) spec.2 (by simp [spec.1]) Or.inl
  | shift there shifts =>
      obtain rfl := self there
      obtain ⟨awake, outside, table⟩ := shifts.sleep_spec
      refine .returned (update_self _ _ _) outside awake id fun lk inside => ?_
      obtain ⟨rfl, locked⟩ := table lk inside
      exact ⟨(wf.table_self runs).mpr locked, by simp⟩
  | call there calls =>
      obtain rfl := self there
      have counted := (update_self _ _ _).symm.trans same
      omega
  | fork there here | forkReady there here | reap there here =>
      obtain rfl := self there
      refine .moved (update_self _ _ _) ?_ (by simp [Pc.presleep])
        fun sleeps => Or.inl (sleeping_of_update (by simp) sleeps)
      rw [here]
      rfl
  | forkFail there fails =>
      obtain rfl := self there
      refine .moved (update_self _ _ _) ?_ (by simp [Pc.presleep])
        fun sleeps => Or.inl (sleeping_of_update (by simp) sleeps)
      rw [fails.outside]
      rfl
  | forkStack there here | forkParent there here | sleepRelease there here =>
      obtain rfl := self there
      exact .moved (update_self _ _ _) (by rw [here]; rfl) (by simp [here, Pc.presleep]) Or.inl
  | exit there user other =>
      obtain rfl := self there
      have exits := exit_exits (m := { m with lock := update m.lock none (some c) }) other
      refine .moved (update_self _ _ _) (by rw [user]; rfl) (by simp [Pc.presleep]) fun sleeps => ?_
      have zombie := exits.zombie.symm.trans sleeps
      simp at zombie
  | sched there returns =>
      obtain rfl := self there
      have spec := Pc.returns_sleep returns
      exact .moved (update_self _ _ _) spec.2 (by simp [spec.1]) Or.inl
  | sleepMark there here =>
      obtain rfl := self there
      exact .moved (update_self _ _ _) (by rw [here]; rfl) (by simp [here, Pc.presleep])
        fun _ => Or.inr (by rw [here]; rfl)
  | sleepAcquire there here =>
      obtain rfl := self there
      refine .returned (update_self _ _ _) rfl rfl id fun lk inside => ?_
      rw [here] at inside
      obtain rfl := Option.some.inj inside
      refine ⟨update_self _ _ _, fun _ => ⟨fun locked => ?_, update_self _ _ _, runs⟩⟩
      dsimp only at locked
      rw [lock_none, wf.table_self runs, here] at locked
      simp [Pc.inTable] at locked
  | preempt there open' =>
      obtain rfl := self there
      exact .moved (update_self _ _ _) rfl (by simp [Pc.presleep])
        fun sleeps => Or.inl (sleeping_of_update (by simp) sleeps)

theorem calls_step (moves : Moves m c action next) (p : Slot) :
    next.calls p = m.calls p ∨
      next.calls p = m.calls p + 1 ∧ next.proc = m.proc ∧ (m.pc p).sleepLock = none := by
  cases moves with
  | @call self _ _ _ calls _ =>
      by_cases same : p = self
      · subst same
        exact Or.inr ⟨update_self _ _ _, rfl, calls.outside⟩
      · exact Or.inl (update_of_ne same _ _)
  | kill => exact Or.inl (by rw [kill_frame])
  | exit _ _ other => exact Or.inl (by rw [Machine.goto, (exit_exits other).frame])
  | _ => exact Or.inl rfl

theorem go_of_step [Fintype L] (stepped : step m (c, action) = some next) (runs : m.proc c = some p)
    (off : (m.pc p).interruptible = false) (inside : m.pc p ≠ .table) : ∃ ok, m.go c p ok = some next := by
  have user : m.pc p ≠ .user := by
    intro here
    simp [here, Pc.interruptible] at off
  cases action with
  | go ok =>
      rw [step, runs] at stepped
      exact ⟨ok, stepped⟩
  | acquire | release | wakeup => simp [step, Machine.interruptible, runs, off] at stepped
  | _ => simp [step, Machine.call, runs, off, user, inside] at stepped

end Steps

section Phases

variable {m next : Machine C L K} {c : C} {p : Slot} {chan : Chan K} {call : Nat}

def Done (m : Machine C L K) (p : Slot) (call : Nat) : Prop :=
  call < m.calls p ∨ m.calls p = call ∧ (m.pc p).presleep = false ∧ m.state p ≠ .sleeping

structure Early (m : Machine C L K) (p : Slot) (chan : Chan K) (l : L) (call : Nat) : Prop where
  on : ∃ c, m.proc c = some p
  here : m.pc p = .sleepEnter chan l ∨ m.pc p = .sleepRelease chan l
  call : m.calls p = call

inductive Late (m : Machine C L K) (p : Slot) (chan : Chan K) (call : Nat) : Prop
  | marking {c back} (runs : m.proc c = some p) (here : m.pc p = .sleepMark chan back)
      (called : m.calls p = call)
  | asleep (past : (m.pc p).presleep = false) (asleep : AsleepSince m p chan call)
  | done (done : Done m p call)

theorem Done.not_asleep (done : Done m p call) : ¬ AsleepSince m p chan call := by
  rintro ⟨sleeping, -, called⟩
  rcases done with later | ⟨-, -, awake⟩
  · omega
  · exact awake sleeping

theorem Early.held {l : L} (early : Early m p chan l call) (wf : Wf m) : m.lock (some l) ≠ none := by
  obtain ⟨c, runs⟩ := early.on
  have needs : (m.pc p).needs = some l := by
    rcases early.here with here | here <;> rw [here] <;> rfl
  simp [wf.held runs needs]

variable [DecidableEq C] [DecidableEq L] [DecidableEq K] [Fintype L]

theorem Done.step (done : Done m p call) (wf : Wf m) {event : C × Action L K}
    (stepped : step m event = some next) : Done next p call := by
  have moves := moves_of_step stepped
  rcases done with later | ⟨called, past, awake⟩
  · rcases calls_step moves p with same | ⟨more, -, -⟩
    · exact Or.inl (same ▸ later)
    · exact Or.inl (by omega)
  · rcases calls_step moves p with same | ⟨more, -, -⟩
    · refine Or.inr ⟨same.trans called, ?_, ?_⟩
      · by_cases runs : m.proc event.1 = some p
        · by_contra early
          simp only [Bool.not_eq_false] at early
          simp [(own_step moves wf runs same).presleep early] at past
        · rcases (bystander_step moves wf runs).pc with kept | ⟨-, fresh⟩
          · rw [kept, past]
          · rw [fresh]
            rfl
      · by_cases runs : m.proc event.1 = some p
        · intro sleeps
          rcases (own_step moves wf runs same).sleeping sleeps with slept | early
          · exact awake slept
          · simp [early] at past
        · exact fun sleeps => awake ((bystander_step moves wf runs).sleeping sleeps)
    · exact Or.inl (by omega)

theorem Late.step (late : Late m p chan call) (wf : Wf m) {event : C × Action L K}
    (stepped : step m event = some next) : Late next p chan call := by
  have moves := moves_of_step stepped
  cases late with
  | done done => exact .done (done.step wf stepped)
  | @marking c back runs here called =>
      by_cases own : m.proc event.1 = some p
      · obtain ⟨ok, went⟩ := go_of_step stepped own (by rw [here]; rfl) (by simp [here])
        simp only [Machine.go, here, Option.some.injEq] at went
        subst went
        refine .asleep ?_ ⟨update_self _ _ _, update_self _ _ _, called⟩
        simp [Pc.presleep]
      · have bystander := bystander_step moves wf own
        refine .marking (bystander.on c runs) (bystander.pc.elim (·.trans here) fun fresh => ?_)
          (bystander.calls.trans called)
        exact absurd fresh.1 (wf.on_ne_embryo runs)
  | asleep past asleep =>
      by_cases own : m.proc event.1 = some p
      · obtain ⟨back, here⟩ : ∃ back, m.pc p = .sleepSched back :=
          Pc.eq_sleepSched ((wf.onCpu own).symm.trans asleep.sleeping)
        obtain ⟨ok, went⟩ := go_of_step stepped own (by rw [here]; rfl) (by simp [here])
        simp only [Machine.go, here, Machine.sched] at went
        split at went
        · obtain rfl := Option.some.inj went
          exact .asleep (by simp [Pc.presleep]) ⟨asleep.sleeping, asleep.chan, asleep.call⟩
        · simp at went
      · have bystander := bystander_step moves wf own
        have past' : (next.pc p).presleep = false := by
          rcases bystander.pc with kept | ⟨-, fresh⟩
          · rw [kept, past]
          · rw [fresh]
            rfl
        have called := bystander.calls.trans asleep.call
        by_cases sleeps : next.state p = .sleeping
        · exact .asleep past' ⟨sleeps, bystander.chan.trans asleep.chan, called⟩
        · exact .done (Or.inr ⟨called, past', sleeps⟩)

theorem Early.step {l : L} (early : Early m p chan l call) (wf : Wf m) {event : C × Action L K}
    (stepped : step m event = some next) : Early next p chan l call ∨ Late next p chan call := by
  obtain ⟨⟨c, runs⟩, here, called⟩ := early
  by_cases own : m.proc event.1 = some p
  · rcases here with here | here
    · obtain ⟨ok, went⟩ := go_of_step stepped own (by rw [here]; rfl) (by simp [here])
      simp only [Machine.go, here] at went
      obtain ⟨middle, taken, rfl⟩ := Option.map_eq_some_iff.mp went
      obtain ⟨-, rfl⟩ := acquire_eq_some taken
      exact Or.inl ⟨⟨c, runs⟩, Or.inr (update_self _ _ _), called⟩
    · obtain ⟨ok, went⟩ := go_of_step stepped own (by rw [here]; rfl) (by simp [here])
      simp only [Machine.go, here] at went
      obtain ⟨middle, given, rfl⟩ := Option.map_eq_some_iff.mp went
      obtain ⟨-, rfl⟩ := release_eq_some given
      exact Or.inr (.marking runs (update_self _ _ _) called)
  · have bystander := bystander_step (moves_of_step stepped) wf own
    have kept : next.pc p = m.pc p :=
      bystander.pc.resolve_right fun fresh => wf.on_ne_embryo runs fresh.1
    exact Or.inl ⟨⟨c, bystander.on c runs⟩, by rwa [kept], bystander.calls.trans called⟩

theorem wake_step {action : Action L K} (wakes : action = .wakeup chan ∨ action = .wakeup1 chan)
    (stepped : Proc.step m (c, action) = some next) :
    next = m.wakeup1 chan ∧ (m.lock none = none ∨ ∃ q, m.proc c = some q ∧ m.pc q = .table) := by
  rcases wakes with rfl | rfl
  · simp only [step] at stepped
    split at stepped
    · rename_i guard
      exact ⟨(Option.some.inj stepped).symm, Or.inl guard.2⟩
    · simp at stepped
  · cases runs : m.proc c with
    | none => simp [step, runs] at stepped
    | some q =>
        simp only [step, runs, Machine.call] at stepped
        split at stepped
        · rename_i table
          exact ⟨(Option.some.inj stepped).symm, Or.inr ⟨q, rfl, table⟩⟩
        · simp at stepped

theorem Late.wake (late : Late m p chan call) (wf : Wf m) {action : Action L K}
    (wakes : action = .wakeup chan ∨ action = .wakeup1 chan)
    (stepped : Proc.step m (c, action) = some next) : Done next p call := by
  obtain ⟨woken, outside⟩ := wake_step wakes stepped
  cases late with
  | done done => exact done.step wf stepped
  | @marking c' back runs here called =>
      have locked : m.lock none = some c' := (wf.table_self runs).mpr (by rw [here]; rfl)
      rcases outside with unlocked | ⟨q, there, table⟩
      · simp [unlocked] at locked
      · have held : m.lock none = some c := (wf.table_self there).mpr (by rw [table]; rfl)
        obtain rfl := Option.some.inj (locked.symm.trans held)
        obtain rfl := Option.some.inj (runs.symm.trans there)
        simp [here] at table
  | asleep past asleep =>
      subst woken
      exact Or.inr ⟨asleep.call, past, wakeup1_wakes asleep.chan⟩

end Phases

section Call

variable [DecidableEq C] [DecidableEq L] [DecidableEq K] [Fintype L] {m next called : Machine C L K} {c : C}
  {p : Slot} {chan : Chan K} {lk : Option L} {call : Nat} {events : List (C × Action L K)}

theorem wf_later (wf : Wf m) (later : run step m events = some next) : Wf next := by
  refine run_invariant (fun _ m => Wf m) wf ?_ events next later
  intro _ before event after wf stepped
  exact wf.step (moves_of_step stepped)

theorem Late.run (late : Late m p chan call) (wf : Wf m) (later : Runs.run Proc.step m events = some next) :
    Late next p chan call := by
  refine (run_invariant (fun _ m => Wf m ∧ Late m p chan call) ⟨wf, late⟩ ?_ events next later).2
  intro _ before event after both stepped
  exact ⟨both.1.step (moves_of_step stepped), both.2.step both.1 stepped⟩

theorem Done.run (done : Done m p call) (wf : Wf m) (later : Runs.run Proc.step m events = some next) :
    Done next p call := by
  refine (run_invariant (fun _ m => Wf m ∧ Done m p call) ⟨wf, done⟩ ?_ events next later).2
  intro _ before event after both stepped
  exact ⟨both.1.step (moves_of_step stepped), both.2.step both.1 stepped⟩

theorem Early.run {l : L} (early : Early m p chan l call) (wf : Wf m)
    (later : Runs.run Proc.step m events = some next) : Early next p chan l call ∨ Late next p chan call := by
  refine (run_invariant (fun _ m => Wf m ∧ (Early m p chan l call ∨ Late m p chan call))
    ⟨wf, Or.inl early⟩ ?_ events next later).2
  intro _ before event after both stepped
  refine ⟨both.1.step (moves_of_step stepped), ?_⟩
  rcases both.2 with early | late
  · exact early.step both.1 stepped
  · exact Or.inr (late.step both.1 stepped)

theorem late_of_free (wf : Wf called) (runs : called.proc c = some p)
    (call : (called.pc p).callOf = some (chan, lk)) (later : run step called events = some next)
    (free : next.lock lk = none) : Late next p chan (called.calls p) := by
  cases here : called.pc p with
  | sleepEnter chan' l =>
      rw [here] at call
      simp only [Pc.callOf, Option.some.injEq, Prod.mk.injEq] at call
      obtain ⟨rfl, rfl⟩ := call
      have early : Early called p chan' l (called.calls p) := ⟨⟨c, runs⟩, Or.inl here, rfl⟩
      rcases early.run wf later with waits | late
      · exact absurd free (waits.held (wf_later wf later))
      · exact late
  | sleepMark chan' back =>
      have same : chan' = chan := by
        rw [here] at call
        cases back <;> simp_all [Pc.callOf]
      subst same
      exact (Late.marking runs here rfl).run wf later
  | _ => simp [here, Pc.callOf] at call

def SameLock (m : Machine C L K) (p : Slot) (lk : Option L) (call : Nat) : Prop :=
  call ≤ m.calls p ∧ (m.calls p = call → ∀ lk', (m.pc p).sleepLock = some lk' → lk' = lk)

omit [Fintype L] in
theorem SameLock.step (locks : SameLock m p lk call) (wf : Wf m) {action : Action L K}
    (moves : Moves m c action next) : SameLock next p lk call := by
  obtain ⟨later, locks⟩ := locks
  rcases calls_step moves p with same | ⟨more, -, -⟩
  · refine ⟨by omega, fun current lk' inside => ?_⟩
    by_cases runs : m.proc c = some p
    · rcases (own_step moves wf runs same).locks with kept | ⟨outside, -⟩
      · exact locks (same.symm.trans current) lk' (kept.symm.trans inside)
      · simp [outside] at inside
    · rcases (bystander_step moves wf runs).pc with kept | ⟨-, fresh⟩
      · exact locks (same.symm.trans current) lk' (kept ▸ inside)
      · simp [fresh, Pc.sleepLock] at inside
  · refine ⟨by omega, fun current => ?_⟩
    omega

theorem SameLock.run (locks : SameLock m p lk call) (wf : Wf m)
    (later : Runs.run Proc.step m events = some next) : SameLock next p lk call := by
  refine (run_invariant (fun _ m => Wf m ∧ SameLock m p lk call) ⟨wf, locks⟩ ?_ events next later).2
  intro _ before event after both stepped
  exact ⟨both.1.step (moves_of_step stepped), both.2.step both.1 (moves_of_step stepped)⟩

omit [DecidableEq C] [DecidableEq L] [DecidableEq K] [Fintype L] in
theorem sameLock_call (call : (called.pc p).callOf = some (chan, lk)) :
    SameLock called p lk (called.calls p) := by
  refine ⟨le_rfl, fun _ lk' inside => ?_⟩
  cases here : called.pc p with
  | sleepEnter chan' l => simp_all [Pc.callOf, Pc.sleepLock]
  | sleepMark chan' back => cases back <;> simp_all [Pc.callOf, Pc.sleepLock, Back.lock]
  | _ => simp [here, Pc.callOf] at call

/-- Process `p` calls `sleep(chan, lk)`, in any run on any number of CPUs. Once `lk` has been free
after the call, so that another process may have taken it, a later wakeup of `chan` ends the sleep of
this call for good. And the step by which this call returns leaves `lk` with its CPU, and not the lock
of the table unless that is `lk`. -/
theorem sleep_loses_no_wakeup {m : Machine C L K} {action : Action L K}
    (reached : run step boot events = some m) (runs : m.proc c = some p)
    (entered : step m (c, action) = some called) (counted : called.calls p = m.calls p + 1)
    (call : (called.pc p).callOf = some (chan, lk)) :
    (∀ before free middle ready waker wake woken after last,
      run step called before = some free → free.lock lk = none → run step free middle = some ready →
      wake = .wakeup chan ∨ wake = .wakeup1 chan → step ready (waker, wake) = some woken →
      run step woken after = some last → ¬ AsleepSince last p chan (called.calls p)) ∧
    (∀ before ready back c' action,
      run step called before = some ready → ready.proc c' = some p → InSleep ready p (called.calls p) →
      step ready (c', action) = some back → ¬ InSleep back p (called.calls p) →
      back.lock lk = some c' ∧ (lk ≠ none → back.lock none ≠ some c')) := by
  have wf : Wf called := (wf_run reached).step (moves_of_step entered)
  have there : called.proc c = some p := by
    rcases calls_step (moves_of_step entered) p with same | ⟨-, kept, -⟩
    · omega
    · rw [kept, runs]
  refine ⟨?_, ?_⟩
  · intro before free middle ready waker wake woken after last freed unlocked waited wakes stepped later
    have wfFree := wf_later wf freed
    have wfReady := wf_later wfFree waited
    have late := (late_of_free wf there call freed unlocked).run wfFree waited
    have done := late.wake wfReady wakes stepped
    exact (done.run (wfReady.step (moves_of_step stepped)) later).not_asleep
  · intro before ready back c' action slept on inside stepped outside
    have wfReady := wf_later wf slept
    have moves := moves_of_step stepped
    obtain ⟨current, asleep⟩ := inside
    obtain ⟨lk', lock⟩ := Option.ne_none_iff_exists'.mp asleep
    obtain rfl := ((sameLock_call call).run wf slept).2 current lk' lock
    have same : back.calls p = ready.calls p := by
      rcases calls_step moves p with same | ⟨-, -, away⟩
      · exact same
      · exact absurd away asleep
    rcases (own_step moves wfReady on same).locks with kept | ⟨-, locks⟩
    · exact absurd ⟨same.trans current, by rwa [kept]⟩ outside
    · exact ⟨(locks lk' lock).1, fun other => ((locks lk' lock).2 other).1⟩

/-- Two CPUs: `init` runs on the first, forks, and takes a lock, while its child runs on the second. -/
def twoProcesses : List (Bool × Action Unit Unit) :=
  [(false, .go true), (false, .go true), (false, .go true), (false, .fork), (false, .go true),
    (false, .go true), (false, .go true), (false, .go true), (true, .go true), (true, .go true),
    (true, .go true), (false, .acquire ())]

/-- `init` falls asleep and the child takes the lock. -/
def fallsAsleep : List (Bool × Action Unit Unit) :=
  [(false, .go true), (false, .go true), (false, .go true), (true, .acquire ())]

/-- The child gives the lock back and `init` runs again. -/
def wakesUp : List (Bool × Action Unit Unit) :=
  [(true, .release ()), (false, .go true), (false, .go true), (false, .go true)]

theorem sleep_loses_no_wakeup_init : ∃ m called free asleep woken last back,
    run step boot twoProcesses = some m ∧ step m (false, .sleep (.addr ()) ()) = some called ∧
      run step called [(false, .go true), (false, .go true)] = some free ∧
      run step free fallsAsleep = some asleep ∧ AsleepSince asleep initproc (.addr ()) 1 ∧
      step asleep (true, .wakeup (.addr ())) = some woken ∧ run step woken wakesUp = some last ∧
      ¬ AsleepSince last initproc (.addr ()) 1 ∧ step last (false, .go true) = some back ∧
      back.lock (some ()) = some false ∧ back.lock none ≠ some false := by
  let m := (run step boot twoProcesses).get (by decide +kernel)
  let called := (step m (false, .sleep (.addr ()) ())).get (by decide +kernel)
  let free := (run step called [(false, .go true), (false, .go true)]).get (by decide +kernel)
  let asleep := (run step free fallsAsleep).get (by decide +kernel)
  let woken := (step asleep (true, .wakeup (.addr ()))).get (by decide +kernel)
  let last := (run step woken wakesUp).get (by decide +kernel)
  let back := (step last (false, .go true)).get (by decide +kernel)
  have reached : run step boot twoProcesses = some m := (Option.some_get _).symm
  have entered : step m (false, .sleep (.addr ()) ()) = some called := (Option.some_get _).symm
  have released : run step called [(false, .go true), (false, .go true)] = some free := (Option.some_get _).symm
  have slept : run step free fallsAsleep = some asleep := (Option.some_get _).symm
  have wakes : step asleep (true, .wakeup (.addr ())) = some woken := (Option.some_get _).symm
  have later : run step woken wakesUp = some last := (Option.some_get _).symm
  have returns : step last (false, .go true) = some back := (Option.some_get _).symm
  obtain ⟨awake, holds⟩ := sleep_loses_no_wakeup reached (by decide +kernel : m.proc false = some initproc)
    entered (by decide +kernel) (by decide +kernel : (called.pc initproc).callOf = some (.addr (), some ()))
  have whole : run step called ([(false, .go true), (false, .go true)] ++ (fallsAsleep ++
      (true, .wakeup (.addr ())) :: wakesUp)) = some last := by
    rw [run_append, released, Option.bind_some, run_append, slept, Option.bind_some, run_cons, wakes,
      Option.bind_some, later]
  have locks := holds _ _ _ _ _ whole (by decide +kernel) ⟨by decide +kernel, by decide +kernel⟩ returns
    fun inside => inside.2 (by decide +kernel)
  exact ⟨m, called, free, asleep, woken, last, back, reached, entered, released, slept,
    ⟨by decide +kernel, by decide +kernel, by decide +kernel⟩, wakes, later,
    awake _ _ _ _ _ _ _ _ _ released (by decide +kernel) slept (Or.inl rfl) wakes later, returns, locks.1,
    locks.2 (by simp)⟩

end Call

end OsLabs.Proc
