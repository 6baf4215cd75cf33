import OsLabs.Proc.ProcTree

/-!
Kernel code outside `xv6/proc.c` that shares data under spin locks of its own, on top of the process
machine: the code of system calls, with a place for each process, and of interrupt handlers, with a
place for each CPU. A client owns some locks and sleep channels, which no other code uses.
-/

namespace OsLabs.Proc

open Function (update update_of_ne update_self)
open Runs

inductive Command (L K D P : Type*) where
  | move (data : D) (place : P)
  | acquire (l : L) (place : P)
  | release (l : L) (place : P)
  | wakeup (chan : Chan K) (place : P)
  | sleep (chan : Chan K) (l : L) (place : P)

/-- The use of locks that the code keeps to: `lock` is the lock held at a place, and `rests` is the
channel of a place where `sleep` returns to. -/
def Command.Fits {L K D P : Type*} (lock : P → Option L) (rests : P → Option K) (owns : L → Bool)
    (place : P) : Command L K D P → Prop
  | .move _ place' | .wakeup _ place' => lock place' = lock place
  | .acquire l place' => lock place = none ∧ lock place' = some l ∧ owns l = true
  | .release l place' => lock place = some l ∧ lock place' = none
  | .sleep chan l place' =>
      lock place = some l ∧ lock place' = some l ∧ ∃ k, chan = .addr k ∧ rests place' = some k

/-- A client. `next` is its code, which reads the `killed` flag of its process and what a device
gives it; `enter` is the start of a system call and `handler` that of an interrupt; `fork` is what
`fork` copies, and `mayExit` says that `exit` has released what the process held. -/
structure Client (C L K D P I F J : Type*) where
  out : P
  next : D → Bool → I → P → Option (Command L K D P)
  enter : D → Slot → F → Option (D × P)
  handler : C → J → Option P
  fork : D → Slot → Slot → D
  mayExit : D → Slot → Bool
  lock : P → Option L
  rests : P → Option K
  ownsLock : L → Bool
  ownsKey : K → Bool
  lock_out : lock out = none
  rests_out : rests out = none
  next_out : ∀ data killed input, next data killed input out = none
  fits : ∀ {data killed input place command}, next data killed input place = some command →
    command.Fits lock rests ownsLock place
  enter_lock : ∀ {data p call data' place}, enter data p call = some (data', place) → lock place = none
  handler_lock : ∀ {c interrupt place}, handler c interrupt = some place → lock place = none

/-- An action of other code, which leaves the locks and channels of the client alone. -/
def Action.foreign {L K : Type*} (ownsLock : L → Bool) (ownsKey : K → Bool) : Action L K → Bool
  | .acquire l | .release l => !ownsLock l
  | .wakeup (.addr k) | .wakeup1 (.addr k) | .sleepTable (.addr k) => !ownsKey k
  | .sleep (.addr k) l => !ownsKey k && !ownsLock l
  | .sleep (.proc _) l => !ownsLock l
  | _ => true

structure World (C L K D P : Type*) where
  machine : Machine C L K
  data : D
  place : Slot → P
  hand : C → P

inductive Event (L K I F J : Type*) where
  | kernel (action : Action L K)
  | call (f : F)
  | interrupt (j : J)
  | code (input : I)

section Steps

variable {C L K D P I F J : Type*} [DecidableEq C] [DecidableEq L] [DecidableEq K] [DecidableEq P] [Fintype L]
  (client : Client C L K D P I F J)

/-- A command on CPU `c`. A handler does not sleep. -/
def Command.exec (m : Machine C L K) (data : D) (c : C) (sleeps : Bool) :
    Command L K D P → Option (Machine C L K × D × P)
  | .move data place => some (m, data, place)
  | .acquire l place => (step m (c, .acquire l)).map fun m => (m, data, place)
  | .release l place => (step m (c, .release l)).map fun m => (m, data, place)
  | .wakeup chan place => (step m (c, .wakeup chan)).map fun m => (m, data, place)
  | .sleep chan l place =>
      if sleeps then (step m (c, .sleep chan l)).map fun m => (m, data, place) else none

namespace World

variable (w : World C L K D P) (c : C)

/-- The data after a step of the machine: `fork` copies what its process holds. -/
def forked (action : Action L K) : D :=
  match w.machine.proc c with
  | none => w.data
  | some p =>
      match w.machine.pc p, action with
      | .forkParent np, .go _ => client.fork w.data p np
      | _, _ => w.data

/-- The code of the client is not in the way of a step of the machine: its process is outside, unless
the timer takes the CPU away, and has released what it holds before it exits. -/
def permits (action : Action L K) : Bool :=
  match w.machine.proc c with
  | none => true
  | some p =>
      (w.machine.pc p ≠ .user ∨ action = .preempt ∨ w.place p = client.out) ∧
        (action ≠ .exit ∨ client.mayExit w.data p = true)

def kernel (action : Action L K) : Option (World C L K D P) :=
  if w.hand c = client.out ∧ action.foreign client.ownsLock client.ownsKey = true ∧
      w.permits client c action = true then
    (step w.machine (c, action)).map fun m =>
      { w with machine := m, data := w.forked client c action }
  else none

def call (f : F) : Option (World C L K D P) :=
  match w.machine.proc c with
  | none => none
  | some p =>
      if w.hand c = client.out ∧ w.machine.pc p = .user ∧ w.place p = client.out then
        (client.enter w.data p f).map fun (data, place) =>
          { w with data := data, place := update w.place p place }
      else none

def interrupt (j : J) : Option (World C L K D P) :=
  if w.hand c = client.out ∧ w.machine.interruptible c = true ∧ ∀ lk, w.machine.lock lk ≠ some c then
    (client.handler c j).map fun place => { w with hand := update w.hand c place }
  else none

def code (input : I) : Option (World C L K D P) :=
  if w.hand c = client.out then
    match w.machine.proc c with
    | none => none
    | some p =>
        if w.machine.pc p = .user then
          (client.next w.data (w.machine.killed p) input (w.place p)).bind fun command =>
            (command.exec w.machine w.data c true).map fun (m, data, place) =>
              { w with machine := m, data := data, place := update w.place p place }
        else none
  else
    (client.next w.data false input (w.hand c)).bind fun command =>
      (command.exec w.machine w.data c false).map fun (m, data, place) =>
        { w with machine := m, data := data, hand := update w.hand c place }

def step (w : World C L K D P) (event : C × Event L K I F J) : Option (World C L K D P) :=
  match event.2 with
  | .kernel action => w.kernel client event.1 action
  | .call f => w.call client event.1 f
  | .interrupt j => w.interrupt client event.1 j
  | .code input => w.code client event.1 input

end World

end Steps

def Pc.asks {L K : Type*} : Pc L K → Option (Chan K)
  | .sleepEnter chan _ | .sleepRelease chan _ | .sleepMark chan _ => some chan
  | _ => none

section Frames

variable {C L K : Type*} {m next : Machine C L K} {c c' : C} {action : Action L K} {p : Slot} {l : L}

theorem Enters.asks_eq {pc pc' : Pc L K} (enters : Enters action pc pc') : pc'.asks = pc.asks := by
  cases enters <;> rfl

theorem Leaves.asks_none {pc pc' : Pc L K} (leaves : Leaves action pc pc') (proper : pc.proper = true) :
    pc'.asks = none := by
  cases leaves with
  | yield => cases pc' <;> simp_all [Pc.asks, Pc.proper, Pc.interruptible]
  | _ => rfl

theorem Shifts.asks_none {pc pc' : Pc L K} (shifts : Shifts action pc pc') : pc'.asks = none := by
  cases shifts <;> rfl

theorem Calls.asks_some {lock : Option L → Option C} {pc pc' : Pc L K} {chan : Chan K}
    (calls : Calls lock c p action pc pc') (asks : pc'.asks = some chan) :
    (∃ l, action = .sleep chan l) ∨ action = .sleepTable chan ∨ chan = .proc p := by
  cases calls with
  | table => exact Or.inr (Or.inl (by rw [Option.some.inj asks]))
  | wait => exact Or.inr (Or.inr (Option.some.inj asks).symm)
  | lock => exact Or.inl ⟨_, by rw [Option.some.inj asks]⟩

theorem Pc.returns_asks {pc back : Pc L K} (returns : pc.returns = some back) : back.asks = none := by
  cases pc <;> simp only [Pc.returns, Option.some.injEq, reduceCtorEq] at returns <;> subst returns <;> rfl

structure AskStep (m next : Machine C L K) (p : Slot) (action : Action L K) : Prop where
  asks : ∀ chan, (next.pc p).asks = some chan →
    (m.pc p).asks = some chan ∨ (∃ l, action = .sleep chan l) ∨ action = .sleepTable chan ∨ chan = .proc p
  sleeps : ∀ chan, next.state p = .sleeping → next.chan p = some chan →
    (m.pc p).asks = some chan ∨ m.state p = .sleeping ∧ m.chan p = some chan

theorem AskStep.moved {pc : Pc L K} (moved : next.pc p = pc) (asks : pc.asks = none ∨ pc.asks = (m.pc p).asks)
    (awake : next.state p ≠ .sleeping) : AskStep m next p action := by
  subst moved
  refine ⟨fun chan here => ?_, fun chan sleeps => absurd sleeps awake⟩
  rcases asks with none | same
  · simp [none] at here
  · exact Or.inl (same ▸ here)

theorem Machine.alive.congr (alive : m.alive p) (same : next.state p = m.state p) : next.alive p := by
  rw [Machine.alive, same]
  exact alive

variable [DecidableEq C] [DecidableEq L] [DecidableEq K]

theorem ask_step (moves : Moves m c action next) (wf : Wf m) (runs : m.proc c = some p) :
    AskStep m next p action := by
  have self {q : Slot} (here : m.proc c = some q) : q = p := Option.some.inj (here.symm.trans runs)
  have running {pc : Pc L K} (here : m.pc p = pc) (as : pc.runsAs = .running) : m.state p ≠ .sleeping := by
    rw [wf.onCpu runs, here, as]
    simp
  have interrupted (open' : m.interruptible c = true) : m.state p ≠ .sleeping := by
    rw [Machine.interruptible, runs] at open'
    exact running rfl (Pc.interruptible_spec open').2.2
  cases moves with
  | acquire open' | release open' => exact .moved rfl (Or.inr rfl) (interrupted open')
  | wakeup open' => exact .moved rfl (Or.inr rfl) ((wakeup1_woken _).not_sleeping (interrupted open'))
  | startScan idle | pick idle | endScan idle => simp [runs] at idle
  | wakeup1 there here =>
      obtain rfl := self there
      exact .moved rfl (Or.inr rfl) ((wakeup1_woken _).not_sleeping (running here rfl))
  | kill there here =>
      obtain rfl := self there
      exact .moved (by rw [kill_frame]) (Or.inr rfl) ((kill_woken _).not_sleeping (running here rfl))
  | forkFull there here =>
      obtain rfl := self there
      exact .moved rfl (Or.inr rfl) (running here rfl)
  | enter there enters =>
      obtain rfl := self there
      exact .moved (update_self _ _ _) (Or.inr enters.asks_eq) (running rfl enters.spec.1)
  | leave there leaves =>
      obtain rfl := self there
      exact .moved (update_self _ _ _) (Or.inl (leaves.asks_none (wf.proper _)))
        (running rfl (leaves.spec (wf.proper _)).1)
  | shift there shifts =>
      obtain rfl := self there
      exact .moved (update_self _ _ _) (Or.inl shifts.asks_none) (running rfl shifts.spec.1)
  | @call _ _ pc there calls =>
      obtain rfl := self there
      refine ⟨fun chan asks => Or.inr ?_, fun chan sleeps => ?_⟩
      · rw [goto_pc, update_self] at asks
        exact calls.asks_some asks
      · exact absurd sleeps (running rfl calls.spec.1)
  | sleepRelease there here =>
      obtain rfl := self there
      exact .moved (update_self _ _ _) (Or.inr (by rw [here]; rfl)) (running here rfl)
  | sleepAcquire there here | forkStack there here | forkParent there here =>
      obtain rfl := self there
      exact .moved (update_self _ _ _) (Or.inl rfl) (running here rfl)
  | fork there here =>
      obtain rfl := self there
      exact .moved (update_self _ _ _) (Or.inl rfl)
        fun sleeps => running here rfl (sleeping_of_update (by simp) sleeps)
  | forkReady there here =>
      obtain rfl := self there
      exact .moved (update_self _ _ _) (Or.inl rfl)
        fun sleeps => running here rfl (sleeping_of_update (by simp) sleeps)
  | reap there here =>
      obtain rfl := self there
      exact .moved (update_self _ _ _) (Or.inl rfl)
        fun sleeps => running here rfl (sleeping_of_update (by simp) sleeps)
  | forkFail there fails =>
      obtain rfl := self there
      refine .moved (update_self _ _ _) (Or.inl rfl) fun sleeps => ?_
      have before := sleeping_of_update (by simp) sleeps
      generalize here : m.pc _ = pc at fails
      cases fails <;> exact running here rfl before
  | exit there user other =>
      obtain rfl := self there
      have exits := exit_exits (m := { m with lock := update m.lock none (some c) }) other
      refine .moved (update_self _ _ _) (Or.inl rfl) fun sleeps => ?_
      have zombie := exits.zombie.symm.trans sleeps
      simp at zombie
  | sched there returns =>
      obtain rfl := self there
      refine ⟨fun chan asks => ?_, fun chan sleeps on => Or.inr ⟨sleeps, on⟩⟩
      rw [goto_pc, update_self, Pc.returns_asks returns] at asks
      simp at asks
  | @sleepMark _ chan back _ there here =>
      obtain rfl := self there
      refine ⟨fun chan' asks => ?_, fun chan' _ on => Or.inl ?_⟩
      · rw [goto_pc, update_self] at asks
        simp [Pc.asks] at asks
      · dsimp only at on
        rw [update_self] at on
        rw [here, ← on]
        rfl
  | preempt there open' =>
      obtain rfl := self there
      exact .moved (update_self _ _ _) (Or.inl rfl) fun sleeps =>
        running rfl (Pc.interruptible_spec open').2.2 (sleeping_of_update (by simp) sleeps)

theorem lock_step (moves : Moves m c action next) (other : c' ≠ c) (held : m.lock (some l) = some c') :
    next.lock (some l) = some c' := by
  have free {l' : L} {holder : Option C} (unlocked : m.lock (some l') = none ∨ m.lock (some l') = some c) :
      update m.lock (some l') holder (some l) = some c' := by
    rw [update_of_ne, held]
    rintro same
    rw [← same, held] at unlocked
    rcases unlocked with none | mine
    · simp at none
    · exact other (Option.some.inj mine)
  have table (holder : Option C) : update m.lock none holder (some l) = some c' := by
    rw [lock_some, held]
  cases moves with
  | acquire _ unlocked | sleepAcquire _ _ unlocked => exact free (Or.inl unlocked)
  | release _ locked | sleepRelease _ _ locked => exact free (Or.inr locked)
  | startScan | enter | preempt => exact table (some c)
  | endScan | leave | reap => exact table none
  | kill => rw [kill_frame, held]
  | exit _ _ other =>
      rw [Machine.goto, (exit_exits other).frame]
      exact table (some c)
  | _ => exact held

theorem proc_other (moves : Moves m c action next) (other : c' ≠ c) : next.proc c' = m.proc c' := by
  cases moves with
  | pick | sched => exact update_of_ne other _ _
  | kill => rw [kill_frame]
  | exit _ _ other => rw [Machine.goto, (exit_exits other).frame]
  | _ => rfl

theorem alive_step (moves : Moves m c action next) (wf : Wf m) (alive : m.alive p)
    (stays : action = .exit → m.proc c ≠ some p) : next.alive p := by
  rcases quiet_or_turns moves wf with quiet | turns
  · exact quiet.alive_iff p alive
  · have kept {np : Slot} {state : ProcState} (dead : ¬ m.alive np) :
        update m.state np state p = m.state p := by
      refine update_of_ne ?_ _ _
      rintro rfl
      exact dead alive
    have embryo {np : Slot} {creator : Slot} (forks : (m.pc creator).forks = some np) : ¬ m.alive np :=
      fun lives => lives.in_use.2.1 (wf.newborn forks)
    cases turns with
    | @fork _ np _ found =>
        have same : update m.state np .embryo p = m.state p := kept fun lives => lives.in_use.1 found
        exact alive.congr same
    | @fail _ np _ fails =>
        have same : update m.state np .unused p = m.state p :=
          kept (embryo (Pc.forks_of_stage fails.stage_eq))
        exact alive.congr same
    | adopt => exact alive
    | @ready _ np _ _ here =>
        have same : update m.state np .runnable p = m.state p := kept (embryo (by rw [here]; rfl))
        exact alive.congr same
    | @exit self runs user other unlocked =>
        have exits := exit_exits (m := { m with lock := update m.lock none (some c) }) other
        have apart : p ≠ self := by
          rintro rfl
          exact stays rfl runs
        rcases exits.woken p apart with same | ⟨-, ready⟩
        · exact alive.congr same
        · exact Or.inr (Or.inl ready)
    | @reap _ q _ _ _ found =>
        have same : update m.state q .unused p = m.state p :=
          kept fun lives => lives.in_use.2.2 (zombieChild_some found).2
        exact alive.congr same

end Frames

end OsLabs.Proc
