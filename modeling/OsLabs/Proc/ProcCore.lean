import Mathlib.Data.BitVec
import Mathlib.Data.Fintype.Basic
import Mathlib.Data.Fintype.Option
import Mathlib.Logic.Function.Basic
import OsLabs.Foundation.Runs

/-!
Executable model of `xv6/proc.c`: the process table, the scheduler of each CPU and the
functions that change them. `ptable.lock` is the lock `none` and the other spin locks are the
locks `some l`; a lock is held by a CPU. A section under `ptable.lock` that neither releases it
halfway nor enters the scheduler is one step. A panic, like a lock that is taken, is no step.
-/

namespace OsLabs.Proc

open Function

def nproc : Nat := 64

instance : NeZero nproc := ⟨by decide⟩

abbrev Slot := Fin nproc

/-- `userinit` takes the first slot of the table. -/
def initproc : Slot := 0

inductive ProcState where
  | unused
  | embryo
  | sleeping
  | runnable
  | running
  | zombie
deriving DecidableEq, Repr

/-- The addresses that processes sleep on: `wait` sleeps on the process itself. -/
inductive Chan (K : Type*) where
  | proc (p : Slot)
  | addr (k : K)
deriving DecidableEq, Repr

/-- Where `sleep` returns to: code that holds `ptable.lock`, the loop of `wait`, or code that
holds another lock, which is taken again. -/
inductive Back (L : Type*) where
  | table
  | wait
  | relock (l : L)
deriving DecidableEq, Repr

/-- Where a process is inside `proc.c`. `user` is any other code, `table` other code that holds
`ptable.lock`, `gone` the end of `exit`. -/
inductive Pc (L K : Type*) where
  | user
  | table
  | forkStack (np : Slot)
  | forkCopy (np : Slot)
  | forkParent (np : Slot)
  | forkReady (np : Slot)
  | forkret
  | exitSched
  | gone
  | waitScan
  | sleepEnter (chan : Chan K) (l : L)
  | sleepRelease (chan : Chan K) (l : L)
  | sleepMark (chan : Chan K) (back : Back L)
  | sleepSched (back : Back L)
  | sleepBack (back : Back L)
  | sleepAcquire (l : L)
  | yieldSched (interrupted : Pc L K)
  | yieldBack (interrupted : Pc L K)
deriving DecidableEq, Repr

/-- Interrupts are on, so that a handler may run or the timer take the CPU away. -/
def Pc.interruptible {L K : Type*} : Pc L K → Bool
  | .user | .forkStack _ | .forkCopy _ | .forkParent _ | .forkReady _ | .sleepAcquire _ => true
  | _ => false

/-- The fields of `ptable.proc`, `cpus` and the locks. `scan` is the place of a scheduler that
holds `ptable.lock`. The last three fields are not in the program: the calls of `sleep` of each
process, the processes created, and what the calls of `wait` have returned. -/
structure Machine (C L K : Type*) where
  state : Slot → ProcState
  pid : Slot → BitVec 32
  parent : Slot → Option Slot
  chan : Slot → Option (Chan K)
  killed : Slot → Bool
  pc : Slot → Pc L K
  proc : C → Option Slot
  scan : C → Option Nat
  lock : Option L → Option C
  nextpid : BitVec 32
  calls : Slot → Nat
  created : Nat
  waited : List (BitVec 32)

variable {C L K : Type*}

/-- After `userinit`, with every CPU about to enter its scheduler. -/
def boot : Machine C L K where
  state p := if p = initproc then .runnable else .unused
  pid p := if p = initproc then 1 else 0
  parent _ := none
  chan _ := none
  killed _ := false
  pc p := if p = initproc then .forkret else .gone
  proc _ := none
  scan _ := none
  lock _ := none
  nextpid := 2
  calls _ := 0
  created := 1
  waited := []

namespace Machine

variable [DecidableEq C] [DecidableEq L] [DecidableEq K] (m : Machine C L K) (c : C) (p : Slot)

def goto (pc : Pc L K) : Machine C L K := { m with pc := update m.pc p pc }

def setState (state : ProcState) : Machine C L K := { m with state := update m.state p state }

def acquire (lk : Option L) : Option (Machine C L K) :=
  if m.lock lk = none then some { m with lock := update m.lock lk (some c) } else none

def release (lk : Option L) : Option (Machine C L K) :=
  if m.lock lk = some c then some { m with lock := update m.lock lk none } else none

def wakeup1 (chan : Chan K) : Machine C L K :=
  { m with state := fun q =>
      if m.state q = .sleeping ∧ m.chan q = some chan then .runnable else m.state q }

/-- `sched`, up to the switch: the scheduler of this CPU goes on after the process it ran. -/
def sched [Fintype L] (back : Pc L K) : Option (Machine C L K) :=
  if m.lock none = some c ∧ (∀ l, m.lock (some l) ≠ some c) ∧ m.state p ≠ .running then
    some { m.goto p back with
      proc := update m.proc c none
      scan := update m.scan c (some (p + 1)) }
  else none

/-- The scheduler: it takes `ptable.lock`, and runs the next `RUNNABLE` process of the table or
gives the lock back at its end. -/
def scheduler : Option (Machine C L K) :=
  match m.scan c with
  | none => (m.acquire c none).map fun m => { m with scan := update m.scan c (some 0) }
  | some start =>
      match (List.finRange nproc).find? fun q : Slot => start ≤ q ∧ m.state q = .runnable with
      | some q =>
          some { m.setState q .running with
            proc := update m.proc c (some q)
            scan := update m.scan c none }
      | none => (m.release c none).map fun m => { m with scan := update m.scan c none }

/-- The part of `allocproc` under `ptable.lock`. -/
def allocproc : Option (Slot × Machine C L K) :=
  ((List.finRange nproc).find? fun q => m.state q = .unused).map fun np =>
    (np, { m.setState np .embryo with
      pid := update m.pid np m.nextpid
      nextpid := m.nextpid + 1
      created := m.created + 1 })

/-- One round of the loop of `exit` over the table. -/
def abandon (q : Slot) : Machine C L K :=
  if m.parent q = some p then
    let m := { m with parent := update m.parent q (some initproc) }
    if m.state q = .zombie then m.wakeup1 (.proc initproc) else m
  else m

/-- The part of `exit` under `ptable.lock`. -/
def exit : Machine C L K :=
  let m := match m.parent p with
    | some parent => m.wakeup1 (.proc parent)
    | none => m
  ((List.finRange nproc).foldl (fun m q => m.abandon p q) m).setState p .zombie

/-- The zombie child that `wait` finds. -/
def zombieChild : Option Slot :=
  (List.finRange nproc).find? fun q => m.parent q = some p ∧ m.state q = .zombie

def reap (q : Slot) : Machine C L K :=
  { m.setState q .unused with
    pid := update m.pid q 0
    parent := update m.parent q none
    killed := update m.killed q false
    waited := m.waited ++ [m.pid q] }

/-- One scan of `wait`. -/
def wait : Option (Machine C L K) :=
  match m.zombieChild p with
  | some q => ((m.reap q).release c none).map fun m => m.goto p .user
  | none =>
      if (∀ q, m.parent q ≠ some p) ∨ m.killed p then (m.release c none).map fun m => m.goto p .user
      else some { m.goto p (.sleepMark (.proc p) .wait) with
        calls := update m.calls p (m.calls p + 1) }

def kill (pid : BitVec 32) : Machine C L K :=
  match (List.finRange nproc).find? fun q => m.pid q = pid with
  | some q =>
      { m with
        killed := update m.killed q true
        state := if m.state q = .sleeping then update m.state q .runnable else m.state }
  | none => m

/-- `sleep` after the switch back. -/
def sleepReturn (back : Back L) : Option (Machine C L K) :=
  let m := { m with chan := update m.chan p none }
  match back with
  | .table => some (m.goto p .table)
  | .wait => some (m.goto p .waitScan)
  | .relock l => (m.release c none).map fun m => m.goto p (.sleepAcquire l)

/-- The next step of process `p` inside `proc.c`, on CPU `c`. `ok` is the outcome of `kalloc` and
of `copyuvm`. -/
def go [Fintype L] (ok : Bool) : Option (Machine C L K) :=
  match m.pc p with
  | .user | .table | .gone => none
  | .forkStack np =>
      if ok then some ((m.goto np .forkret).goto p (.forkCopy np))
      else some ((m.setState np .unused).goto p .user)
  | .forkCopy np =>
      if ok then some (m.goto p (.forkParent np)) else some ((m.setState np .unused).goto p .user)
  | .forkParent np =>
      some { m.goto p (.forkReady np) with parent := update m.parent np (some p) }
  | .forkReady np => if m.lock none = none then some ((m.setState np .runnable).goto p .user) else none
  | .forkret => (m.release c none).map fun m => m.goto p .user
  | .exitSched => m.sched c p .gone
  | .waitScan => m.wait c p
  | .sleepEnter chan l => (m.acquire c none).map fun m => m.goto p (.sleepRelease chan l)
  | .sleepRelease chan l => (m.release c (some l)).map fun m => m.goto p (.sleepMark chan (.relock l))
  | .sleepMark chan back =>
      some { (m.setState p .sleeping).goto p (.sleepSched back) with
        chan := update m.chan p (some chan) }
  | .sleepSched back => m.sched c p (.sleepBack back)
  | .sleepBack back => m.sleepReturn c p back
  | .sleepAcquire l => (m.acquire c (some l)).map fun m => m.goto p .user
  | .yieldSched interrupted => m.sched c p (.yieldBack interrupted)
  | .yieldBack interrupted => (m.release c none).map fun m => m.goto p interrupted

/-- Code outside `proc.c`, or the handler of an interrupt, may run on this CPU. -/
def interruptible : Bool :=
  match m.proc c with
  | some p => (m.pc p).interruptible
  | none => (m.scan c).isNone

end Machine

/-- What a CPU does next. `acquire`, `release` and `wakeup` are calls of the code it runs or of an
interrupt handler; `preempt` is the timer's call of `yield`; `lockTable` up to `sleepTable` are
code that holds `ptable.lock`; `sleep` up to `wait` are calls of the process it runs. -/
inductive Action (L K : Type*) where
  | go (ok : Bool)
  | preempt
  | acquire (l : L)
  | release (l : L)
  | wakeup (chan : Chan K)
  | lockTable
  | unlockTable
  | wakeup1 (chan : Chan K)
  | sleepTable (chan : Chan K)
  | sleep (chan : Chan K) (l : L)
  | kill (pid : BitVec 32)
  | fork
  | exit
  | wait
deriving DecidableEq, Repr

variable [DecidableEq C] [DecidableEq L] [DecidableEq K] [Fintype L]

/-- A call of process `p` on CPU `c`. A call of `sleep` without the lock panics in `release`. -/
def Machine.call (m : Machine C L K) (c : C) (p : Slot) : Action L K → Option (Machine C L K)
  | .lockTable => if m.pc p = .user then (m.acquire c none).map fun m => m.goto p .table else none
  | .unlockTable => if m.pc p = .table then (m.release c none).map fun m => m.goto p .user else none
  | .wakeup1 chan => if m.pc p = .table then some (m.wakeup1 chan) else none
  | .sleepTable chan =>
      if m.pc p = .table then
        some { m.goto p (.sleepMark chan .table) with
          calls := update m.calls p (m.calls p + 1) }
      else none
  | .sleep chan l =>
      if m.pc p = .user ∧ m.lock (some l) = some c then
        some { m.goto p (.sleepEnter chan l) with
          calls := update m.calls p (m.calls p + 1) }
      else none
  | .kill pid => if m.pc p = .user ∧ m.lock none = none then some (m.kill pid) else none
  | .fork =>
      if m.pc p = .user ∧ m.lock none = none then
        match m.allocproc with
        | some (np, m) => some (m.goto p (.forkStack np))
        | none => some m
      else none
  | .exit =>
      if m.pc p = .user ∧ p ≠ initproc then
        (m.acquire c none).map fun m => (m.exit p).goto p .exitSched
      else none
  | .wait => if m.pc p = .user then (m.acquire c none).map fun m => m.goto p .waitScan else none
  | .preempt =>
      if (m.pc p).interruptible ∧ ∀ lk, m.lock lk ≠ some c then
        (m.acquire c none).map fun m => (m.setState p .runnable).goto p (.yieldSched (m.pc p))
      else none
  | .go ok => m.go c p ok
  | .acquire _ | .release _ | .wakeup _ => none

def step (m : Machine C L K) (event : C × Action L K) : Option (Machine C L K) :=
  match event.2 with
  | .acquire l => if m.interruptible event.1 then m.acquire event.1 (some l) else none
  | .release l => if m.interruptible event.1 then m.release event.1 (some l) else none
  | .wakeup chan =>
      if m.interruptible event.1 ∧ m.lock none = none then some (m.wakeup1 chan) else none
  | action =>
      match m.proc event.1, action with
      | some p, action => m.call event.1 p action
      | none, .go _ => m.scheduler event.1
      | none, _ => none

end OsLabs.Proc
