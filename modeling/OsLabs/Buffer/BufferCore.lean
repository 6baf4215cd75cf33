import Mathlib.Data.Fintype.Defs
import OsLabs.Foundation.Interleaving

/-!
Executable model of `lab-05/buf.c`: `main`, the producer and the consumer, one access to
a shared object at a time. `usleep` and the printing of the results touch nothing shared.
-/

namespace OsLabs.Buffer

open Function OsLabs.Interleaving

/-- The arguments that `main` accepts. -/
structure Params where
  size : Nat
  items : Nat
  sizePositive : 0 < size
  itemsPositive : 0 < items

inductive Thread where
  | main
  | producer
  | consumer
deriving DecidableEq, Repr

instance : Fintype Thread where
  elems := {.main, .producer, .consumer}
  complete thread := by cases thread <;> simp

inductive Object where
  | mutex
  | lleno
  | vacio
deriving DecidableEq, Repr

/-- The synchronisation objects keep their value when `main` destroys them: what a call
does after that is not defined, and here it still acts on the value. -/
structure Shared where
  buf : Nat → Int
  readerResults : Nat → Int
  lleno : Nat
  vacio : Nat
  mutex : Option Thread
  created : Thread → Bool
  destroyed : Object → Bool

/-- What a thread does next. `prodWait` and `consWait` are the heads of the loops. -/
inductive Pc where
  | createProducer
  | createConsumer
  | destroyMutex
  | destroyLleno
  | destroyVacio
  | mainExit
  | prodStart
  | prodWait (i : Nat)
  | prodLock (i : Nat)
  | prodStore (i : Nat)
  | prodUnlock (i : Nat)
  | prodPost (i : Nat)
  | consStart
  | consWait (i : Nat)
  | consLock (i : Nat)
  | consRead (i : Nat)
  | consUnlock (i : Nat)
  | consPost (i : Nat)
deriving DecidableEq, Repr

def Shared.create (s : Shared) (thread : Thread) : Shared :=
  { s with created := update s.created thread true }

def Shared.destroy (s : Shared) (object : Object) : Shared :=
  { s with destroyed := update s.destroyed object true }

def Shared.mutexLock (s : Shared) (thread : Thread) : Option Shared :=
  if s.mutex = none then some { s with mutex := some thread } else none

def program (params : Params) (thread : Thread) (s : Shared) : Pc → Option (Shared × Pc)
  | .createProducer => some (s.create .producer, .createConsumer)
  | .createConsumer => some (s.create .consumer, .destroyMutex)
  | .destroyMutex => some (s.destroy .mutex, .destroyLleno)
  | .destroyLleno => some (s.destroy .lleno, .destroyVacio)
  | .destroyVacio => some (s.destroy .vacio, .mainExit)
  | .mainExit => none
  | .prodStart => if s.created .producer then some (s, .prodWait 0) else none
  | .prodWait i =>
      if i < params.items ∧ 0 < s.vacio then some ({ s with vacio := s.vacio - 1 }, .prodLock i)
      else none
  | .prodLock i => (s.mutexLock thread).map (·, .prodStore i)
  | .prodStore i =>
      some ({ s with buf := update s.buf (i % params.size) i }, .prodUnlock i)
  | .prodUnlock i => some ({ s with mutex := none }, .prodPost i)
  | .prodPost i => some ({ s with lleno := s.lleno + 1 }, .prodWait (i + 1))
  | .consStart => if s.created .consumer then some (s, .consWait 0) else none
  | .consWait i =>
      if i < params.items ∧ 0 < s.lleno then some ({ s with lleno := s.lleno - 1 }, .consLock i)
      else none
  | .consLock i => (s.mutexLock thread).map (·, .consRead i)
  | .consRead i =>
      some ({ s with readerResults := update s.readerResults i (s.buf (i % params.size)) },
        .consUnlock i)
  | .consUnlock i => some ({ s with mutex := none }, .consPost i)
  | .consPost i => some ({ s with vacio := s.vacio + 1 }, .consWait (i + 1))

abbrev State := System Shared Thread Pc

def start : Thread → Pc
  | .main => .createProducer
  | .producer => .prodStart
  | .consumer => .consStart

/-- The state in which `main` creates the threads. `malloc` leaves the two arrays as they
were in memory. -/
def initial (params : Params) (sinIniciar : (Nat → Int) × (Nat → Int)) : State where
  shared :=
    { buf := sinIniciar.1
      readerResults := sinIniciar.2
      lleno := 0
      vacio := params.size
      mutex := none
      created := fun _ => false
      destroyed := fun _ => false }
  place := start

def step (params : Params) : State → Thread → Option State := act (program params)

inductive Moves (params : Params) (thread : Thread) (s : Shared) : Pc → Shared → Pc → Prop
  | createProducer : Moves params thread s .createProducer (s.create .producer) .createConsumer
  | createConsumer : Moves params thread s .createConsumer (s.create .consumer) .destroyMutex
  | destroyMutex : Moves params thread s .destroyMutex (s.destroy .mutex) .destroyLleno
  | destroyLleno : Moves params thread s .destroyLleno (s.destroy .lleno) .destroyVacio
  | destroyVacio : Moves params thread s .destroyVacio (s.destroy .vacio) .mainExit
  | prodStart (created : s.created .producer = true) :
      Moves params thread s .prodStart s (.prodWait 0)
  | prodWait {i} (more : i < params.items) (available : 0 < s.vacio) :
      Moves params thread s (.prodWait i) { s with vacio := s.vacio - 1 } (.prodLock i)
  | prodLock {i} (unlocked : s.mutex = none) :
      Moves params thread s (.prodLock i) { s with mutex := some thread } (.prodStore i)
  | prodStore {i} : Moves params thread s (.prodStore i)
      { s with buf := update s.buf (i % params.size) i } (.prodUnlock i)
  | prodUnlock {i} :
      Moves params thread s (.prodUnlock i) { s with mutex := none } (.prodPost i)
  | prodPost {i} :
      Moves params thread s (.prodPost i) { s with lleno := s.lleno + 1 } (.prodWait (i + 1))
  | consStart (created : s.created .consumer = true) :
      Moves params thread s .consStart s (.consWait 0)
  | consWait {i} (more : i < params.items) (available : 0 < s.lleno) :
      Moves params thread s (.consWait i) { s with lleno := s.lleno - 1 } (.consLock i)
  | consLock {i} (unlocked : s.mutex = none) :
      Moves params thread s (.consLock i) { s with mutex := some thread } (.consRead i)
  | consRead {i} : Moves params thread s (.consRead i)
      { s with readerResults := update s.readerResults i (s.buf (i % params.size)) }
      (.consUnlock i)
  | consUnlock {i} :
      Moves params thread s (.consUnlock i) { s with mutex := none } (.consPost i)
  | consPost {i} :
      Moves params thread s (.consPost i) { s with vacio := s.vacio + 1 } (.consWait (i + 1))

theorem mutexLock_eq_some {s next : Shared} {thread : Thread} :
    s.mutexLock thread = some next ↔ s.mutex = none ∧ { s with mutex := some thread } = next := by
  simp [Shared.mutexLock]

theorem program_moves {params : Params} {thread : Thread} {s next : Shared} {pc pc' : Pc}
    (moved : program params thread s pc = some (next, pc')) : Moves params thread s pc next pc' := by
  cases pc <;>
    simp only [program, Option.map_eq_some_iff, mutexLock_eq_some, Option.ite_none_right_eq_some,
      Option.some.injEq, Prod.mk.injEq, reduceCtorEq] at moved
  case prodWait | consWait =>
    obtain ⟨⟨more, available⟩, rfl, rfl⟩ := moved
    constructor
    · exact more
    · exact available
  case prodLock | consLock =>
    obtain ⟨_, ⟨unlocked, rfl⟩, rfl, rfl⟩ := moved
    constructor
    exact unlocked
  case prodStart | consStart =>
    obtain ⟨created, rfl, rfl⟩ := moved
    constructor
    exact created
  all_goals
    obtain ⟨rfl, rfl⟩ := moved
    constructor

def Pc.owner : Pc → Thread
  | .createProducer | .createConsumer | .destroyMutex | .destroyLleno | .destroyVacio
  | .mainExit => .main
  | .prodStart | .prodWait _ | .prodLock _ | .prodStore _ | .prodUnlock _ | .prodPost _ => .producer
  | .consStart | .consWait _ | .consLock _ | .consRead _ | .consUnlock _ | .consPost _ => .consumer

theorem moves_owner {params : Params} {thread : Thread} {s next : Shared} {pc pc' : Pc}
    (moves : Moves params thread s pc next pc') : pc'.owner = pc.owner := by
  cases moves <;> rfl

theorem step_owner {params : Params} {s next : State} {thread : Thread}
    (owned : ∀ t, (s.place t).owner = t) (stepped : step params s thread = some next) (t : Thread) :
    (next.place t).owner = t := by
  obtain ⟨shared, place, moved, same⟩ := act_eq_some.mp stepped
  subst same
  by_cases self : t = thread
  · subst t
    simp only [update_self, moves_owner (program_moves moved), owned]
  · simp only [update_of_ne self, owned]

theorem run_owner {params : Params} {sinIniciar : (Nat → Int) × (Nat → Int)} {schedule : List Thread}
    {s : State} (reached : Runs.run (step params) (initial params sinIniciar) schedule = some s)
    (t : Thread) : (s.place t).owner = t := by
  revert t
  refine Runs.run_invariant (fun _ s => ∀ t, (s.place t).owner = t) ?_ ?_ schedule s reached
  · intro t
    cases t <;> rfl
  · intro _ state thread next owned stepped
    exact step_owner owned stepped

end OsLabs.Buffer
