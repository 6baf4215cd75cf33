import Mathlib.Algebra.Order.Ring.Int
import Mathlib.Data.Fintype.Basic
import OsLabs.Foundation.Cyclic
import OsLabs.Foundation.Runs

/-!
Executable model of the thread table of `xv6/uthreadlib.c`: the state of each slot,
the running thread and the position where the last search stopped. A thread
pointer is the index of its slot in `all_thread`.
-/

namespace OsLabs.Uthread

open OsLabs.Cyclic

def maxThread : Nat := 8

instance : NeZero maxThread := ⟨by decide⟩

inductive ThreadState where
  | free
  | running
  | runnable
deriving DecidableEq, Repr

structure Threads where
  state : Fin maxThread → ThreadState
  currentThread : Fin maxThread
  lastIndex : Fin maxThread

def threadInit : Threads where
  state := Function.update (fun _ => .free) 0 .running
  currentThread := 0
  lastIndex := 0

def Threads.candidate (s : Threads) (t : Fin maxThread) : Bool :=
  s.state t == .runnable && t != s.currentThread

def Threads.searchLoop (s : Threads) : Fin maxThread × Option (Fin maxThread) :=
  search s.candidate s.lastIndex (maxThread - 1) 1 s.lastIndex

def Threads.nextThread (s : Threads) : Option (Fin maxThread) :=
  if maxThread ≤ s.searchLoop.1.val ∧ s.state s.currentThread = .runnable then
    some s.currentThread
  else s.searchLoop.2

def Threads.threadSwitch (s : Threads) (next : Fin maxThread) : Threads :=
  { s with currentThread := next }

def Threads.searched (s : Threads) : Threads :=
  { s with lastIndex := s.searchLoop.2.getD s.lastIndex }

/-- With no `next_thread` it prints "no runnable threads" and falls back on slot 0. -/
def Threads.target (s : Threads) : Fin maxThread := s.nextThread.getD 0

def Threads.setState (s : Threads) (t : Fin maxThread) (state : ThreadState) : Threads :=
  { s with state := Function.update s.state t state }

def Threads.threadSchedule (s : Threads) : Threads :=
  if s.currentThread ≠ s.target then
    (s.searched.setState s.target .running).threadSwitch s.target
  else s.searched

/-- The slot that `thread_create` takes. With no free slot the program writes past the
end of the table, which the model does not follow. -/
def Threads.freeSlot (s : Threads) : Option (Fin maxThread) :=
  Fin.find? fun t => s.state t == .free

def Threads.threadCreate (s : Threads) : Option Threads :=
  s.freeSlot.map fun t => s.setState t .runnable

def Threads.setCurrent (s : Threads) (state : ThreadState) : Threads :=
  s.setState s.currentThread state

def Threads.threadYield (s : Threads) : Threads := (s.setCurrent .runnable).threadSchedule

def Threads.threadExit (s : Threads) : Threads := (s.setCurrent .free).threadSchedule

inductive Call where
  | create
  | yield
  | exit
  | schedule
deriving DecidableEq, Repr

def Threads.step (s : Threads) : Call → Option Threads
  | .create => s.threadCreate
  | .yield => some s.threadYield
  | .exit => some s.threadExit
  | .schedule => some s.threadSchedule

/-- The table as `thread_schedule` finds it on entry, for the calls that reach it. -/
def Threads.entering (s : Threads) : Call → Option Threads
  | .create => none
  | .yield => some (s.setCurrent .runnable)
  | .exit => some (s.setCurrent .free)
  | .schedule => some s

def Threads.selects (s : Threads) (call : Call) : Option (Fin maxThread) :=
  (s.entering call).bind fun entered => entered.searchLoop.2

def Threads.selections : Threads → List Call → List (Fin maxThread)
  | _, [] => []
  | s, call :: rest =>
      (s.selects call).toList ++ ((s.step call).map (·.selections rest)).getD []

theorem step_eq_of_entering {s entered : Threads} {call : Call}
    (enters : s.entering call = some entered) : s.step call = some entered.threadSchedule := by
  cases call with
  | create => simp [Threads.entering] at enters
  | yield | exit | schedule =>
      simp only [Threads.entering, Option.some.injEq] at enters
      rw [← enters]
      rfl

theorem step_eq_of_entering_none {s next : Threads} {call : Call} (outside : s.entering call = none)
    (stepped : s.step call = some next) :
    ∃ t, s.freeSlot = some t ∧ next = s.setState t .runnable := by
  cases call with
  | create =>
      obtain ⟨t, free, filled⟩ := Option.map_eq_some_iff.mp stepped
      exact ⟨t, free, filled.symm⟩
  | yield | exit | schedule => simp [Threads.entering] at outside

theorem setCurrent_state_of_ne {s : Threads} {t : Fin maxThread} (other : t ≠ s.currentThread)
    (state : ThreadState) : (s.setCurrent state).state t = s.state t :=
  Function.update_of_ne other _ _

theorem entering_frame {s entered : Threads} {call : Call} (enters : s.entering call = some entered) :
    entered.currentThread = s.currentThread ∧ entered.lastIndex = s.lastIndex ∧
      ∀ t, t ≠ s.currentThread → entered.state t = s.state t := by
  cases call with
  | create => simp [Threads.entering] at enters
  | yield | exit =>
      simp only [Threads.entering, Option.some.injEq] at enters
      subst entered
      exact ⟨rfl, rfl, fun t other => setCurrent_state_of_ne other _⟩
  | schedule =>
      simp only [Threads.entering, Option.some.injEq] at enters
      subst entered
      exact ⟨rfl, rfl, fun _ _ => rfl⟩

/-- The end-of-table test never holds: the loop leaves `t` inside the table. -/
theorem nextThread_eq (s : Threads) : s.nextThread = s.searchLoop.2 := by
  have inside := s.searchLoop.1.isLt
  rw [Threads.nextThread, if_neg]
  rintro ⟨past, _⟩
  omega

theorem searchLoop_eq (s : Threads) : s.searchLoop.2 = firstAfter s.candidate s.lastIndex := rfl

theorem candidate_iff (s : Threads) (t : Fin maxThread) :
    s.candidate t = true ↔ s.state t = .runnable ∧ t ≠ s.currentThread := by
  simp [Threads.candidate]

theorem threadSchedule_current (s : Threads) :
    s.threadSchedule.currentThread = s.searchLoop.2.getD 0 := by
  rw [Threads.threadSchedule, Threads.target, nextThread_eq]
  split
  next => rfl
  next same => exact not_not.mp same

theorem threadSchedule_lastIndex (s : Threads) :
    s.threadSchedule.lastIndex = s.searchLoop.2.getD s.lastIndex := by
  rw [Threads.threadSchedule]
  split <;> rfl

end OsLabs.Uthread
