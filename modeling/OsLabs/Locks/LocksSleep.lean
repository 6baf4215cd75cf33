import OsLabs.Proc.ProcClientLocks

/-!
Executable model of `xv6/sleeplock.c`, as code of processes on top of the process machine: `acquiresleep`,
`releasesleep`, `holdingsleep`, and the callers that check `holdingsleep` before they release (`brelse`, `iunlock`).
There is one sleep lock for each index in `S`; its spin lock and its sleep channel have the same index. A process is
named by its slot in place of its pid.
-/

namespace OsLabs.Locks

open Proc

/-- A `struct sleeplock` without its spin lock. `pid` is the process that holds it. -/
structure Sleeplock where
  locked : Bool
  pid : Option Slot
deriving DecidableEq

/-- The sleep locks. `inside` is not in the program: the process has returned from `acquiresleep` and not called
`releasesleep` since. -/
structure Data (S : Type*) where
  locks : S → Sleeplock
  inside : S → Slot → Bool

/-- Where process `p` is in the code for sleep lock `s`. `unlocks` says that `holdingsleep` was called by `brelse` or
`iunlock`. -/
inductive Place (S : Type*) where
  | out
  | acquireEnter (s : S) (p : Slot)
  | acquireTest (s : S) (p : Slot)
  | acquireSleep (s : S) (p : Slot)
  | acquireSet (s : S) (p : Slot)
  | acquireExit (s : S) (p : Slot)
  | acquireReturn (s : S) (p : Slot)
  | releaseEnter (s : S) (p : Slot)
  | releaseSet (s : S) (p : Slot)
  | releaseWake (s : S) (p : Slot)
  | releaseExit (s : S) (p : Slot)
  | holdingEnter (s : S) (p : Slot) (unlocks : Bool)
  | holdingRead (s : S) (p : Slot) (unlocks : Bool)
  | holdingExit (s : S) (p : Slot) (unlocks r : Bool)
  | holdingReturn (s : S) (p : Slot) (unlocks r : Bool)
deriving DecidableEq

inductive Call (S : Type*) where
  | acquire (s : S)
  | release (s : S)
  | holding (s : S)
  | unlock (s : S)

variable {S L K : Type*} [DecidableEq S]

namespace Data

variable (d : Data S) (s : S)

def setLock (lk : Sleeplock) : Data S := { d with locks := Function.update d.locks s lk }

def setInside (p : Slot) (inside : Bool) : Data S :=
  { d with inside := Function.update d.inside s (Function.update (d.inside s) p inside) }

def blank : Data S := ⟨fun _ => ⟨false, none⟩, fun _ _ => false⟩

end Data

def next (d : Data S) : Place S → Option (Command (S ⊕ L) (S ⊕ K) (Data S) (Place S))
  | .out => none
  -- acquiresleep
  | .acquireEnter s p => some (.acquire (.inl s) (.acquireTest s p))
  | .acquireTest s p => some (.move d (if (d.locks s).locked then .acquireSleep s p else .acquireSet s p))
  | .acquireSleep s p => some (.sleep (.addr (.inl s)) (.inl s) (.acquireTest s p))
  | .acquireSet s p => some (.move (d.setLock s ⟨true, some p⟩) (.acquireExit s p))
  | .acquireExit s p => some (.release (.inl s) (.acquireReturn s p))
  | .acquireReturn s p => some (.move (d.setInside s p true) .out)
  -- releasesleep
  | .releaseEnter s p => some (.acquire (.inl s) (.releaseSet s p))
  | .releaseSet s p => some (.move (d.setLock s ⟨false, none⟩) (.releaseWake s p))
  | .releaseWake s p => some (.wakeup (.addr (.inl s)) (.releaseExit s p))
  | .releaseExit s _ => some (.release (.inl s) .out)
  -- holdingsleep
  | .holdingEnter s p unlocks => some (.acquire (.inl s) (.holdingRead s p unlocks))
  | .holdingRead s p unlocks =>
      some (.move d (.holdingExit s p unlocks ((d.locks s).locked && (d.locks s).pid = some p)))
  | .holdingExit s p unlocks r => some (.release (.inl s) (.holdingReturn s p unlocks r))
  | .holdingReturn _ _ false _ => some (.move d .out)
  | .holdingReturn s p true true => some (.move (d.setInside s p false) (.releaseEnter s p))
  -- The panic of `brelse` or `iunlock`.
  | .holdingReturn _ _ true false => none

/-- The start of a call of process `p`. It calls `releasesleep` without a check only on a lock it has acquired. -/
def enter (d : Data S) (p : Slot) : Call S → Option (Data S × Place S)
  | .acquire s => some (d, .acquireEnter s p)
  | .release s => if d.inside s p then some (d.setInside s p false, .releaseEnter s p) else none
  | .holding s => some (d, .holdingEnter s p false)
  | .unlock s => some (d, .holdingEnter s p true)

namespace Place

def lock : Place S → Option (S ⊕ L)
  | .acquireTest s _ | .acquireSleep s _ | .acquireSet s _ | .acquireExit s _ | .releaseSet s _ | .releaseWake s _
  | .releaseExit s _ | .holdingRead s _ _ | .holdingExit s _ _ _ => some (.inl s)
  | .out | .acquireEnter _ _ | .acquireReturn _ _ | .releaseEnter _ _ | .holdingEnter _ _ _ | .holdingReturn _ _ _ _ =>
      none

def rests : Place S → Option (S ⊕ K)
  | .acquireTest s _ => some (.inl s)
  | _ => none

end Place

theorem next_fits {d : Data S} {place : Place S} {command : Command (S ⊕ L) (S ⊕ K) (Data S) (Place S)}
    (given : next d place = some command) : command.Fits Place.lock Place.rests Sum.isLeft place := by
  cases place with
  | out => cases given
  | acquireEnter | releaseEnter | holdingEnter =>
      obtain rfl := Option.some.inj given
      exact ⟨rfl, rfl, rfl⟩
  | acquireExit | releaseExit | holdingExit =>
      obtain rfl := Option.some.inj given
      exact ⟨rfl, rfl⟩
  | acquireTest =>
      obtain rfl := Option.some.inj given
      simp only [Command.Fits]
      split <;> rfl
  | acquireSleep =>
      obtain rfl := Option.some.inj given
      exact ⟨rfl, rfl, _, rfl, rfl⟩
  | holdingReturn s p unlocks r =>
      cases unlocks <;> cases r <;> cases given <;> rfl
  | _ =>
      obtain rfl := Option.some.inj given
      rfl

theorem enter_lock {d d' : Data S} {p : Slot} {call : Call S} {place : Place S}
    (given : enter d p call = some (d', place)) : (place.lock : Option (S ⊕ L)) = none := by
  cases call with
  | release s =>
      obtain ⟨-, same⟩ := Option.ite_none_right_eq_some.mp given
      cases same
      rfl
  | _ =>
      cases given
      rfl

omit [DecidableEq S] in
theorem no_handler {place : Place S} (given : (none : Option (Place S)) = some place) :
    (place.lock : Option (S ⊕ L)) = none := by
  cases given

/-- The code above as a client of the process machine. No interrupt handler uses a sleep lock, and no process exits with
one. -/
def sleeplocks [Fintype S] (C : Type*) : Client C (S ⊕ L) (S ⊕ K) (Data S) (Place S) Unit (Call S) Unit where
  out := .out
  next d _ _ := next d
  enter := enter
  handler _ _ := none
  fork d _ _ := d
  mayExit d p := decide (∀ s, d.inside s p = false)
  lock := Place.lock
  rests := Place.rests
  ownsLock := Sum.isLeft
  ownsKey := Sum.isLeft
  lock_out := rfl
  rests_out := rfl
  next_out _ _ _ := rfl
  fits := next_fits
  enter_lock := enter_lock
  handler_lock := no_handler

end OsLabs.Locks
