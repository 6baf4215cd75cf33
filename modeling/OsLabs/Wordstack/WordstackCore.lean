import OsLabs.Foundation.FlatArray
import OsLabs.Foundation.Interleaving

/-!
Executable model of `lab-05/wordstack.c`: any number of `-w` and `-r` processes on one
shared stack. A process moves from one access to shared data to the next; the loops
over a row run inside the mutex, and are one step.
-/

namespace OsLabs.Wordstack

open OsLabs.FlatArray OsLabs.Interleaving

def maxItems : Nat := 3

def maxWord : Nat := 50

inductive Op where
  | push (row : Int) (word : List Char)
  | pop (row : Int) (word : List Char)
deriving DecidableEq, Repr

/-- The shared segment. `heap` is in one line, as in memory: a word longer than a row
runs into the next one. The `log` is not in the program. -/
structure Shared (ι : Type*) where
  free : Int
  items : Int
  mutex : Option ι
  full : Nat
  empty : Nat
  heap : Int → Char
  log : List Op

/-- What a process does next. A `-r` process carries `wordIndex` from the moment it reads
`free`, with the value it read, and the word once it has copied it. -/
inductive Pc where
  | pushWait (word : List Char)
  | pushLock (word : List Char)
  | pushCopy (word : List Char)
  | pushItems
  | pushFree
  | pushUnlock
  | pushPost
  | pushDone
  | popRead
  | popWait (read wordIndex : Int)
  | popLock (read wordIndex : Int)
  | popCopy (read wordIndex : Int)
  | popItems (word : List Char)
  | popFree (word : List Char)
  | popUnlock (word : List Char)
  | popPost (word : List Char)
  | popDone (word : List Char)
deriving DecidableEq, Repr

inductive Command where
  | w (palabra : List Char)
  | r
deriving DecidableEq, Repr

def Command.start : Command → Pc
  | .w palabra => .pushWait palabra
  | .r => .popRead

variable {ι : Type*}

def Shared.semWaitEmpty (s : Shared ι) : Option (Shared ι) :=
  if 0 < s.empty then some { s with empty := s.empty - 1 } else none

def Shared.semWaitFull (s : Shared ι) : Option (Shared ι) :=
  if 0 < s.full then some { s with full := s.full - 1 } else none

def Shared.mutexLock (s : Shared ι) (i : ι) : Option (Shared ι) :=
  if s.mutex = none then some { s with mutex := some i } else none

def wordIndexOf (free : Int) : Int := if free - 1 = -1 then 0 else free - 1

def rowStart (row : Int) : Int := row * maxWord

def readRow (heap : Int → Char) (row : Int) : List Char := readFrom heap (rowStart row) maxWord

def Shared.copyIn (s : Shared ι) (palabra : List Char) : Shared ι :=
  { s with
    heap := writeFrom s.heap (rowStart s.free) palabra
    log := s.log ++ [.push s.free palabra] }

/-- The copy loop of `-r`, which leaves spaces in the row. -/
def Shared.copyOut (s : Shared ι) (wordIndex : Int) : List Char × Shared ι :=
  let taken := takeFrom ' ' s.heap (rowStart wordIndex) maxWord
  (taken.1, { s with heap := taken.2, log := s.log ++ [.pop wordIndex taken.1] })

def program (i : ι) (s : Shared ι) : Pc → Option (Shared ι × Pc)
  | .pushWait word => s.semWaitEmpty.map (·, .pushLock word)
  | .pushLock word => (s.mutexLock i).map (·, .pushCopy word)
  | .pushCopy word => some (s.copyIn word, .pushItems)
  | .pushItems => some ({ s with items := s.items + 1 }, .pushFree)
  | .pushFree => some ({ s with free := s.free + 1 }, .pushUnlock)
  | .pushUnlock => some ({ s with mutex := none }, .pushPost)
  | .pushPost => some ({ s with full := s.full + 1 }, .pushDone)
  | .pushDone => none
  | .popRead => some (s, .popWait s.free (wordIndexOf s.free))
  | .popWait read wordIndex => s.semWaitFull.map (·, .popLock read wordIndex)
  | .popLock read wordIndex => (s.mutexLock i).map (·, .popCopy read wordIndex)
  | .popCopy _ wordIndex => some ((s.copyOut wordIndex).2, .popItems (s.copyOut wordIndex).1)
  | .popItems word => some ({ s with items := s.items - 1 }, .popFree word)
  | .popFree word => some ({ s with free := s.free - 1 }, .popUnlock word)
  | .popUnlock word => some ({ s with mutex := none }, .popPost word)
  | .popPost word => some ({ s with empty := s.empty + 1 }, .popDone word)
  | .popDone _ => none

/-- What `-c` leaves in a new segment, whose bytes are zero. -/
def created : Shared ι where
  free := 0
  items := 0
  mutex := none
  full := 0
  empty := maxItems
  heap := fun _ => Char.ofNat 0
  log := []

abbrev State (ι : Type*) := System (Shared ι) ι Pc

def initial (commands : ι → Command) : State ι where
  shared := created
  place := fun i => (commands i).start

def step [DecidableEq ι] : State ι → ι → Option (State ι) := act program

end OsLabs.Wordstack
