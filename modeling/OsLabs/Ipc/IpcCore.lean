import OsLabs.Proc.ProcClientLocks

/-!
Executable model of the code that waits for other processes and for devices: `pipealloc`,
`pipewrite`, `piperead` and `pipeclose` of `xv6/pipe.c` for one pipe and the descriptors of its ends,
`consoleread` and `consoleintr` of `xv6/console.c`, and `sys_sleep` with the clock of `xv6/trap.c`.
Each function is a sequence of places; a test of `killed`, a wakeup and a call of `sleep` are steps of
their own.
-/

namespace OsLabs.Ipc

open Function Proc

abbrev Byte := BitVec 8

def pipesize : Nat := 512

def inputBuf : Nat := 128

inductive Lock where
  | pipe
  | cons
  | tickslock
deriving DecidableEq, Repr

instance : Fintype Lock := ⟨{.pipe, .cons, .tickslock}, fun l => by cases l <;> decide⟩

/-- The addresses `&p->nread`, `&p->nwrite`, `&input.r` and `&ticks`. -/
inductive Key where
  | nread
  | nwrite
  | inputR
  | ticks
deriving DecidableEq, Repr

structure Pipe where
  data : Fin pipesize → Byte
  nread : BitVec 32
  nwrite : BitVec 32
  readopen : Bool
  writeopen : Bool

def pipeIndex (n : BitVec 32) : Fin pipesize := ⟨n.toNat % pipesize, Nat.mod_lt _ (by decide)⟩

namespace Pipe

variable (p : Pipe)

def empty : Bool := p.nread = p.nwrite

def full : Bool := p.nwrite = p.nread + BitVec.ofNat 32 pipesize

def alloc : Pipe := { p with nread := 0, nwrite := 0, readopen := true, writeopen := true }

def push (byte : Byte) : Pipe :=
  { p with data := update p.data (pipeIndex p.nwrite) byte, nwrite := p.nwrite + 1 }

def front : Byte := p.data (pipeIndex p.nread)

def pop : Pipe := { p with nread := p.nread + 1 }

def close (writable : Bool) : Pipe :=
  if writable then { p with writeopen := false } else { p with readopen := false }

end Pipe

structure Input where
  buf : Fin inputBuf → Byte
  r : BitVec 32
  w : BitVec 32
  e : BitVec 32

def inputIndex (n : BitVec 32) : Fin inputBuf := ⟨n.toNat % inputBuf, Nat.mod_lt _ (by decide)⟩

def control (x : Char) : Byte := BitVec.ofNat 8 (x.toNat - '@'.toNat)

def newline : Byte := BitVec.ofNat 8 '\n'.toNat

namespace Input

/-- Kill line, for at most `fuel` characters. -/
def killLine : Nat → Input → Input
  | 0, input => input
  | fuel + 1, input =>
      if input.e ≠ input.w ∧ input.buf (inputIndex (input.e - 1)) ≠ newline then
        killLine fuel { input with e := input.e - 1 }
      else input

/-- One character in `consoleintr`, and whether the reader is woken. -/
def consoleintr (input : Input) (c : Byte) : Input × Bool :=
  if c = control 'P' then (input, false)
  else if c = control 'U' then (killLine (input.e - input.w).toNat input, false)
  else if c = control 'H' ∨ c = 0x7f then
    (if input.e ≠ input.w then { input with e := input.e - 1 } else input, false)
  else if c ≠ 0 ∧ input.e - input.r < BitVec.ofNat 32 inputBuf then
    let c := if c = BitVec.ofNat 8 '\r'.toNat then newline else c
    let input := { input with buf := update input.buf (inputIndex input.e) c, e := input.e + 1 }
    if c = newline ∨ c = control 'D' ∨ input.e = input.r + BitVec.ofNat 32 inputBuf then
      ({ input with w := input.e }, true)
    else (input, false)
  else (input, false)

end Input

/-- What the code shares. `ends writable p` is the number of descriptors of process `p` for an end of
the pipe, and `allocated` says that the page of the pipe is not free. The last two fields are not in the
program: the bytes stored in the pipe and those delivered from it, since it was made. -/
structure Data where
  pipe : Pipe
  allocated : Bool
  ends : Bool → Slot → Nat
  input : Input
  ticks : BitVec 32
  sent : List Byte
  received : List Byte

def Data.store (d : Data) (byte : Byte) : Data :=
  { d with pipe := d.pipe.push byte, sent := d.sent ++ [byte] }

def Data.setEnds (d : Data) (writable : Bool) (count : Slot → Nat) : Data :=
  { d with ends := update d.ends writable count }

def Data.deliver (d : Data) : Data :=
  { d with pipe := d.pipe.pop, received := d.received ++ [d.pipe.front] }

inductive Place where
  | out
  | ret (value : Int)
  | writeEnter (bytes : List Byte)
  | writeLoop (n : Nat) (bytes : List Byte)
  | writeTest (n : Nat) (byte : Byte) (rest : List Byte)
  | writeWake (n : Nat) (byte : Byte) (rest : List Byte)
  | writeSleep (n : Nat) (byte : Byte) (rest : List Byte)
  | writeStore (n : Nat) (byte : Byte) (rest : List Byte)
  | writeDone (n : Nat)
  | readEnter (n : Nat)
  | readWait (n : Nat)
  | readTest (n : Nat)
  | readSleep (n : Nat)
  | readCopy (i n : Nat)
  | readTake (i n : Nat)
  | readDone (i : Nat)
  | closeEnter (writable : Bool)
  | closeSet (writable : Bool)
  | closeWake (writable : Bool)
  | closeTest
  | closeRelease
  | closeFree
  | pipeRelease (value : Int)
  | consEnter (n : Nat)
  | consLoop (n target : Nat)
  | consWait (n target : Nat)
  | consTest (n target : Nat)
  | consSleep (n target : Nat)
  | consTake (n target : Nat)
  | consRelease (value : Int)
  | tickEnter (n : BitVec 32)
  | tickStart (n : BitVec 32)
  | tickLoop (ticks0 n : BitVec 32)
  | tickTest (ticks0 n : BitVec 32)
  | tickSleep (ticks0 n : BitVec 32)
  | tickRelease (value : Int)
  | keyEnter
  | keyLoop
  | keyWake
  | timerEnter
  | timerAdd
  | timerWake
  | timerRelease
deriving DecidableEq, Repr

/-- The system calls of a process, as far as they are about the pipe, the console and the clock. -/
inductive Call where
  | pipe
  | dup (writable : Bool)
  | close (writable : Bool)
  | write (bytes : List Byte)
  | read (n : Nat)
  | consoleread (n : Nat)
  | sleep (n : BitVec 32)
deriving DecidableEq, Repr

inductive Interrupt where
  | keyboard
  | timer
deriving DecidableEq, Repr

section Code

variable {L K : Type*}

/-- The code of the functions above. `key` is what `getc` gives to `consoleintr`. -/
def next (d : Data) (killed : Bool) (key : Option Byte) :
    Place → Option (Command (Lock ⊕ L) (Key ⊕ K) Data Place)
  | .out => none
  | .ret _ => some (.move d .out)
  -- pipewrite
  | .writeEnter bytes => some (.acquire (.inl .pipe) (.writeLoop bytes.length bytes))
  | .writeLoop n [] => some (.move d (.writeDone n))
  | .writeLoop n (byte :: rest) =>
      some (.move d (if d.pipe.full then .writeTest n byte rest else .writeStore n byte rest))
  | .writeTest n byte rest =>
      some (.move d (if d.pipe.readopen = false ∨ killed then .pipeRelease (-1) else .writeWake n byte rest))
  | .writeWake n byte rest => some (.wakeup (.addr (.inl .nread)) (.writeSleep n byte rest))
  | .writeSleep n byte rest =>
      some (.sleep (.addr (.inl .nwrite)) (.inl .pipe) (.writeLoop n (byte :: rest)))
  | .writeStore n byte rest => some (.move (d.store byte) (.writeLoop n rest))
  | .writeDone n => some (.wakeup (.addr (.inl .nread)) (.pipeRelease n))
  -- piperead
  | .readEnter n => some (.acquire (.inl .pipe) (.readWait n))
  | .readWait n =>
      some (.move d (if d.pipe.empty ∧ d.pipe.writeopen then .readTest n else .readCopy 0 n))
  | .readTest n => some (.move d (if killed then .pipeRelease (-1) else .readSleep n))
  | .readSleep n => some (.sleep (.addr (.inl .nread)) (.inl .pipe) (.readWait n))
  | .readCopy i n => some (.move d (if i < n ∧ d.pipe.empty = false then .readTake i n else .readDone i))
  | .readTake i n => some (.move d.deliver (.readCopy (i + 1) n))
  | .readDone i => some (.wakeup (.addr (.inl .nwrite)) (.pipeRelease i))
  -- pipeclose
  | .closeEnter writable => some (.acquire (.inl .pipe) (.closeSet writable))
  | .closeSet writable => some (.move { d with pipe := d.pipe.close writable } (.closeWake writable))
  | .closeWake writable =>
      some (.wakeup (.addr (.inl (if writable then .nread else .nwrite))) .closeTest)
  | .closeTest =>
      some (.move d (if d.pipe.readopen = false ∧ d.pipe.writeopen = false then .closeRelease
        else .pipeRelease 0))
  | .closeRelease => some (.release (.inl .pipe) .closeFree)
  | .closeFree => some (.move { d with allocated := false } (.ret 0))
  | .pipeRelease value => some (.release (.inl .pipe) (.ret value))
  -- consoleread
  | .consEnter n => some (.acquire (.inl .cons) (.consLoop n n))
  | .consLoop n target =>
      some (.move d (if 0 < n then .consWait n target else .consRelease (target - n)))
  | .consWait n target =>
      some (.move d (if d.input.r = d.input.w then .consTest n target else .consTake n target))
  | .consTest n target => some (.move d (if killed then .consRelease (-1) else .consSleep n target))
  | .consSleep n target => some (.sleep (.addr (.inl .inputR)) (.inl .cons) (.consWait n target))
  | .consTake n target =>
      let c := d.input.buf (inputIndex d.input.r)
      if c = control 'D' then
        if n < target then some (.move d (.consRelease (target - n)))
        else some (.move { d with input := { d.input with r := d.input.r + 1 } } (.consRelease (target - n)))
      else some (.move { d with input := { d.input with r := d.input.r + 1 } }
        (if c = newline then .consRelease (target - (n - 1)) else .consLoop (n - 1) target))
  | .consRelease value => some (.release (.inl .cons) (.ret value))
  -- sys_sleep
  | .tickEnter n => some (.acquire (.inl .tickslock) (.tickStart n))
  | .tickStart n => some (.move d (.tickLoop d.ticks n))
  | .tickLoop ticks0 n =>
      some (.move d (if d.ticks - ticks0 < n then .tickTest ticks0 n else .tickRelease 0))
  | .tickTest ticks0 n => some (.move d (if killed then .tickRelease (-1) else .tickSleep ticks0 n))
  | .tickSleep ticks0 n => some (.sleep (.addr (.inl .ticks)) (.inl .tickslock) (.tickLoop ticks0 n))
  | .tickRelease value => some (.release (.inl .tickslock) (.ret value))
  -- consoleintr
  | .keyEnter => some (.acquire (.inl .cons) .keyLoop)
  | .keyLoop =>
      match key with
      | none => some (.release (.inl .cons) .out)
      | some c => some (.move { d with input := (d.input.consoleintr c).1 }
          (if (d.input.consoleintr c).2 then .keyWake else .keyLoop))
  | .keyWake => some (.wakeup (.addr (.inl .inputR)) .keyLoop)
  -- the clock
  | .timerEnter => some (.acquire (.inl .tickslock) .timerAdd)
  | .timerAdd => some (.move { d with ticks := d.ticks + 1 } .timerWake)
  | .timerWake => some (.wakeup (.addr (.inl .ticks)) .timerRelease)
  | .timerRelease => some (.release (.inl .tickslock) .out)

/-- The start of a system call of process `p`. `fileclose` calls `pipeclose` for the last descriptor. -/
def enter (d : Data) (p : Slot) : Call → Option (Data × Place)
  | .pipe =>
      if d.allocated then none
      else some ({ d with
        pipe := d.pipe.alloc
        allocated := true
        ends := fun writable => update (d.ends writable) p 1
        sent := []
        received := [] }, .ret 0)
  | .dup writable =>
      if 0 < d.ends writable p then
        some (d.setEnds writable (update (d.ends writable) p (d.ends writable p + 1)), .ret 0)
      else none
  | .close writable =>
      if 0 < d.ends writable p then
        let left := update (d.ends writable) p (d.ends writable p - 1)
        some (d.setEnds writable left,
          if ∀ q, left q = 0 then .closeEnter writable else .ret 0)
      else none
  | .write bytes => if 0 < d.ends true p then some (d, .writeEnter bytes) else none
  | .read n => if 0 < d.ends false p then some (d, .readEnter n) else none
  | .consoleread n => some (d, .consEnter n)
  | .sleep n => some (d, .tickEnter n)

def Place.lock : Place → Option (Lock ⊕ L)
  | .writeLoop _ _ | .writeTest _ _ _ | .writeWake _ _ _ | .writeSleep _ _ _ | .writeStore _ _ _
  | .writeDone _ | .readWait _ | .readTest _ | .readSleep _ | .readCopy _ _ | .readTake _ _ | .readDone _
  | .closeSet _ | .closeWake _ | .closeTest | .closeRelease | .pipeRelease _ => some (.inl .pipe)
  | .consLoop _ _ | .consWait _ _ | .consTest _ _ | .consSleep _ _ | .consTake _ _ | .consRelease _
  | .keyLoop | .keyWake => some (.inl .cons)
  | .tickStart _ | .tickLoop _ _ | .tickTest _ _ | .tickSleep _ _ | .tickRelease _
  | .timerAdd | .timerWake | .timerRelease => some (.inl .tickslock)
  | .out | .ret _ | .writeEnter _ | .readEnter _ | .closeEnter _ | .closeFree | .consEnter _ | .tickEnter _
  | .keyEnter | .timerEnter => none

/-- The channel of the wait loop that `sleep` returns to at this place. -/
def Place.rests : Place → Option (Key ⊕ K)
  | .writeLoop _ (_ :: _) => some (.inl .nwrite)
  | .readWait _ => some (.inl .nread)
  | .consWait _ _ => some (.inl .inputR)
  | .tickLoop _ _ => some (.inl .ticks)
  | _ => none

theorem next_fits {d : Data} {killed : Bool} {key : Option Byte} {place : Place}
    {command : Command (Lock ⊕ L) (Key ⊕ K) Data Place} (given : next d killed key place = some command) :
    command.Fits Place.lock Place.rests Sum.isLeft place := by
  cases place with
  | out => simp [next] at given
  | writeLoop n bytes =>
      cases bytes with
      | nil =>
          simp only [next, Option.some.injEq] at given
          subst given
          rfl
      | cons byte rest =>
          simp only [next, Option.some.injEq] at given
          subst given
          simp only [Command.Fits]
          split <;> rfl
  | consTake n target =>
      simp only [next] at given
      split at given
      · split at given
        · obtain rfl := Option.some.inj given
          rfl
        · obtain rfl := Option.some.inj given
          rfl
      · obtain rfl := Option.some.inj given
        simp only [Command.Fits]
        split <;> rfl
  | keyLoop =>
      cases key with
      | none =>
          obtain rfl := Option.some.inj given
          exact ⟨rfl, rfl⟩
      | some c =>
          obtain rfl := Option.some.inj given
          simp only [Command.Fits]
          split <;> rfl
  | writeEnter | readEnter | closeEnter | consEnter | tickEnter | keyEnter | timerEnter =>
      obtain rfl := Option.some.inj given
      exact ⟨rfl, rfl, rfl⟩
  | closeRelease | pipeRelease | consRelease | tickRelease | timerRelease =>
      obtain rfl := Option.some.inj given
      exact ⟨rfl, rfl⟩
  | writeSleep | readSleep | consSleep | tickSleep =>
      obtain rfl := Option.some.inj given
      exact ⟨rfl, rfl, _, rfl, rfl⟩
  | writeTest | readWait | readTest | readCopy | closeTest | consLoop | consWait | consTest | tickLoop | tickTest =>
      obtain rfl := Option.some.inj given
      simp only [Command.Fits]
      split <;> rfl
  | _ =>
      obtain rfl := Option.some.inj given
      rfl

theorem enter_lock {d d' : Data} {p : Slot} {call : Call} {place : Place}
    (given : enter d p call = some (d', place)) : (place.lock : Option (Lock ⊕ L)) = none := by
  cases call with
  | close writable =>
      simp only [enter] at given
      split at given
      · simp only [Option.some.injEq, Prod.mk.injEq] at given
        rw [← given.2]
        split <;> rfl
      · simp at given
  | pipe | dup | write | read =>
      simp only [enter] at given
      split at given <;> simp only [Option.some.injEq, Prod.mk.injEq, reduceCtorEq] at given
      rw [← given.2]
      rfl
  | consoleread | sleep =>
      simp only [enter, Option.some.injEq, Prod.mk.injEq] at given
      rw [← given.2]
      rfl

section Cpu

variable {C : Type*} [DecidableEq C]

/-- The start of an interrupt on CPU `c`; the clock ticks on CPU `bsp`. -/
def handler (bsp c : C) : Interrupt → Option Place
  | .keyboard => some .keyEnter
  | .timer => if c = bsp then some .timerEnter else none

theorem handler_lock {bsp c : C} {interrupt : Interrupt} {place : Place}
    (given : handler bsp c interrupt = some place) : (place.lock : Option (Lock ⊕ L)) = none := by
  cases interrupt with
  | keyboard =>
      obtain rfl := Option.some.inj given
      rfl
  | timer =>
      simp only [handler] at given
      split at given
      · obtain rfl := Option.some.inj given
        rfl
      · simp at given

def ipc (bsp : C) : Client C (Lock ⊕ L) (Key ⊕ K) Data Place (Option Byte) Call Interrupt where
  out := .out
  next := next
  enter := enter
  handler := handler bsp
  fork d p np := { d with ends := fun writable => update (d.ends writable) np (d.ends writable p) }
  mayExit d p := d.ends false p = 0 ∧ d.ends true p = 0
  lock := Place.lock
  rests := Place.rests
  ownsLock := Sum.isLeft
  ownsKey := Sum.isLeft
  lock_out := rfl
  rests_out := rfl
  next_out _ _ _ := rfl
  fits := next_fits
  enter_lock := enter_lock
  handler_lock := handler_lock

end Cpu

end Code

end OsLabs.Ipc
