import OsLabs.Foundation.Outcomes
import OsLabs.Proc.ProcCore

/-!
Executable model of open files: `ftable` of `xv6/file.c`, the `ofile` tables of the processes, and the
system calls that change them, each as one step. `kalloc`, `namei` and `create` give what they give: their
results are arguments.
-/

namespace OsLabs.Files

open Function Proc

def nofile : Nat := 16

def nfile : Nat := 100

abbrev FileSlot := Fin nfile

abbrev Fd := Fin nofile

inductive FileType where
  | none
  | pipe
  | inode
deriving DecidableEq, Repr

/-- `struct file`. A pipe is known by a number and an inode by its place in the cache. -/
structure File where
  type : FileType
  ref : Nat
  readable : Bool
  writable : Bool
  pipe : Nat
  ip : Nat
  off : BitVec 32
deriving DecidableEq, Repr

/-- What a file has been opened on, and gives back by `iput` or `pipeclose`. -/
inductive Object where
  | inode (ip : Nat)
  | pipe (pipe : Nat) (writable : Bool)
deriving DecidableEq, Repr

def File.object (f : File) : Option Object :=
  match f.type with
  | .none => none
  | .pipe => some (.pipe f.pipe f.writable)
  | .inode => some (.inode f.ip)

inductive Life where
  | unused
  | live
  | zombie
deriving DecidableEq, Repr

inductive Panic where
  | filedup
  | fileclose
  | initExiting
deriving DecidableEq, Repr

/-- `ofile (p, fd)` is `ofile[fd]` of process `p`. The last five fields are not in the program: the number of
pipes made, and a number for each file that `filealloc` has given away, with what it was opened on and the
calls of `iput` and `pipeclose` made for it. -/
structure State where
  ftable : FileSlot → File
  ofile : Slot × Fd → Option FileSlot
  life : Slot → Life
  pipes : Nat
  serial : FileSlot → Nat
  allocated : Nat
  opened : Nat → Option Object
  released : List (Nat × Object)

def boot : State where
  ftable _ := ⟨.none, 0, false, false, 0, 0, 0⟩
  ofile _ := none
  life p := if p = initproc then .live else .unused
  pipes := 0
  serial _ := 0
  allocated := 0
  opened _ := none
  released := []

namespace State

variable (s : State) (p : Slot) (f : FileSlot)

def setFile (file : File) : State := { s with ftable := update s.ftable f file }

def setFd (fd : Fd) (entry : Option FileSlot) : State :=
  { s with ofile := update s.ofile (p, fd) entry }

def release (k : Nat) (object : Object) : State := { s with released := s.released ++ [(k, object)] }

def openOn (k : Nat) (object : Object) : State := { s with opened := update s.opened k (some object) }

def filealloc : Option (FileSlot × State) :=
  ((List.finRange nfile).find? fun f => (s.ftable f).ref = 0).map fun f =>
    (f, { s.setFile f { s.ftable f with ref := 1 } with
      serial := update s.serial f s.allocated
      allocated := s.allocated + 1 })

def filedup : Except Panic State :=
  if (s.ftable f).ref < 1 then .error .filedup
  else .ok (s.setFile f { s.ftable f with ref := (s.ftable f).ref + 1 })

def fileclose : Except Panic State :=
  if (s.ftable f).ref < 1 then .error .fileclose
  else if 0 < (s.ftable f).ref - 1 then .ok (s.setFile f { s.ftable f with ref := (s.ftable f).ref - 1 })
  else
    let ff := s.ftable f
    let s := s.setFile f { ff with ref := 0, type := .none }
    match ff.type with
    | .pipe => .ok (s.release (s.serial f) (.pipe ff.pipe ff.writable))
    | .inode => .ok (s.release (s.serial f) (.inode ff.ip))
    | .none => .ok s

def fdalloc : Option (Fd × State) :=
  ((List.finRange nofile).find? fun fd => s.ofile (p, fd) = none).map fun fd => (fd, s.setFd p fd (some f))

def argfd (fd : Int) : Option (Fd × FileSlot) :=
  if bound : 0 ≤ fd ∧ fd < nofile then
    let fd : Fd := ⟨fd.toNat, by omega⟩
    (s.ofile (p, fd)).map fun f => (fd, f)
  else none

def sysDup (fd : Int) : Except Panic (State × Option Fd) :=
  match s.argfd p fd with
  | none => pure (s, none)
  | some (_, f) =>
      match s.fdalloc p f with
      | none => pure (s, none)
      | some (fd, s) => do
          let s ← s.filedup f
          pure (s, some fd)

def sysClose (fd : Int) : Except Panic (State × Bool) :=
  match s.argfd p fd with
  | none => pure (s, false)
  | some (fd, f) => do
      let s ← (s.setFd p fd none).fileclose f
      pure (s, true)

def oWronly : BitVec 32 := 1

def oRdwr : BitVec 32 := 2

def inodeFile (file : File) (ip : Nat) (omode : BitVec 32) : File :=
  { file with
    type := .inode
    ip := ip
    off := 0
    readable := (omode &&& oWronly) = 0
    writable := (omode &&& oWronly) ≠ 0 ∨ (omode &&& oRdwr) ≠ 0 }

/-- `found` is the inode of `create` or `namei`, unless it is a directory that may not be opened so. -/
def sysOpen (found : Option Nat) (omode : BitVec 32) : Except Panic (State × Option Fd) :=
  match found with
  | none => pure (s, none)
  | some ip =>
      match s.filealloc with
      | none => pure (s, none)
      | some (f, s) =>
          match s.fdalloc p f with
          | none => do
              let closed ← s.fileclose f
              -- iunlockput(ip)
              pure ((closed.openOn (s.serial f) (.inode ip)).release (s.serial f) (.inode ip), none)
          | some (fd, s) =>
              pure ((s.setFile f (inodeFile (s.ftable f) ip omode)).openOn (s.serial f) (.inode ip), some fd)

def pipeFile (file : File) (pipe : Nat) (writable : Bool) : File :=
  { file with type := .pipe, readable := !writable, writable := writable, pipe := pipe }

def openEnd (writable : Bool) : State :=
  (s.setFile f (pipeFile (s.ftable f) s.pipes writable)).openOn (s.serial f) (.pipe s.pipes writable)

/-- `memory` is the outcome of `kalloc`. -/
def pipealloc (memory : Bool) : Except Panic (State × Option (FileSlot × FileSlot)) :=
  match s.filealloc with
  | none => pure (s, none)
  | some (f0, s) =>
      match s.filealloc with
      | none => do
          let s ← s.fileclose f0
          pure (s, none)
      | some (f1, s) =>
          if memory then
            pure ({ (s.openEnd f0 false).openEnd f1 true with pipes := s.pipes + 1 }, some (f0, f1))
          else do
            let s ← s.fileclose f0
            let s ← s.fileclose f1
            pure (s, none)

/-- `valid` says that the argument is an address of the process. -/
def sysPipe (valid memory : Bool) : Except Panic (State × Option (Fd × Fd)) := do
  if valid then
    let (s, ends) ← s.pipealloc memory
    match ends with
    | none => pure (s, none)
    | some (rf, wf) =>
        match s.fdalloc p rf with
        | none =>
            let s ← s.fileclose rf
            let s ← s.fileclose wf
            pure (s, none)
        | some (fd0, s) =>
            match s.fdalloc p wf with
            | none =>
                let s ← (s.setFd p fd0 none).fileclose rf
                let s ← s.fileclose wf
                pure (s, none)
            | some (fd1, s) => pure (s, some (fd0, fd1))
  else pure (s, none)

def dupFd (np : Slot) (fd : Fd) : Except Panic State :=
  match s.ofile (p, fd) with
  | none => pure s
  | some f => do
      let s ← s.filedup f
      pure (s.setFd np fd (some f))

/-- `memory` is the outcome of `kalloc` and `copyuvm`. -/
def fork (memory : Bool) : Except Panic (State × Option Slot) :=
  match (List.finRange nproc).find? fun q => s.life q = .unused with
  | none => pure (s, none)
  | some np =>
      if memory then do
        let s ← (List.finRange nofile).foldlM (fun s fd => s.dupFd p np fd) s
        pure ({ s with life := update s.life np .live }, some np)
      else pure (s, none)

def closeFd (fd : Fd) : Except Panic State :=
  match s.ofile (p, fd) with
  | none => pure s
  | some f => do
      let s ← s.fileclose f
      pure (s.setFd p fd none)

def exit : Except Panic State :=
  if p = initproc then .error .initExiting
  else do
    let s ← (List.finRange nofile).foldlM (fun s fd => s.closeFd p fd) s
    pure { s with life := update s.life p .zombie }

end State

inductive Call where
  | open' (found : Option Nat) (omode : BitVec 32)
  | dup (fd : Int)
  | close (fd : Int)
  | pipe (valid memory : Bool)
  | fork (memory : Bool)
  | exit
  | wait (zombie : Slot)
deriving DecidableEq, Repr

def State.call (s : State) (p : Slot) : Call → Except Panic State
  | .open' found omode => Prod.fst <$> s.sysOpen p found omode
  | .dup fd => Prod.fst <$> s.sysDup p fd
  | .close fd => Prod.fst <$> s.sysClose p fd
  | .pipe valid memory => Prod.fst <$> s.sysPipe p valid memory
  | .fork memory => Prod.fst <$> s.fork p memory
  | .exit => s.exit p
  | .wait q => if s.life q = .zombie then pure { s with life := update s.life q .unused } else pure s

def step (s : State) (event : Slot × Call) : Option State :=
  if s.life event.1 = .live then (s.call event.1 event.2).toOption else none

end OsLabs.Files
