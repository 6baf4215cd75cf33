import OsLabs.Vm.VmCore

/-!
Executable model of `exec.c`, with `loaduvm` and as much of `readi` as it needs. A program is the bytes of the regular
file that `namei` finds, and the strings of `argv` and the path are lists without their final 0. A jump to `bad` is a
result that says what has been taken by then.
-/

namespace OsLabs.Exec

open ByteField Vm

def elfMagic : Nat := 0x464C457F

def elfProgLoad : Nat := 1

def maxarg : Nat := 32

def minus (a b : Nat) : Nat := (a + uintRange - b % uintRange) % uintRange

def field (bytes : List Byte) (offset width : Nat) : Nat := combine ((bytes.drop offset).take width)

structure Elfhdr where
  magic : Nat
  entry : Nat
  phoff : Nat
  phnum : Nat

def Elfhdr.size : Nat := 52

def Elfhdr.read (bytes : List Byte) : Elfhdr := ⟨field bytes 0 4, field bytes 24 4, field bytes 28 4, field bytes 44 2⟩

structure Proghdr where
  type : Nat
  off : Nat
  vaddr : Nat
  filesz : Nat
  memsz : Nat

def Proghdr.size : Nat := 32

def Proghdr.read (bytes : List Byte) : Proghdr :=
  ⟨field bytes 0 4, field bytes 4 4, field bytes 8 4, field bytes 16 4, field bytes 20 4⟩

def readi (file : List Byte) (off n : Nat) : Option (List Byte) :=
  if file.length < off ∨ uintRange ≤ off + n then none else some ((file.drop off).take n)

def readAll (file : List Byte) (off n : Nat) : Option (List Byte) :=
  (readi file off n).filter fun bytes => bytes.length = n

/-- The loop of `loaduvm`. An entry that is not present is 0, and would stand for physical page 0. -/
def loadLoop (s : Space) (addr : Nat) (file : List Byte) (offset sz : Nat) :
    Nat → Nat → Mem → Except Failure (Mem × Bool)
  | 0, _, m => pure (m, true)
  | count + 1, i, m =>
      match s.table (pdx ((addr + i) / pgsize)) with
      | none => .error (.panic "loaduvm: address should exist")
      | some t =>
          let pa := ((t.pte (ptx ((addr + i) / pgsize))).map Pte.frame).getD 0
          let n := min (sz - i) pgsize
          match readi file ((offset + i) % uintRange) n with
          | none => pure (m, false)
          | some bytes =>
              let m := m.write pa 0 bytes
              if bytes.length = n then loadLoop s addr file offset sz count (i + pgsize) m else pure (m, false)

def loaduvm (m : Mem) (s : Space) (addr : Nat) (file : List Byte) (offset sz : Nat) : Except Failure (Mem × Bool) :=
  if addr % pgsize ≠ 0 then .error (.panic "loaduvm: addr must be page aligned")
  else loadLoop s addr file offset sz (pages sz) 0 m

/-- How a part of `exec` ends: it goes on, or it jumps to `bad`. -/
inductive Outcome (α : Type) where
  | next (m : Mem) (s : Space) (value : α)
  | bad (m : Mem) (pgdir : Option Space)

/-- The loop over the program headers, which ends with the size of the image. -/
def loadSegments (k : Kernel) (file : List Byte) : Nat → Nat → Mem → Space → Nat → Except Failure (Outcome Nat)
  | 0, _, m, s, sz => pure (.next m s sz)
  | count + 1, off, m, s, sz =>
      match readAll file off Proghdr.size with
      | none => pure (.bad m (some s))
      | some bytes =>
          let ph := Proghdr.read bytes
          let off := (off + Proghdr.size) % uintRange
          let top := (ph.vaddr + ph.memsz) % uintRange
          if ph.type ≠ elfProgLoad then loadSegments k file count off m s sz
          else if ph.memsz < ph.filesz then pure (.bad m (some s))
          else if top < ph.vaddr then pure (.bad m (some s))
          else do
            let (m, s, sz) ← k.allocuvm m s sz top
            if sz = 0 then pure (.bad m (some s))
            else if ph.vaddr % pgsize ≠ 0 then pure (.bad m (some s))
            else do
              let (m, done) ← loaduvm m s ph.vaddr file ph.off ph.filesz
              if done then loadSegments k file count off m s sz else pure (.bad m (some s))

/-- From the header to the last segment, with the size and the entry point. -/
def loadProgram (k : Kernel) (m : Mem) (file : List Byte) : Except Failure (Outcome (Nat × Nat)) :=
  match readAll file 0 Elfhdr.size with
  | none => pure (.bad m none)
  | some bytes =>
      let elf := Elfhdr.read bytes
      if elf.magic ≠ elfMagic then pure (.bad m none)
      else do
        let (m, pgdir) ← k.setupkvm m
        match pgdir with
        | none => pure (.bad m none)
        | some s => do
            match ← loadSegments k file elf.phnum elf.phoff m s 0 with
            | .bad m pgdir => pure (.bad m pgdir)
            | .next m s sz => pure (.next m s (sz, elf.entry))

@[irreducible] def allocStack (k : Kernel) (m : Mem) (s : Space) (sz : Nat) : Except Failure (Outcome Nat) := do
  let sz := pages sz * pgsize % uintRange
  let (m, s, sz) ← k.allocuvm m s sz ((sz + 2 * pgsize) % uintRange)
  if sz = 0 then pure (.bad m (some s))
  else do
    let s ← clearpteu s (minus sz (2 * pgsize) / pgsize)
    pure (.next m s sz)

/-- The loop that pushes the strings, with `sp` and the pointers in `ustack` so far. -/
def pushArgs (s : Space) : List (List Byte) → Nat → List Nat → Mem → Except Failure (Mem × Option (Nat × List Nat))
  | [], sp, pointers, m => pure (m, some (sp, pointers))
  | arg :: rest, sp, pointers, m =>
      if maxarg ≤ pointers.length then pure (m, none)
      else do
        let sp := minus sp (arg.length + 1) / 4 * 4
        let (m, done) ← copyout m s sp (arg ++ [0])
        if done then pushArgs s rest sp (pointers ++ [sp]) m else pure (m, none)

def words (values : List Nat) : List Byte := values.flatMap (split 4)

def ustack (sp : Nat) (pointers : List Nat) : List Nat :=
  [0xffffffff, pointers.length, minus sp ((pointers.length + 1) * 4)] ++ pointers ++ [0]

/-- The strings and `ustack` on the stack, with the stack pointer. -/
def pushStack (m : Mem) (s : Space) (sz : Nat) (argv : List (List Byte)) : Except Failure (Mem × Option Nat) := do
  let (m, pushed) ← pushArgs s argv sz [] m
  match pushed with
  | none => pure (m, none)
  | some (sp, pointers) => do
      let top := minus sp ((3 + pointers.length + 1) * 4)
      let (m, done) ← copyout m s top (words (ustack sp pointers))
      pure (m, if done then some top else none)

/-- What `exec` takes and gives back of the file system: a place in the log, a reference to the inode and its lock. -/
structure Files where
  ops : Nat
  ref : Nat
  locked : Bool
deriving DecidableEq, Repr

namespace Files

variable (e : Files)

def beginOp : Files := { e with ops := e.ops + 1 }

def endOp : Files := { e with ops := e.ops - 1 }

def namei : Files := { e with ref := e.ref + 1 }

def ilock : Except Failure Files :=
  if e.ref = 0 then .error (.panic "ilock") else .ok { e with locked := true }

def iunlockput : Except Failure Files :=
  if e.locked = false ∨ e.ref = 0 then .error (.panic "iunlock") else .ok { e with locked := false, ref := e.ref - 1 }

end Files

structure Proc where
  space : Space
  sz : Nat
  eip : Nat
  esp : Nat
  name : List Byte

/-- From the header check to the stack pages. The second part of the result says that the inode is still held. -/
def loadImage (k : Kernel) (e : Files) (m : Mem) (file : List Byte) :
    Except Failure (Files × Bool × Outcome (Nat × Nat)) := do
  match ← loadProgram k m file with
  | .bad m pgdir => pure (e, true, .bad m pgdir)
  | .next m s (sz, entry) => do
      let e ← e.iunlockput
      let e := e.endOp
      match ← allocStack k m s sz with
      | .bad m pgdir => pure (e, false, .bad m pgdir)
      | .next m s sz => pure (e, false, .next m s (sz, entry))

def bad (k : Kernel) (e : Files) (held : Bool) (m : Mem) (pgdir : Option Space) : Except Failure (Files × Mem) := do
  let m ← match pgdir with
    | none => pure m
    | some s => k.freevm m s
  if held then do
    let e ← e.iunlockput
    pure (e.endOp, m)
  else pure (e, m)

def lastName (path : List Byte) : List Byte := path.foldl (fun last c => if c = 47 then [] else last ++ [c]) []

/-- `program` is what `namei` finds. -/
def exec (k : Kernel) (e : Files) (m : Mem) (p : Proc) (path : List Byte) (program : Option (List Byte))
    (argv : List (List Byte)) : Except Failure (Files × Mem × Proc × Int) :=
  match program with
  | none => pure (e.beginOp.endOp, m, p, -1)
  | some file => do
      let e ← e.beginOp.namei.ilock
      match ← loadImage k e m file with
      | (e, held, .bad m pgdir) => do
          let (e, m) ← bad k e held m pgdir
          pure (e, m, p, -1)
      | (e, held, .next m s (sz, entry)) => do
          match ← pushStack m s sz argv with
          | (m, none) => do
              let (e, m) ← bad k e held m (some s)
              pure (e, m, p, -1)
          | (m, some sp) => do
              let m ← k.freevm m p.space
              pure (e, m, ⟨s, sz, entry, sp, (lastName path).take 15⟩, 0)

end OsLabs.Exec
