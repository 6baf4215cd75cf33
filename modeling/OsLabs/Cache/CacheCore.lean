import OsLabs.Foundation.LinkedRing
import OsLabs.Log.LogCore

/-!
Executable model of `xv6/bio.c`: the buffers, the ring through `bcache.head`, the sleep lock
of each buffer, and the part of `xv6/ide.c` that `iderw` makes visible. A section under
`bcache.lock` is one step. A panic, like a sleep, is no step.
-/

namespace OsLabs.Cache

open Function OsLabs.Interleaving OsLabs.LinkedRing
open OsLabs.Log (Block maxOpBlocks)

def nbuf : Nat := maxOpBlocks * 3

instance : NeZero nbuf := ⟨by decide⟩

def fsSize : Nat := 1000

structure Buf where
  dev : Nat
  blockno : Nat
  valid : Bool
  dirty : Bool
  refcnt : Nat
  data : Block

/-- The last two fields are not in the program: what the last holder of each block left in
it, and the buffers modified since their last `log_write`, `bwrite` or change of block. -/
structure Bcache (ι : Type*) where
  bufs : Fin nbuf → Buf
  ring : Links (Fin nbuf)
  holder : Fin nbuf → Option ι
  disk : Nat → Nat → Block
  contents : Nat → Nat → Block
  touched : Fin nbuf → Bool

variable {ι : Type*}

def Bcache.setBuf (c : Bcache ι) (b : Fin nbuf) (buf : Buf) : Bcache ι :=
  { c with bufs := update c.bufs b buf }

def binit (disk : Nat → Nat → Block) : Bcache ι where
  bufs := fun _ => ⟨0, 0, false, false, 0, fun _ => 0⟩
  ring := (List.finRange nbuf).foldl Links.insertFront Links.empty
  holder := fun _ => none
  disk
  contents := fun dev => disk (dev % 2)
  touched := fun _ => false

def Buf.caches (dev blockno : Nat) (buf : Buf) : Bool := buf.dev = dev && buf.blockno = blockno

def Buf.unused (buf : Buf) : Bool := buf.refcnt = 0 && !buf.dirty

def Bcache.recycle (c : Bcache ι) (b : Fin nbuf) (dev blockno : Nat) : Bcache ι :=
  { c.setBuf b ⟨dev, blockno, false, false, 1, (c.bufs b).data⟩ with
    touched := update c.touched b false }

def Bcache.bget (c : Bcache ι) (dev blockno : Nat) : Option (Bcache ι × Fin nbuf) :=
  match scan c.ring.next (fun b => (c.bufs b).caches dev blockno) (nbuf + 1) (c.ring.next none) with
  | some b => some (c.setBuf b { c.bufs b with refcnt := (c.bufs b).refcnt + 1 }, b)
  | none =>
      match scan c.ring.prev (fun b => (c.bufs b).unused) (nbuf + 1) (c.ring.prev none) with
      | some b => some (c.recycle b dev blockno, b)
      | none => none

/-- A request to the disk, from `iderw` to the interrupt. The drive is `dev & 1`. -/
def Bcache.iderw (havedisk1 : Bool) (c : Bcache ι) (b : Fin nbuf) : Option (Bcache ι) :=
  let buf := c.bufs b
  if buf.valid ∧ ¬buf.dirty then none
  else if buf.dev ≠ 0 ∧ ¬havedisk1 then none
  else if fsSize ≤ buf.blockno then none
  else if buf.dirty then
    some
      { c.setBuf b { buf with valid := true, dirty := false } with
        disk := update c.disk (buf.dev % 2)
          (update (c.disk (buf.dev % 2)) buf.blockno buf.data) }
  else
    some (c.setBuf b { buf with valid := true, data := c.disk (buf.dev % 2) buf.blockno })

def Bcache.drop (c : Bcache ι) (b : Fin nbuf) : Bcache ι :=
  let c := c.setBuf b { c.bufs b with refcnt := (c.bufs b).refcnt - 1 }
  if (c.bufs b).refcnt = 0 then { c with ring := (c.ring.unlink b).insertFront b } else c

/-- What a process is doing: nothing in this file, or a call on one buffer that waits for
its lock, reads it, or has just unlocked it. -/
inductive Phase where
  | idle
  | locking (b : Fin nbuf)
  | reading (b : Fin nbuf)
  | dropping (b : Fin nbuf)
deriving DecidableEq

/-- `held` are the buffers that `bread` returned and `brelse` has not taken back. -/
structure Proc where
  phase : Phase
  held : Finset (Fin nbuf)

inductive Action where
  | bread (dev blockno : Nat)
  | modify (b : Fin nbuf) (data : Block)
  | logWrite (b : Fin nbuf)
  | bwrite (b : Fin nbuf)
  | brelse (b : Fin nbuf)
  | go

def Bcache.modify (c : Bcache ι) (b : Fin nbuf) (data : Block) : Bcache ι :=
  { c.setBuf b { c.bufs b with data } with
    contents := update c.contents (c.bufs b).dev
      (update (c.contents (c.bufs b).dev) (c.bufs b).blockno data)
    touched := update c.touched b true }

def Bcache.setDirty (c : Bcache ι) (b : Fin nbuf) : Bcache ι :=
  { c.setBuf b { c.bufs b with dirty := true } with touched := update c.touched b false }

def program [DecidableEq ι] (havedisk1 : Bool) : Action → ι → Bcache ι → Proc →
    Option (Bcache ι × Proc)
  | .bread dev blockno, _, c, ⟨.idle, held⟩ =>
      (c.bget dev blockno).map fun next => (next.1, ⟨.locking next.2, held⟩)
  | .modify b data, _, c, ⟨.idle, held⟩ =>
      if b ∈ held then some (c.modify b data, ⟨.idle, held⟩) else none
  | .logWrite b, _, c, ⟨.idle, held⟩ =>
      if b ∈ held then some (c.setDirty b, ⟨.idle, held⟩) else none
  | .bwrite b, p, c, ⟨.idle, held⟩ =>
      if c.holder b = some p then ((c.setDirty b).iderw havedisk1 b).map (·, ⟨.idle, held⟩) else none
  | .brelse b, p, c, ⟨.idle, held⟩ =>
      if c.holder b = some p then
        some ({ c with holder := update c.holder b none }, ⟨.dropping b, held.erase b⟩)
      else none
  | .go, p, c, ⟨.locking b, held⟩ =>
      if (c.holder b).isNone then
        some ({ c with holder := update c.holder b (some p) }, ⟨.reading b, held⟩)
      else none
  | .go, _, c, ⟨.reading b, held⟩ =>
      (if (c.bufs b).valid then some c else c.iderw havedisk1 b).map (·, ⟨.idle, insert b held⟩)
  | .go, _, c, ⟨.dropping b, held⟩ => some (c.drop b, ⟨.idle, held⟩)
  | _, _, _, _ => none

abbrev State (ι : Type*) := System (Bcache ι) ι Proc

def start (disk : Nat → Nat → Block) : State ι := ⟨binit disk, fun _ => ⟨.idle, ∅⟩⟩

def step [DecidableEq ι] (havedisk1 : Bool) (s : State ι) (event : ι × Action) : Option (State ι) :=
  act (program havedisk1 event.2) s event.1

end OsLabs.Cache
