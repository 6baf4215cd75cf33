import OsLabs.Foundation.ByteField
import OsLabs.Foundation.Interleaving

/-!
Executable model of `xv6/log.c` on one device. Processes read and modify blocks in the
buffer cache under the lock of each block, and the cache is given by what it guarantees:
`view` is what `bread` finds in a block, and `disk` changes only in `bwrite`. It has `NBUF`
buffers, and those in use or logged cannot be recycled.
A panic, like a sleep, is no step.
-/

namespace OsLabs.Log

open Function OsLabs.ByteField OsLabs.Interleaving

abbrev Block := Bytes

def maxOpBlocks : Nat := 10

def logSize : Nat := maxOpBlocks * 3

/-- `log.start` and `log.size`: the header block and the log blocks after it. -/
structure Area where
  start : Nat
  size : Nat
  positive : 0 < size

/-- The log that `mkfs` lays out: after the boot block and the superblock, `nlog` blocks. -/
def Area.mkfs : Area := ⟨2, logSize, by decide⟩

def Area.Home (area : Area) (block : Nat) : Prop :=
  (block < area.start ∨ area.start + area.size ≤ block) ∧ block < 256 ^ 4

instance (area : Area) : DecidablePred area.Home := fun _ => inferInstanceAs (Decidable (_ ∧ _))

/-- One update of a transaction: a block and the contents that `log_write` found in it. -/
abbrev Update := Nat × Block

/-- `lh` is the part of `log.lh` in use. The last three fields are not in the program: the
blocks modified since their last `log_write`, the updates of the transaction in memory,
and the transactions whose header has reached the disk. -/
structure Store where
  disk : Nat → Block
  view : Nat → Block
  outstanding : Nat
  committing : Bool
  lh : List Nat
  booted : Bool
  unsaved : Finset Nat
  pending : List Update
  committed : List (List Update)

def encodeHead (lh : List Nat) (data : Block) : Block :=
  storeAll 4 (store 4 data 0 lh.length) 4 lh

def decodeHead (data : Block) : List Nat := loadAll 4 data 4 (load 4 data 0)

/-- The block that a `bread` of the log's own code names. -/
inductive Place where
  | head
  | slot (tail : Nat)
  | home (tail : Nat)
deriving DecidableEq, Repr

def Place.block (area : Area) (lh : List Nat) : Place → Option Nat
  | .head => some area.start
  | .slot tail => some (area.start + tail + 1)
  | .home tail => lh[tail]?

abbrev Regs := Nat → Option Nat

/-- The code of `commit` and `recover_from_log`. `writeLog` and `installTrans` are at the
head of their loops. -/
inductive Instr where
  | bread (r : Nat) (place : Place)
  | copy (target source : Nat)
  | bwrite (r : Nat)
  | brelse (r : Nat)
  | writeLog (tail : Nat)
  | installTrans (tail : Nat)
  | writeHead
  | putHead (r : Nat)
  | bwriteHead (r : Nat)
  | loadHead (r : Nat)
  | clearHead
  | endCommit
  | endBoot
deriving DecidableEq, Repr

def Store.modify (s : Store) (block : Nat) (data : Block) : Store :=
  { s with view := update s.view block data }

def Store.bwrite (s : Store) (block : Nat) : Store :=
  { s with disk := update s.disk block (s.view block) }

def Store.commitPoint (s : Store) : Store :=
  if s.lh = [] then s else { s with pending := [], committed := s.committed ++ [s.pending] }

def exec (area : Area) : Instr → Store × Regs → Option ((Store × Regs) × List Instr)
  | .bread r place, (s, regs) =>
      (place.block area s.lh).map fun block => ((s, update regs r (some block)), [])
  | .copy target source, (s, regs) =>
      (regs target).bind fun toBlock => (regs source).map fun fromBlock =>
        ((s.modify toBlock (s.view fromBlock), regs), [])
  | .bwrite r, (s, regs) => (regs r).map fun block => ((s.bwrite block, regs), [])
  | .brelse r, (s, regs) => some ((s, update regs r none), [])
  | .writeLog tail, (s, regs) =>
      if tail < s.lh.length then
        some ((s, regs), [.bread 0 (.slot tail), .bread 1 (.home tail), .copy 0 1, .bwrite 0,
          .brelse 1, .brelse 0, .writeLog (tail + 1)])
      else some ((s, regs), [])
  | .installTrans tail, (s, regs) =>
      if tail < s.lh.length then
        some ((s, regs), [.bread 0 (.slot tail), .bread 1 (.home tail), .copy 1 0, .bwrite 1,
          .brelse 0, .brelse 1, .installTrans (tail + 1)])
      else some ((s, regs), [])
  | .writeHead, (s, regs) =>
      some ((s, regs), [.bread 0 .head, .putHead 0, .bwriteHead 0, .brelse 0])
  | .putHead r, (s, regs) =>
      (regs r).map fun block => ((s.modify block (encodeHead s.lh (s.view block)), regs), [])
  | .bwriteHead r, (s, regs) =>
      (regs r).map fun block => (((s.bwrite block).commitPoint, regs), [])
  | .loadHead r, (s, regs) =>
      (regs r).map fun block => (({ s with lh := decodeHead (s.view block) }, regs), [])
  | .clearHead, (s, regs) => some (({ s with lh := [] }, regs), [])
  | .endCommit, (s, regs) => some (({ s with committing := false }, regs), [])
  | .endBoot, (s, regs) => some (({ s with booted := true }, regs), [])

def commit (lh : List Nat) : List Instr :=
  (if 0 < lh.length then [.writeLog 0, .writeHead, .installTrans 0, .clearHead, .writeHead] else []) ++
    [.endCommit]

def recoverFromLog : List Instr :=
  [.bread 0 .head, .loadHead 0, .brelse 0, .installTrans 0, .clearHead, .writeHead, .endBoot]

/-- The test of `log_write`, made before it takes `log.lock`. -/
def Store.TooBig (area : Area) (s : Store) : Prop :=
  logSize ≤ s.lh.length ∨ area.size - 1 ≤ s.lh.length

instance (area : Area) (s : Store) : Decidable (s.TooBig area) := inferInstanceAs (Decidable (_ ∨ _))

def Store.beginOp (s : Store) : Option Store :=
  if s.committing = false ∧ s.lh.length + (s.outstanding + 1) * maxOpBlocks ≤ logSize then
    some { s with outstanding := s.outstanding + 1 }
  else none

/-- The first part of `end_op`, and whether it goes on to commit. -/
def Store.endOp (s : Store) : Option (Store × Bool) :=
  if s.committing then none
  else if s.outstanding - 1 = 0 then some ({ s with outstanding := 0, committing := true }, true)
  else some ({ s with outstanding := s.outstanding - 1 }, false)

/-- The part of `log_write` under `log.lock`. There is no step past the end of `log.lh.block`. -/
def Store.logAppend (s : Store) (block : Nat) : Option Store :=
  if block ∈ s.lh then
    some { s with
      unsaved := s.unsaved.erase block
      pending := s.pending ++ [(block, s.view block)] }
  else if s.lh.length < logSize then
    some { s with
      lh := s.lh ++ [block]
      unsaved := s.unsaved.erase block
      pending := s.pending ++ [(block, s.view block)] }
  else none

def nbuf : Nat := maxOpBlocks * 3

/-- The blocks whose buffers have references, and those whose buffers are marked `B_DIRTY`. -/
structure Buffers where
  referenced : Finset Nat
  dirty : Finset Nat

/-- `bget` finds the block in a buffer or a buffer to recycle; otherwise it panics. -/
def Buffers.Finds (buffers : Buffers) (block : Nat) : Prop :=
  block ∈ buffers.referenced ∪ buffers.dirty ∨ (buffers.referenced ∪ buffers.dirty).card < nbuf

instance (buffers : Buffers) (block : Nat) : Decidable (buffers.Finds block) :=
  inferInstanceAs (Decidable (_ ∨ _))

structure Shared (ι : Type*) where
  store : Store
  holder : Nat → Option ι
  buffers : Buffers

/-- A process: the blocks it holds, the block of a `log_write` that has passed its test,
whether it is inside an operation, what is left of a commit or a recovery, and the
blocks it has logged since `begin_op`. -/
structure Proc where
  regs : Regs
  appending : Option Nat
  inOp : Bool
  script : List Instr
  written : List Nat

def Proc.fresh : Proc := ⟨fun _ => none, none, false, [], []⟩

inductive Call where
  | bread (r block : Nat)
  | modify (r : Nat) (data : Block)
  | logWrite (r : Nat)
  | brelse (r : Nat)
  | beginOp
  | endOp

inductive Action where
  | call (call : Call)
  | go

variable {ι : Type*}

def Shared.acquire (s : Shared ι) (p : ι) (block : Nat) : Option (Shared ι) :=
  if (s.holder block).isNone then
    some { s with holder := update s.holder block (some p) }
  else none

def Shared.release (s : Shared ι) (block : Nat) : Shared ι :=
  { s with holder := update s.holder block none }

def Shared.bget (s : Shared ι) (p : ι) (block : Nat) : Option (Shared ι) :=
  if s.buffers.Finds block then
    (s.acquire p block).map fun s =>
      { s with buffers := { s.buffers with referenced := insert block s.buffers.referenced } }
  else none

def Shared.brelse (s : Shared ι) (block : Nat) : Shared ι :=
  { s.release block with buffers := { s.buffers with referenced := s.buffers.referenced.erase block } }

def Shared.pin (s : Shared ι) (block : Nat) : Shared ι :=
  { s with buffers := { s.buffers with dirty := insert block s.buffers.dirty } }

def Shared.unpin (s : Shared ι) (block : Nat) : Shared ι :=
  { s with buffers := { s.buffers with dirty := s.buffers.dirty.erase block } }

/-- What an instruction does to the locks and the buffers. -/
def Shared.locked (area : Area) (s : Shared ι) (p : ι) (regs : Regs) : Instr → Option (Shared ι)
  | .bread _ place => (place.block area s.store.lh).bind (s.bget p)
  | .brelse r => (regs r).map s.brelse
  | .bwrite r | .bwriteHead r => (regs r).map s.unpin
  | _ => some s

def program (area : Area) : Action → ι → Shared ι → Proc → Option (Shared ι × Proc)
  | .call c, p, s, proc =>
      if proc.appending.isSome ∨ proc.script ≠ [] ∨ s.store.booted = false then none else
      match c with
      | .bread r block =>
          (s.bget p block).map (·, { proc with regs := update proc.regs r (some block) })
      | .modify r data =>
          (proc.regs r).map fun block =>
            ({ s with
                store :=
                  { s.store.modify block data with
                    unsaved := insert block s.store.unsaved } }, proc)
      | .logWrite r =>
          (proc.regs r).bind fun block =>
            if s.store.TooBig area ∨ s.store.outstanding < 1 then none
            else some (s, { proc with appending := some block })
      | .brelse r =>
          (proc.regs r).map fun block =>
            (s.brelse block, { proc with regs := update proc.regs r none })
      | .beginOp =>
          s.store.beginOp.map fun store =>
            ({ s with store }, { proc with inOp := true, written := [] })
      | .endOp =>
          s.store.endOp.map fun next =>
            ({ s with store := next.1 },
              { proc with inOp := false, script := if next.2 then commit s.store.lh else [] })
  | .go, p, s, proc =>
      match proc.appending, proc.script with
      | some block, _ =>
          (s.store.logAppend block).map fun store =>
            ({ s.pin block with store },
              { proc with appending := none, written := proc.written.insert block })
      | none, [] => none
      | none, instr :: rest =>
          (s.locked area p proc.regs instr).bind fun s' =>
            (exec area instr (s'.store, proc.regs)).map fun next =>
              ({ s' with store := next.1.1 },
                { proc with regs := next.1.2, script := next.2 ++ rest })

abbrev State (ι : Type*) := System (Shared ι) ι Proc

variable [DecidableEq ι]

/-- The machine after a reset: only the disk is left, and process `p` runs `initlog`. -/
def boot (disk : Nat → Block) (committed : List (List Update)) (p : ι) : State ι where
  shared :=
    { store :=
        { disk
          view := disk
          outstanding := 0
          committing := false
          lh := []
          booted := false
          unsaved := ∅
          pending := []
          committed }
      holder := fun _ => none
      buffers := ⟨∅, ∅⟩ }
  place := update (fun _ => Proc.fresh) p { Proc.fresh with script := recoverFromLog }

inductive Event (ι : Type*) where
  | call (p : ι) (call : Call)
  | go (p : ι)
  | crash (p : ι)

def step (area : Area) (s : State ι) : Event ι → Option (State ι)
  | .call p c => act (program area (.call c)) s p
  | .go p => act (program area .go) s p
  | .crash p => some (boot s.shared.store.disk s.shared.store.committed p)

end OsLabs.Log
