import OsLabs.Fs.FsLayout

/-!
Executable model of the block and inode layers of `xv6/fs.c`. Blocks are what the buffer cache
and the log present to them, and a call on a locked inode runs to its end. There is one device.
A panic ends the kernel and is kept apart from the other results by its message.
-/

namespace OsLabs.Fs

open Function OsLabs.ByteField

inductive Panic
  | outOfBlocks
  | freeingFree
  | noInodes
  | igetNoInodes
  | ilock
  | noType
  | outOfRange
  | outsideOfTrans
deriving DecidableEq

section Blocks

variable (sb : Layout)

def bzero (disk : Disk) (bno : Nat) : Disk :=
  update disk bno fun index => if index < bsize then 0 else disk bno index

/-- The inner loop of `balloc`: the first clear bit of the map block for `b`. -/
def freeBit (disk : Disk) (b : Nat) : Option Nat :=
  (List.range bpb).find? fun bi => b + bi < sb.size && !Bitmap.test (disk (sb.bblock b)) bi

def balloc (disk : Disk) : Except Panic (Nat × Disk) :=
  let starts := (List.range ((sb.size + bpb - 1) / bpb)).map (· * bpb)
  match starts.findSome? fun b => (freeBit sb disk b).map fun bi => (b, bi) with
  | none => .error .outOfBlocks
  | some (b, bi) =>
      let marked := update disk (sb.bblock b) (Bitmap.set (disk (sb.bblock b)) bi)
      .ok (b + bi, bzero marked (b + bi))

def bfree (disk : Disk) (b : Nat) : Except Panic Disk :=
  if Bitmap.test (disk (sb.bblock b)) (b % bpb) then
    .ok (update disk (sb.bblock b) (Bitmap.clear (disk (sb.bblock b)) (b % bpb)))
  else .error .freeingFree

end Blocks

/-- What a call on one locked inode can change: the blocks and the copy in memory. -/
structure Work where
  disk : Disk
  ip : Dinode

def lastAddr : Fin (ndirect + 1) := Fin.last ndirect

def Dinode.setAddr (d : Dinode) (i : Fin (ndirect + 1)) (b : Nat) : Dinode :=
  { d with addrs := update d.addrs i (BitVec.ofNat 32 b) }

def entry (bytes : Bytes) (j : Nat) : Nat := load 4 bytes (4 * j)

section Contents

variable (sb : Layout)

/-- `if((addr = ip->addrs[i]) == 0) ip->addrs[i] = addr = balloc(ip->dev)` -/
def bmapAddr (w : Work) (i : Fin (ndirect + 1)) : Except Panic (Nat × Work) :=
  if w.ip.addrs i = 0 then do
    let got ← balloc sb w.disk
    return (got.1, ⟨got.2, w.ip.setAddr i got.1⟩)
  else return ((w.ip.addrs i).toNat, w)

/-- `if((addr = a[j]) == 0) a[j] = addr = balloc(ip->dev)` in the indirect block. -/
def bmapEntry (w : Work) (block : Nat) (j : Fin nindirect) : Except Panic (Nat × Work) :=
  if entry (w.disk block) j = 0 then do
    let got ← balloc sb w.disk
    return (got.1, { w with
      disk := update got.2 block (store 4 (got.2 block) (4 * j) got.1) })
  else return (entry (w.disk block) j, w)

def bmap (w : Work) (bn : Nat) : Except Panic (Nat × Work) :=
  if direct : bn < ndirect then bmapAddr sb w (Fin.castSucc ⟨bn, direct⟩)
  else if indirect : bn - ndirect < nindirect then do
    let got ← bmapAddr sb w lastAddr
    bmapEntry sb got.2 got.1 ⟨bn - ndirect, indirect⟩
  else .error .outOfRange

def itruncAddr (w : Work) (i : Fin (ndirect + 1)) : Except Panic Work :=
  if w.ip.addrs i = 0 then return w
  else do
    let disk ← bfree sb w.disk (w.ip.addrs i).toNat
    return ⟨disk, w.ip.setAddr i 0⟩

def itruncEntries (a : Bytes) (disk : Disk) : Except Panic Disk :=
  (List.finRange nindirect).foldlM
    (fun disk (j : Fin nindirect) => if entry a j = 0 then return disk else bfree sb disk (entry a j)) disk

def itruncIndirect (w : Work) : Except Panic Work :=
  if w.ip.addrs lastAddr = 0 then return w
  else do
    let disk ← itruncEntries sb (w.disk (w.ip.addrs lastAddr).toNat) w.disk
    itruncAddr sb { w with disk } lastAddr

def itrunc (inum : Nat) (w : Work) : Except Panic Work := do
  let w ← (List.finRange ndirect).foldlM (fun w (i : Fin ndirect) => itruncAddr sb w i.castSucc) w
  let w ← itruncIndirect sb w
  let ip := { w.ip with size := 0 }
  return ⟨sb.setInode w.disk inum ip, ip⟩

inductive Reply (α : Type)
  | failed
  | device
  | done (value : α)
deriving DecidableEq

def ndev : Nat := 10

def console : Nat := 1

def Dinode.device (d : Dinode) {α : Type} : Reply α :=
  if d.major.toInt < 0 ∨ (ndev : Int) ≤ d.major.toInt ∨ d.major.toNat ≠ console then .failed
  else .device

/-- The loop of `readi` with `n` bytes left. A round moves at least one byte. -/
def readLoop : Nat → Work → Nat → Nat → Except Panic (List (BitVec 8) × Work)
  | 0, w, _, _ => return ([], w)
  | fuel + 1, w, off, n =>
      if n = 0 then return ([], w)
      else do
        let got ← bmap sb w (off / bsize)
        let m := min n (bsize - off % bsize)
        let rest ← readLoop fuel got.2 (off + m) (n - m)
        return (slice (got.2.disk got.1) (off % bsize) m ++ rest.1, rest.2)

def readi (w : Work) (off n : BitVec 32) : Except Panic (Reply (List (BitVec 8)) × Work) :=
  if w.ip.type = tDev then return (w.ip.device, w)
  else if w.ip.size < off ∨ off + n < off then return (.failed, w)
  else do
    let n := if w.ip.size < off + n then w.ip.size - off else n
    let got ← readLoop sb n.toNat w off.toNat n.toNat
    return (.done got.1, got.2)

/-- The loop of `writei` with `n` bytes left, starting at `src`. -/
def writeLoop (src : Nat → BitVec 8) : Nat → Work → Nat → Nat → Nat → Except Panic Work
  | 0, w, _, _, _ => return w
  | fuel + 1, w, start, off, n =>
      if n = 0 then return w
      else do
        let got ← bmap sb w (off / bsize)
        let m := min n (bsize - off % bsize)
        let bytes := blit (got.2.disk got.1) (off % bsize) (slice src start m)
        writeLoop src fuel { got.2 with disk := update got.2.disk got.1 bytes }
          (start + m) (off + m) (n - m)

def writei (inum : Nat) (w : Work) (src : Nat → BitVec 8) (off n : BitVec 32) :
    Except Panic (Reply (BitVec 32) × Work) :=
  if w.ip.type = tDev then return (w.ip.device, w)
  else if w.ip.size < off ∨ off + n < off then return (.failed, w)
  else if maxFile * bsize < (off + n).toNat then return (.failed, w)
  else do
    let w ← writeLoop sb src n.toNat w 0 off.toNat n.toNat
    if 0 < n ∧ w.ip.size < off + n then
      let ip := { w.ip with size := off + n }
      return (.done n, ⟨sb.setInode w.disk inum ip, ip⟩)
    else return (.done n, w)

end Contents

def ninode : Nat := 50

instance : NeZero ninode := ⟨by decide⟩

structure Inode where
  inum : Nat
  ref : Nat
  valid : Bool
  copy : Dinode

structure Mount where
  disk : Disk
  icache : Fin ninode → Inode

namespace Mount

def setSlot (s : Mount) (ip : Fin ninode) (inode : Inode) : Mount :=
  { s with icache := update s.icache ip inode }

@[simp] theorem setSlot_self (s : Mount) (ip : Fin ninode) (inode : Inode) :
    (s.setSlot ip inode).icache ip = inode := by
  simp only [setSlot, update_self]

theorem setSlot_other (s : Mount) {ip other : Fin ninode} (inode : Inode) (differs : other ≠ ip) :
    (s.setSlot ip inode).icache other = s.icache other := by
  simp only [setSlot, update_of_ne differs]

@[simp] theorem setSlot_disk (s : Mount) (ip : Fin ninode) (inode : Inode) :
    (s.setSlot ip inode).disk = s.disk := rfl

def work (s : Mount) (ip : Fin ninode) : Work := ⟨s.disk, (s.icache ip).copy⟩

def finish (s : Mount) (ip : Fin ninode) (w : Work) : Mount :=
  { s.setSlot ip { s.icache ip with copy := w.ip } with disk := w.disk }

theorem finish_work (s : Mount) (ip : Fin ninode) : s.finish ip (s.work ip) = s := by
  simp only [finish, work, setSlot, update_eq_self]

def iinit (disk : Disk) : Mount := ⟨disk, fun _ => ⟨0, 0, false, .zero⟩⟩

def iget (s : Mount) (inum : Nat) : Except Panic (Fin ninode × Mount) :=
  match (List.finRange ninode).find? fun ip =>
      0 < (s.icache ip).ref && (s.icache ip).inum = inum with
  | some ip => .ok (ip, s.setSlot ip { s.icache ip with ref := (s.icache ip).ref + 1 })
  | none =>
      match (List.finRange ninode).find? fun ip => (s.icache ip).ref = 0 with
      | some ip => .ok (ip, s.setSlot ip ⟨inum, 1, false, (s.icache ip).copy⟩)
      | none => .error .igetNoInodes

variable (sb : Layout)

def ialloc (s : Mount) (type : BitVec 16) : Except Panic (Fin ninode × Mount) :=
  match (List.range' 1 (sb.ninodes - 1)).find? fun inum => (sb.inode s.disk inum).type = 0 with
  | some inum => iget { s with disk := sb.setInode s.disk inum { Dinode.zero with type } } inum
  | none => .error .noInodes

def idup (s : Mount) (ip : Fin ninode) : Mount :=
  s.setSlot ip { s.icache ip with ref := (s.icache ip).ref + 1 }

def ilock (s : Mount) (ip : Fin ninode) : Except Panic Mount :=
  if (s.icache ip).ref < 1 then .error .ilock
  else if (s.icache ip).valid then .ok s
  else
    let copy := sb.inode s.disk (s.icache ip).inum
    if copy.type = 0 then .error .noType
    else .ok (s.setSlot ip { s.icache ip with valid := true, copy })

/-- `ip->major`, `ip->minor` and `ip->nlink` as a system call sets them before `iupdate`. -/
def update (s : Mount) (ip : Fin ninode) (major minor nlink : BitVec 16) : Mount :=
  let copy := { (s.icache ip).copy with major, minor, nlink }
  s.finish ip ⟨sb.setInode s.disk (s.icache ip).inum copy, copy⟩

/-- The part of `iput` for an inode with no links and no other references. -/
def release (s : Mount) (ip : Fin ninode) : Except Panic Mount := do
  let w ← itrunc sb (s.icache ip).inum (s.work ip)
  let copy := { w.ip with type := 0 }
  return { s.setSlot ip { s.icache ip with valid := false, copy } with
    disk := sb.setInode w.disk (s.icache ip).inum copy }

def iput (s : Mount) (ip : Fin ninode) : Except Panic Mount := do
  let slot := s.icache ip
  let s ← (if slot.valid ∧ slot.copy.nlink = 0 ∧ slot.ref = 1 then s.release sb ip else pure s)
  return s.setSlot ip { s.icache ip with ref := (s.icache ip).ref - 1 }

end Mount

/-- The calls are made inside a transaction, except that `fileread` reads without one. -/
inductive Call
  | iget (inum : Nat)
  | ialloc (type : BitVec 16)
  | idup (ip : Fin ninode)
  | ilock (ip : Fin ninode)
  | update (ip : Fin ninode) (major minor nlink : BitVec 16)
  | readi (ip : Fin ninode) (off n : BitVec 32)
  | fileread (ip : Fin ninode) (off n : BitVec 32)
  | writei (ip : Fin ninode) (src : Nat → BitVec 8) (off n : BitVec 32)
  | iput (ip : Fin ninode)

/-- A block that `balloc` takes is passed to `log_write`, which panics outside of a transaction. -/
def Mount.fileread (sb : Layout) (s : Mount) (ip : Fin ninode) (off n : BitVec 32) : Except Panic Mount := do
  let got ← Fs.readi sb (s.work ip) off n
  if ∀ b < sb.size, sb.used got.2.disk b = sb.used s.disk b then .ok (s.finish ip got.2)
  else .error .outsideOfTrans

def call (sb : Layout) (s : Mount) : Call → Except Panic Mount
  | .iget inum => Prod.snd <$> s.iget inum
  | .ialloc type => Prod.snd <$> s.ialloc sb type
  | .idup ip => .ok (s.idup ip)
  | .ilock ip => s.ilock sb ip
  | .update ip major minor nlink => .ok (s.update sb ip major minor nlink)
  | .readi ip off n => (fun got => s.finish ip got.2) <$> Fs.readi sb (s.work ip) off n
  | .fileread ip off n => s.fileread sb ip off n
  | .writei ip src off n =>
      (fun got => s.finish ip got.2) <$> Fs.writei sb (s.icache ip).inum (s.work ip) src off n
  | .iput ip => s.iput sb ip

def step (sb : Layout) (s : Mount) (event : Call) : Option Mount := (call sb s event).toOption

end OsLabs.Fs
