import OsLabs.Foundation.ByteField
import OsLabs.Foundation.Outcomes

/-!
Executable model of `kalloc.c` and `vm.c`, with `growproc` and `sys_pgcnt`. A physical page is known by its number
(its address divided by `PGSIZE`) and so is a virtual one. A page directory is the value of what it holds, with the
page tables it points to; what the other pages hold is in the memory. What is in a page of the free list is not
modelled, beyond the junk that `kfree` fills it with.
-/

namespace OsLabs.Vm

open Function ByteField

def pgsize : Nat := 4096

/-- `NPDENTRIES` and `NPTENTRIES`. -/
def nentries : Nat := 1024

def kernbase : Nat := 0x80000000

def extmem : Nat := 0x100000

def phystop : Nat := 0xE000000

def devspace : Nat := 0xFE000000

/-- The range of `uint`. -/
def uintRange : Nat := 2 ^ 32

abbrev Byte := BitVec 8

abbrev Frame := Nat

abbrev Index := Fin nentries

/-- The ways in which a function of the kernel does not return: it panics, or it follows a null pointer. Loops
take fuel, and to run out of it would be to go on for ever. -/
inductive Failure where
  | panic (text : String)
  | fault
  | fuel
deriving DecidableEq, Repr

/-- The end of the pages that `kinit1` frees. -/
def kinitEnd : Nat := 4 * 1024 * 1024 / pgsize

/-- The linker's symbols: the first whole page after `end`, and the page of `V2P(data)`. -/
structure Kernel where
  first : Nat
  data : Nat
  text : extmem / pgsize < data
  order : data ≤ first
  low : first ≤ kinitEnd

/-- Permissions, `PTE_W` and `PTE_U`. -/
structure Perm where
  w : Bool
  u : Bool
deriving DecidableEq, Repr

/-- An entry with `PTE_P`; the others are 0. -/
structure Pte where
  frame : Frame
  perm : Perm
deriving DecidableEq, Repr

structure Table where
  page : Frame
  pte : Index → Option Pte

structure Space where
  dir : Frame
  table : Index → Option Table

/-- `kmem`, and what the pages hold. A call of `kalloc` may fail while there are pages: `luck` says what the next
calls do. -/
structure Mem where
  free : List Frame
  luck : List Bool
  data : Frame → Bytes

def pdx (vpn : Nat) : Index := ⟨vpn / nentries % nentries, Nat.mod_lt _ (by decide)⟩

def ptx (vpn : Nat) : Index := ⟨vpn % nentries, Nat.mod_lt _ (by decide)⟩

/-- `PGROUNDUP(sz) / PGSIZE`. -/
def pages (sz : Nat) : Nat := (sz + pgsize - 1) / pgsize

namespace Mem

variable (m : Mem)

def memset (frame : Frame) (byte : Byte) : Mem := { m with data := update m.data frame fun _ => byte }

/-- `memmove` of a whole page. -/
def copyPage (frame source : Frame) : Mem := { m with data := update m.data frame (m.data source) }

/-- `memmove` to a place in a page. -/
def write (frame : Frame) (offset : Nat) (bytes : List Byte) : Mem :=
  { m with data := update m.data frame (blit (m.data frame) offset bytes) }

def kalloc : Mem × Option Frame :=
  match m.luck with
  | false :: luck => ({ m with luck := luck }, none)
  | luck =>
      match m.free with
      | [] => ({ m with luck := luck.tail }, none)
      | frame :: free => ({ m with free := free, luck := luck.tail }, some frame)

def kfree (k : Kernel) (frame : Frame) : Except Failure Mem :=
  if frame < k.first ∨ phystop / pgsize ≤ frame then .error (.panic "kfree")
  else .ok { m.memset frame 1 with free := frame :: m.free }

end Mem

namespace Space

variable (s : Space)

def empty (dir : Frame) : Space := ⟨dir, fun _ => none⟩

def lookup (vpn : Nat) : Option Pte := (s.table (pdx vpn)).bind fun t => t.pte (ptx vpn)

def setPte (vpn : Nat) (pte : Option Pte) : Space :=
  match s.table (pdx vpn) with
  | none => s
  | some t =>
      { s with table := update s.table (pdx vpn) (some { t with pte := update t.pte (ptx vpn) pte }) }

/-- `walkpgdir` with `alloc`. Without it, the answer is the table of the page. -/
def walkpgdir (m : Mem) (vpn : Nat) : Mem × Option Space :=
  match s.table (pdx vpn) with
  | some _ => (m, some s)
  | none =>
      match m.kalloc with
      | (m, none) => (m, none)
      | (m, some page) =>
          (m, some { s with table := update s.table (pdx vpn) (some ⟨page, fun _ => none⟩) })

end Space

/-- The loop of `mappages` over some pages; the last result says that it got through. -/
def mapLoop (perm : Perm) : Nat → Nat → Frame → Mem → Space → Except Failure (Mem × Space × Bool)
  | 0, _, _, m, s => pure (m, s, true)
  | count + 1, vpn, frame, m, s =>
      match s.walkpgdir m vpn with
      | (m, none) => pure (m, s, false)
      | (m, some s) =>
          if (s.lookup vpn).isSome then .error (.panic "remap")
          else mapLoop perm count (vpn + 1) (frame + 1) m (s.setPte vpn (some ⟨frame, perm⟩))

/-- `mappages`, for a range that does not wrap and a page-aligned `pa`. -/
def mappages (m : Mem) (s : Space) (va size pa : Nat) (perm : Perm) : Except Failure (Mem × Space × Bool) :=
  let a := va / pgsize
  let last := (va + size - 1) % uintRange / pgsize
  mapLoop perm (last - a + 1) a (pa / pgsize) m s

structure Kmap where
  virt : Nat
  physStart : Nat
  physEnd : Nat
  perm : Perm

/-- `uva2ka`. It does not look whether there is a page table. -/
def uva2ka (s : Space) (vpn : Nat) : Except Failure (Option Frame) :=
  match s.table (pdx vpn) with
  | none => .error .fault
  | some t => pure ((t.pte (ptx vpn)).bind fun pte => if pte.perm.u then some pte.frame else none)

/-- The loop of `copyout`. -/
def copyoutLoop (s : Space) : Nat → Nat → List Byte → Mem → Except Failure (Mem × Bool)
  | _, _, [], m => pure (m, true)
  | 0, _, _ :: _, _ => .error .fuel
  | fuel + 1, va, buf, m => do
      let pa0 ← uva2ka s (va / pgsize)
      match pa0 with
      | none => pure (m, false)
      | some pa0 =>
          let n := min (pgsize - va % pgsize) buf.length
          copyoutLoop s fuel ((va / pgsize + 1) * pgsize % uintRange) (buf.drop n)
            (m.write pa0 (va % pgsize) (buf.take n))

def copyout (m : Mem) (s : Space) (va : Nat) (buf : List Byte) : Except Failure (Mem × Bool) :=
  copyoutLoop s buf.length va buf m

def clearpteu (s : Space) (vpn : Nat) : Except Failure Space :=
  match s.table (pdx vpn) with
  | none => .error (.panic "clearpteu")
  | some t => pure (s.setPte vpn ((t.pte (ptx vpn)).map fun pte => { pte with perm := { pte.perm with u := false } }))

/-- The inner loop of `sys_pgcnt`. -/
def Table.count (t : Table) : Nat :=
  ((List.finRange nentries).map fun j => if (t.pte j).any (·.perm.u) then 1 else 0).sum

def sysPgcnt (s : Space) : Nat :=
  ((List.finRange nentries).map fun i => (s.table i).elim 0 Table.count).sum

namespace Kernel

variable (k : Kernel)

def kmap : List Kmap :=
  [⟨kernbase, 0, extmem, ⟨true, false⟩⟩, ⟨kernbase + extmem, extmem, k.data * pgsize, ⟨false, false⟩⟩,
    ⟨kernbase + k.data * pgsize, k.data * pgsize, phystop, ⟨true, false⟩⟩, ⟨devspace, devspace, 0, ⟨true, false⟩⟩]

/-- The loop of `deallocuvm` from a page on. It goes on to the next page table where there is none. -/
def deallocLoop (oldsz : Nat) : Nat → Nat → Mem → Space → Except Failure (Mem × Space)
  | 0, _, _, _ => .error .fuel
  | fuel + 1, vpn, m, s =>
      if vpn * pgsize < oldsz then
        match s.table (pdx vpn) with
        | none => deallocLoop oldsz fuel (((pdx vpn).val + 1) * nentries) m s
        | some t =>
            match t.pte (ptx vpn) with
            | none => deallocLoop oldsz fuel (vpn + 1) m s
            | some pte =>
                if pte.frame = 0 then .error (.panic "kfree")
                else do
                  let m ← m.kfree k pte.frame
                  deallocLoop oldsz fuel (vpn + 1) m (s.setPte vpn none)
      else pure (m, s)

def deallocuvm (m : Mem) (s : Space) (oldsz newsz : Nat) : Except Failure (Mem × Space × Nat) :=
  if oldsz ≤ newsz then pure (m, s, oldsz)
  else do
    let (m, s) ← k.deallocLoop oldsz (pages oldsz - pages newsz + 1) (pages newsz) m s
    pure (m, s, newsz)

/-- The loop of `allocuvm` from a page on. -/
def allocLoop (oldsz newsz : Nat) : Nat → Nat → Mem → Space → Except Failure (Mem × Space × Nat)
  | 0, _, m, s => pure (m, s, newsz)
  | count + 1, vpn, m, s =>
      match m.kalloc with
      | (m, none) => do
          let (m, s, _) ← k.deallocuvm m s newsz oldsz
          pure (m, s, 0)
      | (m, some mem) => do
          let m := m.memset mem 0
          let (m, s, done) ← mappages m s (vpn * pgsize) pgsize (mem * pgsize) ⟨true, true⟩
          if done then allocLoop oldsz newsz count (vpn + 1) m s
          else do
            let (m, s, _) ← k.deallocuvm m s newsz oldsz
            let m ← m.kfree k mem
            pure (m, s, 0)

def allocuvm (m : Mem) (s : Space) (oldsz newsz : Nat) : Except Failure (Mem × Space × Nat) :=
  if kernbase ≤ newsz then pure (m, s, 0)
  else if newsz < oldsz then pure (m, s, oldsz)
  else k.allocLoop oldsz newsz (pages newsz - pages oldsz) (pages oldsz) m s

/-- The indices that the second loop of `freevm` goes through. -/
@[irreducible] def entries : List Index :=
  List.finRange nentries

/-- One round of the second loop of `freevm`. -/
def freeTable (s : Space) (m : Mem) (i : Index) : Except Failure Mem :=
  match s.table i with
  | none => pure m
  | some t => m.kfree k t.page

def freevm (m : Mem) (s : Space) : Except Failure Mem := do
  let (m, s, _) ← k.deallocuvm m s kernbase 0
  let m ← entries.foldlM (fun m i => k.freeTable s m i) m
  m.kfree k s.dir

/-- The loop of `setupkvm` over the kernel's mappings. -/
def mapKernel : List Kmap → Mem → Space → Except Failure (Mem × Space × Bool)
  | [], m, s => pure (m, s, true)
  | e :: rest, m, s => do
      let (m, s, done) ← mappages m s e.virt ((e.physEnd + uintRange - e.physStart) % uintRange) e.physStart e.perm
      if done then mapKernel rest m s else pure (m, s, false)

def setupkvm (m : Mem) : Except Failure (Mem × Option Space) :=
  match m.kalloc with
  | (m, none) => pure (m, none)
  | (m, some dir) => do
      let (m, s, done) ← mapKernel k.kmap m (.empty dir)
      if done then pure (m, some s)
      else do
        let m ← k.freevm m s
        pure (m, none)

/-- The loop of `copyuvm` from a page on. -/
def copyLoop (s : Space) : Nat → Nat → Mem → Space → Except Failure (Mem × Option Space)
  | 0, _, m, d => pure (m, some d)
  | count + 1, vpn, m, d =>
      match s.table (pdx vpn) with
      | none => .error (.panic "copyuvm: pte should exist")
      | some t =>
          match t.pte (ptx vpn) with
          | none => .error (.panic "copyuvm: page not present")
          | some pte =>
              match m.kalloc with
              | (m, none) => do
                  let m ← k.freevm m d
                  pure (m, none)
              | (m, some mem) => do
                  let m := m.copyPage mem pte.frame
                  let (m, d, done) ← mappages m d (vpn * pgsize) pgsize (mem * pgsize) pte.perm
                  if done then copyLoop s count (vpn + 1) m d
                  else do
                    let m ← m.kfree k mem
                    let m ← k.freevm m d
                    pure (m, none)

def copyuvm (m : Mem) (s : Space) (sz : Nat) : Except Failure (Mem × Option Space) := do
  let (m, d) ← k.setupkvm m
  match d with
  | none => pure (m, none)
  | some d => k.copyLoop s (pages sz) 0 m d

/-- `growproc`, with the space and the size of the process after it and what it returns. -/
def growproc (m : Mem) (s : Space) (sz : Nat) (n : BitVec 32) : Except Failure (Mem × Space × Nat × Int) :=
  let newsz := (sz + n.toNat) % uintRange
  if 0 < n.toInt then do
    let (m, s, size) ← k.allocuvm m s sz newsz
    pure (if size = 0 then (m, s, sz, -1) else (m, s, size, 0))
  else if n.toInt < 0 then do
    let (m, s, size) ← k.deallocuvm m s sz newsz
    pure (if size = 0 then (m, s, sz, -1) else (m, s, size, 0))
  else pure (m, s, sz, 0)

end Kernel

end OsLabs.Vm
