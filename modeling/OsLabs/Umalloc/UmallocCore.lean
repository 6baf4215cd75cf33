import OsLabs.Foundation.Blocks
import OsLabs.Foundation.ByteField
import OsLabs.Foundation.Runs
import OsLabs.Foundation.Segments

/-!
Executable model of `malloc` and `free` in `umalloc.c`, over a memory of bytes. A `Header` takes 8 bytes, its
pointer first, and a pointer to one moves in steps of 8 bytes. The loops take fuel.
-/

namespace OsLabs.Umalloc

open Blocks ByteField Runs Segments

/-- `sizeof(Header)`. -/
def unit : Nat := 8

def word : Nat := 2 ^ 32

def kernbase : Nat := 2 ^ 31

def limit : Nat := 2 ^ 32

section Headers

variable (m : Bytes)

/-- `p->s.ptr`. -/
def ptr (p : Nat) : Nat := load 4 m p

/-- `p->s.size`. -/
def size (p : Nat) : Nat := load 4 m (p + 4)

def setPtr (p value : Nat) : Bytes := store 4 m p value

def setSize (p value : Nat) : Bytes := store 4 m (p + 4) value

end Headers

/-- `p + count`, for a pointer to a header. -/
def plus (p count : Nat) : Nat := (p + unit * count) % word

/-- The memory of the process, the two variables that change in it and what `sbrk` has returned. -/
structure Heap where
  mem : Bytes
  freep : Nat
  brk : Nat
  obtained : List Block

/-- The conditions on which the loop of `free` ends. -/
def stops (m : Bytes) (bp p : Nat) : Bool :=
  (p < bp ∧ bp < ptr m p) ∨ (ptr m p ≤ p ∧ (p < bp ∨ bp < ptr m p))

def free (ap : Nat) (h : Heap) : Option Heap := do
  let bp := (ap + word - unit) % word
  let p ← search (ptr h.mem) (stops h.mem bp) limit h.freep
  let m := h.mem
  let m :=
    if plus bp (size m bp) = ptr m p then
      let m := setSize m bp (size m bp + size m (ptr m p))
      setPtr m bp (ptr m (ptr m p))
    else setPtr m bp (ptr m p)
  let m :=
    if plus p (size m p) = bp then
      let m := setSize m p (size m p + size m bp)
      setPtr m p (ptr m bp)
    else setPtr m p bp
  some { h with mem := m, freep := p }

/-- What `sbrk` does: it fails, or it returns fresh memory a gap above everything it returned before. -/
abbrev Answers := List (Option Nat)

def sbrk (n : Nat) (h : Heap) : Answers → Option Nat × Heap × Answers
  | [] => (none, h, [])
  | none :: answers => (none, h, answers)
  | some gap :: answers =>
      let p := h.brk + gap
      if p + n < kernbase then
        (some p, { h with brk := p + n, obtained := ⟨p, p + n⟩ :: h.obtained }, answers)
      else (none, h, answers)

def morecore (nu : Nat) (answers : Answers) (h : Heap) : Option (Heap × Nat × Answers) :=
  let nu := if nu < 4096 then 4096 else nu
  match sbrk (nu * unit % word) h answers with
  | (none, h, answers) => some (h, 0, answers)
  | (some hp, h, answers) => do
      let h ← free (plus hp 1) { h with mem := setSize h.mem hp nu }
      some (h, h.freep, answers)

def allocate (nunits : Nat) (m : Bytes) (prevp p : Nat) : Bytes × Nat :=
  if size m p = nunits then (setPtr m prevp (ptr m p), p)
  else
    let m := setSize m p (size m p - nunits)
    let p := plus p (size m p)
    (setSize m p nunits, p)

/-- The loop of `malloc`. -/
def mallocLoop (nunits : Nat) : Nat → Answers → Heap → Nat → Nat → Option (Heap × Nat)
  | 0, _, _, _, _ => none
  | fuel + 1, answers, h, prevp, p =>
      if nunits ≤ size h.mem p then
        let (m, p) := allocate nunits h.mem prevp p
        some ({ h with mem := m, freep := prevp }, plus p 1)
      else if p = h.freep then do
        let (h, p, answers) ← morecore nunits answers h
        if p = 0 then some (h, 0)
        else mallocLoop nunits fuel answers h p (ptr h.mem p)
      else mallocLoop nunits fuel answers h p (ptr h.mem p)

/-- The number of headers for a request: its bytes, rounded up, and one for the header. -/
def unitsFor (nbytes : Nat) : Nat := (nbytes + unit - 1) % word / unit + 1

/-- The start of `malloc`, at address `base` of the static header. -/
def setup (base : Nat) (h : Heap) : Heap :=
  if h.freep = 0 then { h with mem := setSize (setPtr h.mem base base) base 0, freep := base } else h

def malloc (base nbytes : Nat) (answers : Answers) (h : Heap) : Option (Heap × Nat) :=
  let h := setup base h
  mallocLoop (unitsFor nbytes) limit answers h h.freep (ptr h.mem h.freep)

/-- A pointer that `malloc` has returned and that was not freed, with the number of bytes asked for. -/
structure Live where
  ptr : Nat
  nbytes : Nat
deriving DecidableEq, Repr

structure State where
  heap : Heap
  live : List Live

/-- What a program does with its heap. It also writes to the bytes it was given. -/
inductive Event where
  | malloc (nbytes : Nat) (answers : Answers)
  | free (ap : Nat)
  | write (address : Nat) (byte : BitVec 8)
deriving DecidableEq, Repr

def step (base : Nat) (s : State) : Event → Option State
  | .malloc nbytes answers => do
      let (h, ap) ← malloc base nbytes answers s.heap
      some ⟨h, if ap = 0 then s.live else ⟨ap, nbytes⟩ :: s.live⟩
  | .free ap => do
      let h ← free ap s.heap
      some ⟨h, s.live.eraseP (·.ptr = ap)⟩
  | .write address byte =>
      some { s with heap := { s.heap with mem := Function.update s.heap.mem address byte } }

/-- The program frees what it has, asks for less than 1 GB and writes only to bytes it was given. -/
def Permitted (s : State) : Event → Prop
  | .malloc nbytes _ => nbytes < 2 ^ 30
  | .free ap => ∃ l ∈ s.live, l.ptr = ap
  | .write address _ => ∃ l ∈ s.live, l.ptr ≤ address ∧ address < l.ptr + l.nbytes

instance (s : State) : DecidablePred (Permitted s)
  | .malloc nbytes _ => inferInstanceAs (Decidable (nbytes < 2 ^ 30))
  | .free ap => inferInstanceAs (Decidable (∃ l ∈ s.live, l.ptr = ap))
  | .write address _ => inferInstanceAs (Decidable (∃ l ∈ s.live, l.ptr ≤ address ∧ address < l.ptr + l.nbytes))

/-- A program that has not called `malloc` yet. -/
def start (mem : Bytes) (brk : Nat) : State := ⟨⟨mem, 0, brk, []⟩, []⟩

end OsLabs.Umalloc
