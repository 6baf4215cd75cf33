import OsLabs.Foundation.SlotMap
import OsLabs.Fs.FsContents

/-!
Directories: `namecmp`, `dirlookup` and `dirlink` of `fs.c`, and the entry that `sys_unlink` clears. The entries of a
directory are a finite map from names to inode numbers. A name is what stands before the first zero in its first
`DIRSIZ` bytes. The caller holds the lock of the directory, so an `iput` of the directory itself waits for ever.
-/

namespace OsLabs.Fs

open OsLabs.ByteField OsLabs.Outcomes OsLabs.SlotMap

abbrev Chars := Nat → BitVec 8

/-- The loop of `strncmp` from character `i` on, with `n` characters left. -/
def strncmp (p q : Chars) : Nat → Nat → Int
  | 0, _ => 0
  | n + 1, i => if p i ≠ 0 ∧ p i = q i then strncmp p q n (i + 1) else (p i).toNat - (q i).toNat

/-- What `strncpy` stores, from character `i` on and with room for `n`. -/
def strncpy (t : Chars) : Nat → Nat → List (BitVec 8)
  | 0, _ => []
  | n + 1, i => if t i = 0 then List.replicate (n + 1) 0 else t i :: strncpy t n (i + 1)

def namecmp (s t : Chars) : Int := strncmp s t dirsiz 0

structure Dirent where
  inum : BitVec 16
  name : Fin dirsiz → BitVec 8

namespace Dirent

def bytes (de : Dirent) : List (BitVec 8) := split 2 de.inum.toNat ++ List.ofFn de.name

def decode (bytes : List (BitVec 8)) : Dirent :=
  ⟨BitVec.ofNat 16 (combine (bytes.take 2)), fun i => (bytes[2 + i.val]?).getD 0⟩

def chars (de : Dirent) : Chars := fun i => if inside : i < dirsiz then de.name ⟨i, inside⟩ else 0

end Dirent

def direntSize : Nat := 16

inductive DirFailure
  | fs (panic : Panic)
  | notDir
  | dirlookupRead
  | dirlinkRead
  | dirlink
  | unlinkWritei
  | blocked
deriving DecidableEq

section Model

variable (sb : Layout)

/-- The loop over the entries of a directory from `off` on, up to the first one where it stops. It ends with the offset
and that entry. A round goes on by one entry. -/
def scan (stop : Dirent → Bool) (failure : DirFailure) : Nat → Work → Nat →
    Except DirFailure (Nat × Option Dirent × Work)
  | 0, w, off => return (off, none, w)
  | fuel + 1, w, off =>
      if off < w.ip.size.toNat then do
        let got ← (readi sb w (BitVec.ofNat 32 off) (BitVec.ofNat 32 direntSize)).mapError .fs
        match got.1 with
        | .done bytes =>
            if bytes.length ≠ direntSize then .error failure
            else if stop (.decode bytes) then return (off, some (.decode bytes), got.2)
            else scan stop failure fuel got.2 (off + direntSize)
        | _ => .error failure
      else return (off, none, w)

def Dirent.isFor (name : Chars) (de : Dirent) : Bool := decide (de.inum ≠ 0 ∧ namecmp name de.chars = 0)

def Dirent.isFree (de : Dirent) : Bool := decide (de.inum = 0)

namespace Mount

/-- `dirlookup`, with the offset of the entry. -/
def dirlookup (s : Mount) (dp : Fin ninode) (name : Chars) : Except DirFailure (Option (Nat × Fin ninode) × Mount) :=
  if (s.icache dp).copy.type ≠ tDir then .error .notDir
  else do
    let (off, found, w) ← scan sb (Dirent.isFor name) .dirlookupRead (s.icache dp).copy.size.toNat (s.work dp) 0
    let s := s.finish dp w
    match found with
    | none => return (none, s)
    | some de => do
        let (ip, s) ← (s.iget de.inum.toNat).mapError .fs
        return (some (off, ip), s)

/-- `writei` of one entry into a directory, where it has to be whole. -/
def writeDirent (s : Mount) (dp : Fin ninode) (de : Dirent) (off : Nat) (failure : DirFailure) :
    Except DirFailure Mount := do
  let got ← (writei sb (s.icache dp).inum (s.work dp) (fun i => (de.bytes[i]?).getD 0) (BitVec.ofNat 32 off)
    (BitVec.ofNat 32 direntSize)).mapError .fs
  if got.1 ≠ .done (BitVec.ofNat 32 direntSize) then .error failure else return s.finish dp got.2

def dirlink (s : Mount) (dp : Fin ninode) (name : Chars) (inum : Nat) : Except DirFailure (Int × Mount) := do
  let (found, s) ← s.dirlookup sb dp name
  match found with
  | some (_, ip) =>
      -- `iput` takes the lock of the inode, and the caller holds the one of `dp`.
      if ip = dp then .error .blocked
      else do
        let s ← (s.iput sb ip).mapError .fs
        return (-1, s)
  | none => do
      let (off, _, w) ← scan sb Dirent.isFree .dirlinkRead (s.icache dp).copy.size.toNat (s.work dp) 0
      let de : Dirent := ⟨BitVec.ofNat 16 inum, fun i => ((strncpy name dirsiz 0)[i.val]?).getD 0⟩
      let s ← (s.finish dp w).writeDirent sb dp de off .dirlink
      return (0, s)

def clearDirent (s : Mount) (dp : Fin ninode) (off : Nat) : Except DirFailure Mount :=
  s.writeDirent sb dp ⟨0, fun _ => 0⟩ off .unlinkWritei

end Mount

end Model

section Names

def text (chars : List (BitVec 8)) : List (BitVec 8) := chars.takeWhile (· ≠ 0)

/-- The part of a string that `namecmp` looks at. -/
def nameKey (name : Chars) : List (BitVec 8) := text (slice name 0 dirsiz)

theorem text_ended {c : BitVec 8} (ended : c = 0) (rest : List (BitVec 8)) : text (c :: rest) = [] := by
  rw [text, List.takeWhile_cons, if_neg (by simpa using ended)]

theorem text_more {c : BitVec 8} (more : c ≠ 0) (rest : List (BitVec 8)) : text (c :: rest) = c :: text rest := by
  rw [text, List.takeWhile_cons, if_pos (decide_eq_true more), text]

theorem slice_succ {α : Type*} (cells : Nat → α) (offset count : Nat) :
    slice cells offset (count + 1) = cells offset :: slice cells (offset + 1) count := by
  rw [slice, List.range'_succ, List.map_cons]
  rfl

theorem strncmp_eq_zero (p q : Chars) (n i : Nat) :
    strncmp p q n i = 0 ↔ text (slice p i n) = text (slice q i n) := by
  induction n generalizing i with
  | zero => exact iff_of_true rfl rfl
  | succ n ih =>
      rw [strncmp, slice_succ, slice_succ]
      by_cases same : p i = q i
      · by_cases ended : p i = 0
        · rw [if_neg fun both => both.1 ended, text_ended ended, text_ended (same ▸ ended), same]
          exact iff_of_true (Int.sub_self _) rfl
        · rw [if_pos ⟨ended, same⟩, ih, text_more ended, text_more (same ▸ ended), same, List.cons.injEq]
          exact (and_iff_right rfl).symm
      · have differs : (p i).toNat ≠ (q i).toNat := fun equal => same (BitVec.eq_of_toNat_eq equal)
        rw [if_neg fun both => same both.2]
        refine iff_of_false (by omega) fun equal => ?_
        by_cases ended : p i = 0
        · rw [text_ended ended, text_more (fun zero => same (ended.trans zero.symm))] at equal
          cases equal
        · by_cases other : q i = 0
          · rw [text_more ended, text_ended other] at equal
            cases equal
          · rw [text_more ended, text_more other, List.cons.injEq] at equal
            exact same equal.1

theorem namecmp_eq_zero (s t : Chars) : namecmp s t = 0 ↔ nameKey s = nameKey t := strncmp_eq_zero s t dirsiz 0

theorem length_strncpy (t : Chars) (n i : Nat) : (strncpy t n i).length = n := by
  induction n generalizing i with
  | zero => rfl
  | succ n ih =>
      rw [strncpy]
      split
      · exact List.length_replicate
      · rw [List.length_cons, ih]

theorem text_strncpy (t : Chars) (n i : Nat) : text (strncpy t n i) = text (slice t i n) := by
  induction n generalizing i with
  | zero => rfl
  | succ n ih =>
      rw [strncpy, slice_succ]
      by_cases ended : t i = 0
      · rw [if_pos ended, List.replicate_succ, text_ended rfl, text_ended ended]
      · rw [if_neg ended, text_more ended, text_more ended, ih]

end Names

namespace Dirent

variable (de : Dirent)

theorem length_bytes : de.bytes.length = direntSize := by
  rw [bytes, List.length_append, length_split, List.length_ofFn]
  rfl

def key : List (BitVec 8) := text (List.ofFn de.name)

def slot : Option (List (BitVec 8) × Nat) := if de.inum = 0 then none else some (de.key, de.inum.toNat)

theorem slot_unused (unused : de.inum = 0) : de.slot = none := if_pos unused

theorem slot_used (used : de.inum ≠ 0) : de.slot = some (de.key, de.inum.toNat) := if_neg used

theorem slice_chars : slice de.chars 0 dirsiz = List.ofFn de.name := by
  apply List.ext_getElem (by rw [length_slice, List.length_ofFn])
  intro index left right
  rw [length_slice] at left
  simp [slice, chars, left]

theorem nameKey_chars : nameKey de.chars = de.key := by
  rw [nameKey, slice_chars, key]

theorem decode_bytes : decode de.bytes = de := by
  have number : BitVec.ofNat 16 (combine (de.bytes.take 2)) = de.inum := by
    rw [bytes, List.take_left' (length_split 2 _), combine_split]
    exact ofNat_toNat_mod rfl de.inum
  have chars : (fun i : Fin dirsiz => (de.bytes[2 + i.val]?).getD 0) = de.name := by
    funext i
    rw [bytes, List.getElem?_append_right (by rw [length_split]; omega), length_split, Nat.add_sub_cancel_left,
      List.getElem?_ofFn, dif_pos i.isLt, Option.getD_some]
  rw [decode, number, chars]

theorem isFor_eq (name : Chars) : de.isFor name = (entryFor (nameKey name) de.slot).isSome := by
  rw [isFor]
  by_cases unused : de.inum = 0
  · rw [de.slot_unused unused]
    exact decide_eq_false fun both => both.1 unused
  · rw [de.slot_used unused, entryFor_some, ← nameKey_chars]
    by_cases same : nameKey name = nameKey de.chars
    · rw [if_pos same]
      exact decide_eq_true ⟨unused, (namecmp_eq_zero _ _).mpr same⟩
    · rw [if_neg same]
      exact decide_eq_false fun both => same ((namecmp_eq_zero _ _).mp both.2)

theorem isFree_eq : de.isFree = de.slot.isNone := by
  rw [isFree]
  by_cases unused : de.inum = 0
  · rw [de.slot_unused unused]
    exact decide_eq_true unused
  · rw [de.slot_used unused]
    exact decide_eq_false unused

end Dirent

end OsLabs.Fs
