import OsLabs.Fs.FsDir
import OsLabs.Fs.FsFile

/-!
A directory is a finite map from names to inode numbers: the loops over its entries are those of a row of slots, and
writing one entry replaces one slot.
-/

namespace OsLabs.Fs

open Function OsLabs.ByteField OsLabs.Outcomes OsLabs.SlotMap

def dirents (bytes : List (BitVec 8)) : List Dirent :=
  (List.range (bytes.length / direntSize)).map fun k => .decode ((bytes.drop (direntSize * k)).take direntSize)

section Entries

variable {first second bytes : List (BitVec 8)}

theorem length_dirents (bytes : List (BitVec 8)) : (dirents bytes).length = bytes.length / direntSize := by
  rw [dirents, List.length_map, List.length_range]

theorem dirents_append (whole : first.length % direntSize = 0) :
    dirents (first ++ second) = dirents first ++ dirents second := by
  have count : (first ++ second).length / direntSize = first.length / direntSize + second.length / direntSize := by
    simp only [List.length_append, direntSize] at *
    omega
  have size : direntSize * (first.length / direntSize) = first.length := Nat.mul_div_cancel' (Nat.dvd_of_mod_eq_zero whole)
  rw [dirents, count, List.range_add, List.map_append, List.map_map]
  congr 1
  · apply List.map_congr_left
    intro k member
    have inside : direntSize * k + direntSize ≤ first.length := by
      have := List.mem_range.mp member
      simp only [direntSize] at *
      omega
    rw [List.drop_append_of_le_length (by omega), List.take_append_of_le_length (by rw [List.length_drop]; omega)]
  · apply List.map_congr_left
    intro k _
    rw [Function.comp_apply, Nat.mul_add, size, List.drop_length_add_append]

theorem dirents_bytes (de : Dirent) : dirents de.bytes = [de] := by
  have size := de.length_bytes
  rw [dirents, size, Nat.div_self (by decide), List.range_one, List.map_singleton, Nat.mul_zero, List.drop_zero,
    List.take_of_length_le (by omega), de.decode_bytes]

theorem dirents_split {i : Nat} (inside : direntSize * i ≤ bytes.length) :
    dirents bytes = dirents (bytes.take (direntSize * i)) ++ dirents (bytes.drop (direntSize * i)) ∧
      (dirents (bytes.take (direntSize * i))).length = i := by
  have length : (bytes.take (direntSize * i)).length = direntSize * i := List.length_take_of_le inside
  rw [← dirents_append (by rw [length, Nat.mul_mod_right]), List.take_append_drop, length_dirents, length,
    Nat.mul_div_cancel_left _ (by decide)]
  exact ⟨rfl, rfl⟩

theorem take_dirents {i : Nat} (inside : direntSize * i ≤ bytes.length) :
    (dirents bytes).take i = dirents (bytes.take (direntSize * i)) := by
  obtain ⟨parts, length⟩ := dirents_split inside
  rw [parts, List.take_left' length]

theorem drop_dirents (i : Nat) : (dirents bytes).drop i = dirents (bytes.drop (direntSize * i)) := by
  by_cases inside : direntSize * i ≤ bytes.length
  · obtain ⟨parts, length⟩ := dirents_split inside
    rw [parts, List.drop_left' length]
  · have few : (dirents bytes).length ≤ i := by
      rw [length_dirents]
      simp only [direntSize] at *
      omega
    rw [List.drop_of_length_le few, List.drop_of_length_le (by omega)]
    rfl

theorem dirents_overwrite {i : Nat} (inside : direntSize * i ≤ bytes.length) (de : Dirent) :
    dirents (overwrite bytes (direntSize * i) de.bytes) = (dirents bytes).take i ++ de :: (dirents bytes).drop (i + 1) := by
  have length : (bytes.take (direntSize * i)).length = direntSize * i := List.length_take_of_le inside
  rw [overwrite, List.append_assoc, dirents_append (by rw [length, Nat.mul_mod_right]),
    dirents_append (by rw [de.length_bytes, Nat.mod_self]), dirents_bytes, take_dirents inside, drop_dirents,
    de.length_bytes, Nat.mul_succ, List.singleton_append]

theorem getElem?_dirents {k : Nat} (inside : direntSize * k + direntSize ≤ bytes.length) :
    (dirents bytes)[k]? = some (.decode ((bytes.drop (direntSize * k)).take direntSize)) := by
  have bound : k < bytes.length / direntSize := by
    simp only [direntSize] at *
    omega
  rw [dirents, List.getElem?_map, List.getElem?_range bound, Option.map_some]

end Entries

section Scan

variable {disk : Disk} {d : Dinode}

theorem drop_dirents_past {k : Nat} (past : ¬direntSize * k < d.size.toNat) :
    (dirents (contents disk d)).drop k = [] := by
  apply List.drop_of_length_le
  rw [length_dirents, length_contents]
  simp only [direntSize] at *
  omega

theorem scan_eq (sb : Layout) (stop : Dirent → Bool) (failure : DirFailure) (file : d.type ≠ tDev)
    (filled : Filled disk d d.size.toNat) (whole : d.size.toNat % direntSize = 0) {fuel k : Nat}
    (enough : d.size.toNat ≤ direntSize * (k + fuel)) (start : direntSize * k ≤ d.size.toNat) :
    scan sb stop failure fuel ⟨disk, d⟩ (direntSize * k) =
      .ok (direntSize * (k + ((dirents (contents disk d)).drop k).findIdx stop),
        ((dirents (contents disk d)).drop k).find? stop, ⟨disk, d⟩) := by
  have length := length_contents disk d
  induction fuel generalizing k with
  | zero =>
      rw [Nat.add_zero] at enough
      rw [scan, drop_dirents_past (Nat.not_lt.mpr enough)]
      rfl
  | succ fuel ih =>
      rw [scan]
      by_cases more : direntSize * k < d.size.toNat
      · have inside : direntSize * k + direntSize ≤ d.size.toNat := by
          simp only [direntSize] at *
          omega
        have small := d.size.isLt
        have off : (BitVec.ofNat 32 (direntSize * k)).toNat = direntSize * k := by
          rw [BitVec.toNat_ofNat, Nat.mod_eq_of_lt (by omega)]
        have n : (BitVec.ofNat 32 direntSize).toNat = direntSize := rfl
        have within : ¬d.Outside (BitVec.ofNat 32 (direntSize * k)) (BitVec.ofNat 32 direntSize) := by
          rw [Dinode.Outside, off, n]
          omega
        have here : (dirents (contents disk d))[k]? = _ := getElem?_dirents (by rw [length]; exact inside)
        have size : (((contents disk d).drop (direntSize * k)).take direntSize).length = direntSize := by
          rw [List.length_take, List.length_drop, length]
          omega
        obtain ⟨bound, entry⟩ := List.getElem?_eq_some_iff.mp here
        rw [if_pos more, readi_contents filled file within, off, n, List.drop_eq_getElem_cons bound, entry]
        simp only [Except.mapError, ok_bind, size, ne_eq, not_true_eq_false, if_false]
        rw [List.findIdx_cons, List.find?_cons]
        by_cases stops : stop (.decode (((contents disk d).drop (direntSize * k)).take direntSize)) = true
        · rw [if_pos stops, stops]
          rfl
        · have later : d.size.toNat ≤ direntSize * (k + 1 + fuel) := by
            rwa [Nat.add_right_comm]
          rw [if_neg stops, Bool.eq_false_iff.mpr stops, ← Nat.mul_succ, ih later inside, cond_false,
            Nat.succ_add_eq_add_succ]
      · rw [if_neg more, drop_dirents_past more]
        rfl

end Scan

abbrev Slots := List (Option (List (BitVec 8) × Nat))

section Maps

variable (es : List Dirent) (name : Chars)

theorem findIdx_isFor : es.findIdx (Dirent.isFor name) = position (es.map Dirent.slot) (nameKey name) := by
  rw [position, List.findIdx_map]
  exact congrArg (List.findIdx · es) (funext fun de => de.isFor_eq name)

theorem findIdx_isFree : es.findIdx Dirent.isFree = firstFree (es.map Dirent.slot) := by
  rw [firstFree, List.findIdx_map]
  exact congrArg (List.findIdx · es) (funext Dirent.isFree_eq)

theorem find?_isFor :
    (es.find? (Dirent.isFor name)).map (fun de => de.inum.toNat) = lookup (es.map Dirent.slot) (nameKey name) := by
  induction es with
  | nil => rfl
  | cons de es ih =>
      rw [List.map_cons, lookup_cons, List.find?_cons, ← ih, de.isFor_eq name]
      by_cases used : de.inum = 0
      · rw [de.slot_unused used]
        rfl
      · rw [de.slot_used used, entryFor_some]
        by_cases same : nameKey name = de.key
        · rw [if_pos same]
          rfl
        · rw [if_neg same]
          rfl

end Maps

def Dirent.forName (name : Chars) (inum : Nat) : Dirent :=
  ⟨BitVec.ofNat 16 inum, fun i => ((strncpy name dirsiz 0)[i.val]?).getD 0⟩

theorem Dirent.slot_forName {name : Chars} {inum : Nat} (positive : 1 ≤ inum) (small : inum ≤ 65535) :
    (Dirent.forName name inum).slot = some (nameKey name, inum) := by
  have number : (BitVec.ofNat 16 inum).toNat = inum := by
    rw [BitVec.toNat_ofNat, Nat.mod_eq_of_lt (by omega)]
  have used : (Dirent.forName name inum).inum ≠ 0 := by
    intro zero
    have empty : (BitVec.ofNat 16 inum).toNat = 0 := congrArg BitVec.toNat zero
    omega
  have chars : List.ofFn (Dirent.forName name inum).name = strncpy name dirsiz 0 := by
    have length := length_strncpy name dirsiz 0
    apply List.ext_getElem (by rw [List.length_ofFn, length])
    intro index _ inside
    rw [List.getElem_ofFn]
    exact congrArg (·.getD 0) (List.getElem?_eq_getElem inside)
  rw [slot_used _ used, key, chars, text_strncpy, nameKey, forName, number]

def Mount.slots (s : Mount) (dp : Fin ninode) : Slots :=
  (dirents (contents s.disk (s.icache dp).copy)).map Dirent.slot

theorem slice_getD (bytes : List (BitVec 8)) : slice (fun i => (bytes[i]?).getD 0) 0 bytes.length = bytes := by
  apply List.ext_getElem (length_slice ..)
  intro index left right
  simp [slice, right]

namespace Mount

/-- Room for one more entry: one that is unused, or behind the last one with the blocks for it. -/
def HasRoom (sb : Layout) (s : Mount) (dp : Fin ninode) : Prop :=
  firstFree (s.slots dp) < (s.slots dp).length ∨
    (s.icache dp).copy.size.toNat + direntSize ≤ maxFile * bsize ∧
      (s.work dp).cost ((touched (s.icache dp).copy.size.toNat direntSize).biUnion spotsFor) ≤ (sb.unused s.disk).card

def Spare (s : Mount) (inum : Nat) : Prop := ∃ ip, 0 < (s.icache ip).ref → (s.icache ip).inum = inum

/-- The disk and the places in use are as they were, and no place is in use that was not. -/
def Same (s s' : Mount) : Prop :=
  s'.disk = s.disk ∧ (∀ ip, 0 < (s.icache ip).ref → s'.icache ip = s.icache ip) ∧
    ∀ ip, (s'.icache ip).ref = (s.icache ip).ref

inductive Got (s : Mount) (inum : Nat) : Fin ninode × Mount → Prop
  | cached (ip : Fin ninode) (used : 0 < (s.icache ip).ref) (same : (s.icache ip).inum = inum) :
      Got s inum (ip, s.setSlot ip { s.icache ip with ref := (s.icache ip).ref + 1 })
  | placed (ip : Fin ninode) (unused : (s.icache ip).ref = 0)
      (absent : ∀ other, 0 < (s.icache other).ref → (s.icache other).inum ≠ inum) :
      Got s inum (ip, s.setSlot ip ⟨inum, 1, false, (s.icache ip).copy⟩)

theorem iget_meets (s : Mount) (inum : Nat) :
    Meets (fun panic => panic = .igetNoInodes ∧ ¬s.Spare inum) (s.Got inum) (s.iget inum) := by
  rw [iget]
  cases cached : (List.finRange ninode).find? fun ip => 0 < (s.icache ip).ref && (s.icache ip).inum = inum with
  | some ip =>
      have here := List.find?_some cached
      simp only [Bool.and_eq_true, decide_eq_true_eq] at here
      exact .cached ip here.1 here.2
  | none =>
      have absent (ip : Fin ninode) (held : 0 < (s.icache ip).ref) : (s.icache ip).inum ≠ inum := by
        intro same
        have none := List.find?_eq_none.mp cached ip (List.mem_finRange ip)
        simp [held, same] at none
      cases free : (List.finRange ninode).find? fun ip => (s.icache ip).ref = 0 with
      | some ip =>
          have unused := List.find?_some free
          rw [decide_eq_true_eq] at unused
          exact .placed ip unused absent
      | none =>
          refine ⟨rfl, ?_⟩
          rintro ⟨ip, place⟩
          have taken := List.find?_eq_none.mp free ip (List.mem_finRange ip)
          have held : 0 < (s.icache ip).ref := Nat.pos_of_ne_zero (by simpa using taken)
          exact absent ip held (place held)

theorem iget_spare {s : Mount} {inum : Nat} (spare : s.Spare inum) : ∃ got, s.iget inum = .ok got ∧ s.Got inum got :=
  ((s.iget_meets inum).mono (fun _ panics => panics.2 spare) fun _ holds => holds).returns

theorem Got.spare {s : Mount} {inum : Nat} {got : Fin ninode × Mount} (holds : s.Got inum got) : s.Spare inum := by
  cases holds with
  | cached ip used same => exact ⟨ip, fun _ => same⟩
  | placed ip unused absent => exact ⟨ip, fun used => absurd unused used.ne'⟩

theorem Got.inum {s : Mount} {inum : Nat} {got : Fin ninode × Mount} (holds : s.Got inum got) :
    (got.2.icache got.1).inum = inum := by
  cases holds with
  | cached ip used same =>
      rw [setSlot_self]
      exact same
  | placed ip unused absent => rw [setSlot_self]

theorem iput_kept {sb : Layout} {s : Mount} {ip : Fin ninode}
    (kept : ¬((s.icache ip).valid = true ∧ (s.icache ip).copy.nlink = 0 ∧ (s.icache ip).ref = 1)) :
    s.iput sb ip = .ok (s.setSlot ip { s.icache ip with ref := (s.icache ip).ref - 1 }) := by
  rw [iput, if_neg kept]
  rfl

theorem setSlot_setSlot (s : Mount) (ip : Fin ninode) (first second : Inode) :
    (s.setSlot ip first).setSlot ip second = s.setSlot ip second := by
  simp only [setSlot, update_idem]

theorem setSlot_eq (s : Mount) (ip : Fin ninode) : s.setSlot ip (s.icache ip) = s := by
  simp only [setSlot, update_eq_self]

theorem iget_iput (sb : Layout) {s : Mount} {inum : Nat} (spare : s.Spare inum) :
    ∃ ip held s', s.iget inum = .ok (ip, held) ∧ held.iput sb ip = .ok s' ∧ s.Same s' ∧
      (0 < (s.icache ip).ref → (s.icache ip).inum = inum) := by
  obtain ⟨_, got, ⟨ip, used, same⟩ | ⟨ip, unused, -⟩⟩ := iget_spare spare
  · refine ⟨ip, _, s, got, ?_, ⟨rfl, fun _ _ => rfl, fun _ => rfl⟩, fun _ => same⟩
    rw [iput_kept, setSlot_setSlot, setSlot_self, Nat.add_sub_cancel, setSlot_eq]
    rw [setSlot_self]
    rintro ⟨-, -, last⟩
    exact used.ne' (Nat.succ.inj last)
  · refine ⟨ip, _, s.setSlot ip ⟨inum, 0, false, (s.icache ip).copy⟩, got, ?_, ⟨rfl, fun other held => ?_, fun other => ?_⟩,
      fun used => absurd unused used.ne'⟩
    · rw [iput_kept, setSlot_setSlot, setSlot_self]
      · rfl
      · rw [setSlot_self]
        exact fun last => Bool.false_ne_true last.1
    · exact s.setSlot_other _ fun equal => held.ne' (equal ▸ unused)
    · by_cases equal : other = ip
      · rw [equal, setSlot_self, unused]
      · rw [setSlot_other _ _ equal]

end Mount

/-- A directory whose lock the caller holds: its copy is the inode on the disk, its blocks are there and its size is
that of a number of entries. No other place of the cache is for its inode. -/
structure Directory (sb : Layout) (s : Mount) (dp : Fin ninode) : Prop where
  intact : sb.Intact s.disk (s.icache dp).inum
  copy : (s.icache dp).copy = sb.inode s.disk (s.icache dp).inum
  type : (s.icache dp).copy.type = tDir
  whole : (s.icache dp).copy.size.toNat % direntSize = 0
  held : 0 < (s.icache dp).ref
  alone : ∀ ip, 0 < (s.icache ip).ref → (s.icache ip).inum = (s.icache dp).inum → ip = dp

/-- `dirlookup` of a name returns an inode with this number, or nothing. Without a place in the cache for the inode, it
panics. -/
def Yields (sb : Layout) (s : Mount) (dp : Fin ninode) (name : Chars) : Option Nat → Prop
  | none => s.dirlookup sb dp name = .ok (none, s)
  | some inum => s.Spare inum →
      ∃ off ip held, s.dirlookup sb dp name = .ok (some (off, ip), held) ∧ (held.icache ip).inum = inum

namespace Directory

variable {sb : Layout} {s : Mount} {dp : Fin ninode} (directory : Directory sb s dp)

include directory

theorem regular : (s.icache dp).copy.type ≠ tDev := by
  rw [directory.type]
  decide

theorem filled : Filled s.disk (s.icache dp).copy (s.icache dp).copy.size.toNat := by
  rw [directory.copy]
  exact directory.intact.filled

theorem scan (stop : Dirent → Bool) (failure : DirFailure) :
    Fs.scan sb stop failure (s.icache dp).copy.size.toNat (s.work dp) 0 =
      .ok (direntSize * (dirents (contents s.disk (s.icache dp).copy)).findIdx stop,
        (dirents (contents s.disk (s.icache dp).copy)).find? stop, s.work dp) := by
  have enough : (s.icache dp).copy.size.toNat ≤ direntSize * (0 + (s.icache dp).copy.size.toNat) := by
    simp only [direntSize]
    omega
  have all := scan_eq sb stop failure directory.regular directory.filled directory.whole enough (Nat.zero_le _)
  rwa [Nat.zero_add, List.drop_zero, Nat.mul_zero] at all

theorem dirlookup (name : Chars) :
    s.dirlookup sb dp name =
      (lookup (s.slots dp) (nameKey name)).elim (.ok (none, s)) fun inum =>
        ((s.iget inum).mapError .fs).map fun got =>
          (some (direntSize * position (s.slots dp) (nameKey name), got.1), got.2) := by
  rw [Mount.dirlookup, if_neg (not_not.mpr directory.type), directory.scan, ok_bind, findIdx_isFor, Mount.slots,
    ← find?_isFor]
  simp only [Mount.finish_work]
  cases (dirents (contents s.disk (s.icache dp).copy)).find? (Dirent.isFor name) with
  | none => rfl
  | some de =>
      rw [Option.map_some, Option.elim_some]
      dsimp only
      cases s.iget de.inum.toNat <;> rfl

theorem size_le : (s.icache dp).copy.size.toNat ≤ maxFile * bsize := by
  rw [directory.copy]
  exact directory.intact.size_le

theorem writeDirent {i : Nat} (de : Dirent) (failure : DirFailure)
    (inside : direntSize * i ≤ (s.icache dp).copy.size.toNat) (short : direntSize * i + direntSize ≤ maxFile * bsize)
    (room : (s.work dp).cost ((touched (direntSize * i) direntSize).biUnion spotsFor) ≤ (sb.unused s.disk).card) :
    ∃ s', s.writeDirent sb dp de (direntSize * i) failure = .ok s' ∧ Directory sb s' dp ∧
      s'.slots dp = put (s.slots dp) i de.slot ∧
      ∃ copy, s'.icache = update s.icache dp { s.icache dp with copy } := by
  have most : maxFile * bsize = 71680 := rfl
  have off : (BitVec.ofNat 32 (direntSize * i)).toNat = direntSize * i := by
    rw [BitVec.toNat_ofNat, Nat.mod_eq_of_lt (by omega)]
  have n : (BitVec.ofNat 32 direntSize).toNat = direntSize := rfl
  have copy := directory.copy
  have work : s.work dp = ⟨s.disk, sb.inode s.disk (s.icache dp).inum⟩ := by rw [Mount.work, copy]
  have regular := directory.regular
  rw [copy] at regular inside
  have accepted : ¬(sb.inode s.disk (s.icache dp).inum).Refuses (BitVec.ofNat 32 (direntSize * i))
      (BitVec.ofNat 32 direntSize) := by
    rw [Dinode.Refuses, Dinode.Outside, off, n]
    omega
  rw [work] at room
  have enough (panic : Panic) (fails : panic = .outOfBlocks ∧ (sb.unused s.disk).card <
      Work.cost ⟨s.disk, sb.inode s.disk (s.icache dp).inum⟩ ((touched (BitVec.ofNat 32 (direntSize * i)).toNat
        (BitVec.ofNat 32 direntSize).toNat).biUnion spotsFor)) : False := by
    rw [off, n] at fails
    omega
  obtain ⟨⟨reply, later⟩, returns, done, became, -⟩ :=
    ((directory.intact.writei_became regular (fun i => (de.bytes[i]?).getD 0) accepted).mono enough
      fun _ holds => holds).returns
  dsimp only at done became
  subst done
  have data : slice (fun i => (de.bytes[i]?).getD 0) 0 direntSize = de.bytes := by
    rw [← de.length_bytes, slice_getD]
  rw [off, n, data] at became
  have within : direntSize * i ≤ (contents s.disk (sb.inode s.disk (s.icache dp).inum)).length := by
    rwa [length_contents]
  have size := became.size
  rw [length_overwrite within, length_contents, de.length_bytes] at size
  have slot : (s.finish dp later).icache dp = { s.icache dp with copy := later.ip } := s.setSlot_self dp _
  have others (ip : Fin ninode) (other : ip ≠ dp) : (s.finish dp later).icache ip = s.icache ip :=
    update_of_ne other _ _
  have whole := directory.whole
  have type := directory.type
  rw [copy] at whole type
  refine ⟨s.finish dp later, ?_, ⟨?_, ?_, ?_, ?_, ?_, ?_⟩, ?_, later.ip, rfl⟩
  · rw [Mount.writeDirent, work, returns]
    rfl
  · rw [slot]
    exact became.intact
  · rw [slot]
    exact became.saved.symm
  · rw [slot]
    dsimp only
    rw [became.fields]
    exact type
  · rw [slot]
    dsimp only
    rw [size]
    simp only [direntSize] at *
    omega
  · rw [slot]
    exact directory.held
  · intro ip held same
    by_contra other
    rw [others ip other] at held same
    rw [slot] at same
    exact other (directory.alone ip held same)
  · rw [Mount.slots, slot]
    dsimp only
    rw [show (s.finish dp later).disk = later.disk from rfl, became.mine, dirents_overwrite within, Mount.slots, put,
      List.map_append, List.map_cons, List.map_take, List.map_drop, copy]

theorem length_slots : direntSize * (s.slots dp).length = (s.icache dp).copy.size.toNat := by
  rw [Mount.slots, List.length_map, length_dirents, length_contents]
  exact Nat.mul_div_cancel' (Nat.dvd_of_mod_eq_zero directory.whole)

theorem replaceDirent {i : Nat} (de : Dirent) (failure : DirFailure) (inside : i < (s.slots dp).length) :
    ∃ s', s.writeDirent sb dp de (direntSize * i) failure = .ok s' ∧ Directory sb s' dp ∧
      s'.slots dp = put (s.slots dp) i de.slot ∧
      ∃ copy, s'.icache = update s.icache dp { s.icache dp with copy } := by
  have length := directory.length_slots
  have most := directory.size_le
  have within : direntSize * i + direntSize ≤ (s.icache dp).copy.size.toNat := by
    rw [← length, ← Nat.mul_succ]
    exact Nat.mul_le_mul_left _ inside
  have nothing : (s.work dp).cost ((touched (direntSize * i) direntSize).biUnion spotsFor) = 0 :=
    Filled.cost_zero directory.filled within
  exact directory.writeDirent de failure (by omega) (by omega) (nothing ▸ Nat.zero_le _)

theorem dirlink_absent {name : Chars} {inum : Nat} (absent : lookup (s.slots dp) (nameKey name) = none)
    (positive : 1 ≤ inum) (small : inum ≤ 65535) (room : s.HasRoom sb dp) :
    ∃ s', s.dirlink sb dp name inum = .ok (0, s') ∧ Directory sb s' dp ∧
      s'.slots dp = put (s.slots dp) (firstFree (s.slots dp)) (some (nameKey name, inum)) ∧
      ∃ copy, s'.icache = update s.icache dp { s.icache dp with copy } := by
  have wrote : ∃ s', s.writeDirent sb dp (.forName name inum) (direntSize * firstFree (s.slots dp)) .dirlink = .ok s' ∧
      Directory sb s' dp ∧ s'.slots dp = put (s.slots dp) (firstFree (s.slots dp)) (Dirent.forName name inum).slot ∧
      ∃ copy, s'.icache = update s.icache dp { s.icache dp with copy } := by
    by_cases reused : firstFree (s.slots dp) < (s.slots dp).length
    · exact directory.replaceDirent _ _ reused
    · obtain ⟨short, blocks⟩ := room.resolve_left reused
      have last : firstFree (s.slots dp) = (s.slots dp).length := le_antisymm List.findIdx_le_length (Nat.not_lt.mp reused)
      have length := directory.length_slots
      rw [last]
      exact directory.writeDirent _ _ length.le (length.symm ▸ short) (length.symm ▸ blocks)
  obtain ⟨s', returns, later, slots, others⟩ := wrote
  rw [Dirent.slot_forName positive small] at slots
  refine ⟨s', ?_, later, slots, others⟩
  rw [Mount.dirlink, directory.dirlookup, absent, Option.elim_none, ok_bind]
  dsimp only
  rw [directory.scan, ok_bind]
  dsimp only
  rw [Mount.finish_work, findIdx_isFree]
  exact (congrArg (· >>= _) returns).trans rfl

theorem same {s' : Mount} (same : s.Same s') : Directory sb s' dp ∧ s'.slots dp = s.slots dp := by
  obtain ⟨disk, places, refs⟩ := same
  have place := places dp directory.held
  refine ⟨⟨?_, ?_, ?_, ?_, ?_, fun ip held equal => ?_⟩, ?_⟩
  · rw [disk, place]
    exact directory.intact
  · rw [disk, place]
    exact directory.copy
  · rw [place]
    exact directory.type
  · rw [place]
    exact directory.whole
  · rw [place]
    exact directory.held
  · rw [refs] at held
    rw [places ip held, place] at equal
    exact directory.alone ip held equal
  · rw [Mount.slots, Mount.slots, disk, place]

theorem dirlink_present {name : Chars} {found : Nat} (present : lookup (s.slots dp) (nameKey name) = some found)
    (other : found ≠ (s.icache dp).inum) (spare : s.Spare found) (inum : Nat) :
    ∃ s', s.dirlink sb dp name inum = .ok (-1, s') ∧ s.Same s' := by
  obtain ⟨ip, held, s', got, put, same, cached⟩ := Mount.iget_iput sb spare
  have differs : ip ≠ dp := by
    rintro rfl
    exact other (cached directory.held).symm
  refine ⟨s', ?_, same⟩
  rw [Mount.dirlink, directory.dirlookup, present, Option.elim_some, got]
  simp only [Except.mapError, Except.map, ok_bind]
  rw [if_neg differs, put]
  rfl

theorem dirlink_self {name : Chars} (present : lookup (s.slots dp) (nameKey name) = some (s.icache dp).inum)
    (inum : Nat) : s.dirlink sb dp name inum = .error .blocked := by
  obtain ⟨_, got, ⟨ip, used, same⟩ | ⟨ip, -, absent⟩⟩ := Mount.iget_spare ⟨dp, fun _ => rfl⟩
  · obtain rfl := directory.alone ip used same
    rw [Mount.dirlink, directory.dirlookup, present, Option.elim_some, got]
    simp only [Except.mapError, Except.map, ok_bind]
    exact if_pos trivial
  · exact absurd rfl (absent dp directory.held)

theorem dirlookup_some {name : Chars} {off : Nat} {ip : Fin ninode} {held : Mount}
    (returns : s.dirlookup sb dp name = .ok (some (off, ip), held)) :
    ∃ found, lookup (s.slots dp) (nameKey name) = some found ∧
      off = direntSize * position (s.slots dp) (nameKey name) ∧ s.iget found = .ok (ip, held) := by
  rw [directory.dirlookup] at returns
  cases present : lookup (s.slots dp) (nameKey name) with
  | none =>
      rw [present] at returns
      cases returns
  | some found =>
      rw [present, Option.elim_some] at returns
      cases got : s.iget found with
      | error panic =>
          rw [got] at returns
          cases returns
      | ok result =>
          rw [got] at returns
          cases returns
          exact ⟨found, rfl, rfl, got⟩

theorem dirlookup_none {name : Chars} {held : Mount} (returns : s.dirlookup sb dp name = .ok (none, held)) :
    lookup (s.slots dp) (nameKey name) = none := by
  rw [directory.dirlookup] at returns
  cases present : lookup (s.slots dp) (nameKey name) with
  | none => rfl
  | some found =>
      rw [present, Option.elim_some] at returns
      cases got : s.iget found with
      | error panic =>
          rw [got] at returns
          cases returns
      | ok result =>
          rw [got] at returns
          cases returns

theorem iget {inum : Nat} {ip : Fin ninode} {held : Mount} (got : s.iget inum = .ok (ip, held)) :
    Directory sb held dp ∧ held.slots dp = s.slots dp := by
  have place : held.disk = s.disk ∧ (∃ ref, 0 < ref ∧ held.icache dp = { s.icache dp with ref }) ∧
      ∀ other, 0 < (held.icache other).ref → (held.icache other).inum = (s.icache dp).inum → other = dp := by
    obtain ⟨ip, used, same⟩ | ⟨ip, unused, absent⟩ := (s.iget_meets inum).of_ok got
    · refine ⟨rfl, ?_, fun other held equal => ?_⟩
      · by_cases self : dp = ip
        · exact ⟨_, Nat.succ_pos _, by rw [self, Mount.setSlot_self]⟩
        · exact ⟨_, directory.held, s.setSlot_other _ self⟩
      · by_cases self : other = ip
        · rw [self, Mount.setSlot_self] at equal
          rw [self]
          exact directory.alone ip used equal
        · rw [s.setSlot_other _ self] at held equal
          exact directory.alone other held equal
    · have apart : dp ≠ ip := by
        rintro rfl
        exact directory.held.ne' unused
      refine ⟨rfl, ⟨_, directory.held, s.setSlot_other _ apart⟩, fun other held equal => ?_⟩
      by_cases self : other = ip
      · rw [self, Mount.setSlot_self] at equal
        exact absurd equal.symm (absent dp directory.held)
      · rw [s.setSlot_other _ self] at held equal
        exact directory.alone other held equal
  obtain ⟨disk, ⟨ref, positive, slot⟩, alone⟩ := place
  refine ⟨⟨?_, ?_, ?_, ?_, ?_, ?_⟩, ?_⟩
  · rw [disk, slot]
    exact directory.intact
  · rw [disk, slot]
    exact directory.copy
  · rw [slot]
    exact directory.type
  · rw [slot]
    exact directory.whole
  · rw [slot]
    exact positive
  · rw [slot]
    exact alone
  · rw [Mount.slots, Mount.slots, disk, slot]

theorem clearDirent {name : Chars} {found : Nat} (present : lookup (s.slots dp) (nameKey name) = some found) :
    ∃ s', s.clearDirent sb dp (direntSize * position (s.slots dp) (nameKey name)) = .ok s' ∧ Directory sb s' dp ∧
      s'.slots dp = put (s.slots dp) (position (s.slots dp) (nameKey name)) none := by
  obtain ⟨inside, -⟩ := List.getElem?_eq_some_iff.mp (getElem?_position present)
  obtain ⟨s', returns, later, slots, -⟩ := directory.replaceDirent ⟨0, fun _ => 0⟩ .unlinkWritei inside
  rw [Dirent.slot_unused _ rfl] at slots
  exact ⟨s', returns, later, slots⟩

theorem yields (name : Chars) : Yields sb s dp name (lookup (s.slots dp) (nameKey name)) := by
  have returns := directory.dirlookup name
  cases present : lookup (s.slots dp) (nameKey name) with
  | none =>
      rw [present] at returns
      exact returns
  | some found =>
      intro spare
      rw [present, Option.elim_some] at returns
      obtain ⟨_, got, holds⟩ := Mount.iget_spare spare
      rw [got] at returns
      exact ⟨_, _, _, returns, holds.inum⟩

end Directory

/-- A directory is a finite map from names to inode numbers, except that `dirlink` of a name that is there does not
return when its entry is for the directory itself. -/
theorem directory_is_map (sb : Layout) (s : Mount) (dp : Fin ninode) (directory : Directory sb s dp)
    (distinct : Distinct (s.slots dp)) (name : Chars) (inum : Nat) (positive : 1 ≤ inum) (small : inum ≤ 65535)
    (room : s.HasRoom sb dp) :
    (∀ other, Yields sb s dp other (lookup (s.slots dp) (nameKey other))) ∧
      (∀ off ip held, s.dirlookup sb dp name = .ok (some (off, ip), held) →
        ((∃ s', s.dirlink sb dp name inum = .ok (-1, s') ∧ s.Same s' ∧ Directory sb s' dp ∧
            s'.slots dp = s.slots dp) ↔
          lookup (s.slots dp) (nameKey name) ≠ some (s.icache dp).inum)) ∧
      (s.dirlookup sb dp name = .ok (none, s) →
        ∃ s', s.dirlink sb dp name inum = .ok (0, s') ∧ Directory sb s' dp ∧
          s'.slots dp = put (s.slots dp) (firstFree (s.slots dp)) (some (nameKey name, inum)) ∧
          (∀ other, Yields sb s' dp other
            (if nameKey other = nameKey name then some inum else lookup (s.slots dp) (nameKey other))) ∧
          Distinct (s'.slots dp)) ∧
      (∀ off ip held, s.dirlookup sb dp name = .ok (some (off, ip), held) →
        ∃ s', held.clearDirent sb dp off = .ok s' ∧ Directory sb s' dp ∧
          (∀ other, Yields sb s' dp other
            (if nameKey other = nameKey name then none else lookup (s.slots dp) (nameKey other))) ∧
          Distinct (s'.slots dp)) := by
  refine ⟨directory.yields, fun off ip held returns => ⟨?_, fun other => ?_⟩, fun returns => ?_,
    fun off ip held returns => ?_⟩
  · rintro ⟨s', linked, -⟩ self
    rw [directory.dirlink_self self] at linked
    cases linked
  · obtain ⟨found, present, -, got⟩ := directory.dirlookup_some returns
    have apart : found ≠ (s.icache dp).inum := fun self => other (self ▸ present)
    obtain ⟨s', linked, same⟩ := directory.dirlink_present present apart ((s.iget_meets found).of_ok got).spare inum
    exact ⟨s', linked, same, directory.same same⟩
  · have absent : lookup (s.slots dp) (nameKey name) = none := directory.dirlookup_none returns
    obtain ⟨s', linked, later, slots, -⟩ := directory.dirlink_absent absent positive small room
    refine ⟨s', linked, later, slots, fun other => ?_, ?_⟩
    · rw [← lookup_put absent, ← slots]
      exact later.yields other
    · rw [slots]
      exact distinct_put distinct absent inum
  · obtain ⟨found, present, rfl, got⟩ := directory.dirlookup_some returns
    obtain ⟨locked, slots⟩ := directory.iget got
    rw [← slots] at present distinct ⊢
    obtain ⟨s', cleared, later, emptied⟩ := locked.clearDirent present
    have entry := getElem?_position present
    refine ⟨s', cleared, later, fun other => ?_, ?_⟩
    · rw [← lookup_clear distinct entry, ← emptied]
      exact later.yields other
    · rw [emptied]
      exact distinct_clear distinct entry

def oneDir : Mount where
  disk := Layout.mkfs.setInode blank 1 { Dinode.zero with type := tDir }
  icache := fun ip => if ip = 0 then ⟨1, 1, true, { Dinode.zero with type := tDir }⟩ else ⟨0, 0, false, .zero⟩

theorem oneDir_directory : Directory Layout.mkfs oneDir 0 := by
  have bound : 1 < Layout.mkfs.inodeCount := by decide
  have record : Layout.mkfs.inode oneDir.disk 1 = { Dinode.zero with type := tDir } := by
    rw [oneDir, Layout.inode_setInode, update_self]
  refine ⟨⟨(settled_ialloc blank_owned bound (congrArg _ (inode_blank bound)) fun _ => rfl).owned_self, bound, ?_, ?_⟩,
    record.symm, rfl, rfl, Nat.one_pos, fun ip held _ => ?_⟩
  · exact record ▸ by decide
  · exact record ▸ fun bn below => absurd below (Nat.not_lt_zero _)
  · by_contra other
    rw [oneDir] at held
    dsimp only at held
    rw [if_neg other] at held
    exact absurd held (lt_irrefl 0)

theorem oneDir_room : oneDir.HasRoom Layout.mkfs 0 := by
  have free : (Layout.mkfs.unused oneDir.disk).card = 941 := unused_setInode _
  refine Or.inr ⟨by decide, ?_⟩
  rw [free]
  exact (cost_touched_le _ _ _).trans (by decide)

/-- `oneDir` after its first entry has been linked. -/
theorem oneDir_linked (name : Chars) (inum : Nat) (positive : 1 ≤ inum) (small : inum ≤ 65535) :
    ∃ s', Directory Layout.mkfs s' 0 ∧ s'.slots 0 = [some (nameKey name, inum)] ∧ s'.HasRoom Layout.mkfs 0 ∧
      (s'.icache 0).inum = 1 ∧ (s'.icache 1).ref = 0 := by
  have absent : lookup (oneDir.slots 0) (nameKey name) = none := rfl
  obtain ⟨s', -, later, slots, copy, cache⟩ := oneDir_directory.dirlink_absent absent positive small oneDir_room
  have one : s'.slots 0 = [some (nameKey name, inum)] := slots
  have size : (s'.icache 0).copy.size.toNat = direntSize := by
    rw [← later.length_slots, one]
    rfl
  have block : Filled s'.disk (s'.icache 0).copy (direntSize + direntSize) := by
    intro bn below
    have first := later.filled bn
    rw [size] at first
    simp only [direntSize, bsize] at *
    exact first (by omega)
  have nothing : (s'.work 0).cost ((touched direntSize direntSize).biUnion spotsFor) = 0 := Filled.cost_zero block le_rfl
  refine ⟨s', later, one, Or.inr ⟨?_, ?_⟩, ?_, ?_⟩
  · rw [size]
    decide
  · rw [size, nothing]
    exact Nat.zero_le _
  · rw [cache, update_self]
    rfl
  · rw [cache, update_of_ne (by decide)]
    rfl

def letter (character : BitVec 8) : Chars := fun i => if i = 0 then character else 0

def dot : Chars := letter 46

/-- In a directory with an entry for `a`, `a` is not linked again and `b` is linked behind it. -/
theorem directory_is_map_entries :
    ∃ s, s.slots 0 = [some ([97], 2)] ∧ Yields Layout.mkfs s 0 (letter 97) (some 2) ∧ s.Spare 2 ∧
      (∃ s', s.dirlink Layout.mkfs 0 (letter 97) 3 = .ok (-1, s') ∧ s'.slots 0 = [some ([97], 2)]) ∧
      ∃ s', s.dirlink Layout.mkfs 0 (letter 98) 3 = .ok (0, s') ∧ s'.slots 0 = [some ([97], 2), some ([98], 3)] := by
  obtain ⟨s, directory, slots, room, self, free⟩ := oneDir_linked (letter 97) 2 (by decide) (by decide)
  have distinct : Distinct (s.slots 0) := by
    rw [slots]
    exact List.nodup_singleton _
  have present : lookup (s.slots 0) (nameKey (letter 97)) = some 2 := by
    rw [slots]
    decide
  have absent : lookup (s.slots 0) (nameKey (letter 98)) = none := by
    rw [slots]
    decide
  have spare : s.Spare 2 := ⟨1, fun used => absurd free used.ne'⟩
  have map := fun name => directory_is_map Layout.mkfs s 0 directory distinct name 3 (by decide) (by decide) room
  have yields := (map (letter 97)).1 (letter 97)
  have nothing := (map (letter 98)).1 (letter 98)
  rw [present] at yields
  rw [absent] at nothing
  refine ⟨s, slots.trans (by decide), yields, spare, ?_, ?_⟩
  · obtain ⟨off, ip, held, found, -⟩ := yields spare
    obtain ⟨s', linked, -, -, same⟩ := ((map (letter 97)).2.1 off ip held found).mpr (by rw [present, self]; decide)
    exact ⟨s', linked, same.trans (slots.trans (by decide))⟩
  · obtain ⟨s', linked, -, linkedSlots, -⟩ := (map (letter 98)).2.2.1 nothing
    rw [slots] at linkedSlots
    exact ⟨s', linked, linkedSlots.trans (by decide)⟩

/-- With `.` in a directory, `dirlink` of `.` waits for the lock that its caller holds. -/
theorem dirlink_dot_blocks :
    ∃ s', Directory Layout.mkfs s' 0 ∧ Distinct (s'.slots 0) ∧ s'.HasRoom Layout.mkfs 0 ∧
      Yields Layout.mkfs s' 0 dot (some 1) ∧ s'.Spare 1 ∧
      s'.dirlink Layout.mkfs 0 dot 2 = .error .blocked := by
  obtain ⟨s', directory, slots, room, self, -⟩ := oneDir_linked dot 1 (by decide) (by decide)
  have present : lookup (s'.slots 0) (nameKey dot) = some 1 := by
    rw [slots]
    decide
  refine ⟨s', directory, ?_, room, ?_, ⟨0, fun _ => self⟩, directory.dirlink_self (by rw [present, self]) 2⟩
  · rw [slots]
    exact List.nodup_singleton _
  · rw [← present]
    exact directory.yields _

end OsLabs.Fs
