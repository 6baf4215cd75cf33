import OsLabs.Fs.FsRoom

/-!
An inode as an array of bytes. A place without a block reads as zeros. `writei` replaces the bytes it is given, in the
array of one inode, and `readi` returns them.
-/

namespace OsLabs.Fs

open OsLabs.ByteField OsLabs.Outcomes

def content (disk : Disk) (d : Dinode) (position : Nat) : BitVec 8 :=
  if blockAt disk d (position / bsize) = 0 then 0 else byteAt disk d position

def contents (disk : Disk) (d : Dinode) : List (BitVec 8) := slice (content disk d) 0 d.size.toNat

/-- An array with some bytes put in from `off` on. -/
def overwrite (bytes : List (BitVec 8)) (off : Nat) (data : List (BitVec 8)) : List (BitVec 8) :=
  bytes.take off ++ data ++ bytes.drop (off + data.length)

/-- The requests that `readi` refuses: `off > ip->size || off + n < off`. -/
def Dinode.Outside (d : Dinode) (off n : BitVec 32) : Prop :=
  d.size.toNat < off.toNat ∨ 2 ^ 32 ≤ off.toNat + n.toNat

def Dinode.Refuses (d : Dinode) (off n : BitVec 32) : Prop :=
  d.Outside off n ∨ maxFile * bsize < off.toNat + n.toNat

/-- An image on which one inode can be read and written: no block has two owners, the free map is right, and the file
has its blocks. -/
structure Layout.Intact (sb : Layout) (disk : Disk) (inum : Nat) : Prop where
  owned : sb.Owned disk (sb.inode disk)
  bound : inum < sb.inodeCount
  taken : (sb.inode disk inum).type ≠ 0
  filled : Filled disk (sb.inode disk inum) (sb.inode disk inum).size.toNat

/-- The contents of one inode became `bytes`, and those of the others are as they were. -/
structure Became (sb : Layout) (disk : Disk) (inum : Nat) (bytes : List (BitVec 8)) (later : Work) : Prop where
  intact : sb.Intact later.disk inum
  saved : sb.inode later.disk inum = later.ip
  fields : later.ip = { sb.inode disk inum with size := later.ip.size, addrs := later.ip.addrs }
  mine : contents later.disk later.ip = bytes
  others : ∀ other < sb.inodeCount, other ≠ inum → (sb.inode disk other).type ≠ 0 →
    sb.inode later.disk other = sb.inode disk other ∧
      contents later.disk (sb.inode disk other) = contents disk (sb.inode disk other)

variable {sb : Layout} {disk : Disk} {inum : Nat} {d : Dinode}

@[simp] theorem length_contents (disk : Disk) (d : Dinode) : (contents disk d).length = d.size.toNat :=
  length_slice ..

theorem content_filled {limit position : Nat} (filled : Filled disk d limit) (below : position < limit) :
    content disk d position = byteAt disk d position := by
  have start : position / bsize * bsize ≤ position := Nat.div_mul_le_self _ _
  exact if_neg (filled _ (by omega))

theorem take_contents {off : Nat} (inside : off ≤ d.size.toNat) :
    (contents disk d).take off = slice (content disk d) 0 off := by
  rw [contents, take_slice, Nat.min_eq_left inside]

theorem drop_contents {off : Nat} (inside : off ≤ d.size.toNat) :
    (contents disk d).drop off = slice (content disk d) off (d.size.toNat - off) := by
  have parts := slice_add (content disk d) 0 off (d.size.toNat - off)
  rw [Nat.add_sub_cancel' inside, Nat.zero_add] at parts
  rw [contents, parts, List.drop_left' (length_slice ..)]

theorem length_overwrite {bytes data : List (BitVec 8)} {off : Nat} (inside : off ≤ bytes.length) :
    (overwrite bytes off data).length = max bytes.length (off + data.length) := by
  simp only [overwrite, List.length_append, List.length_take, List.length_drop]
  omega

theorem Wrote.contents {base : Nat → Dinode} {src : Nat → BitVec 8} {off n : Nat} {w next : Work}
    (wrote : Wrote sb inum base src 0 off n w next) (filled : Filled w.disk w.ip w.ip.size.toNat)
    (later : Filled next.disk next.ip next.ip.size.toNat) (inside : off ≤ w.ip.size.toNat)
    (size : next.ip.size.toNat = max w.ip.size.toNat (off + n)) :
    contents next.disk next.ip = overwrite (Fs.contents w.disk w.ip) off (slice src 0 n) := by
  have kept {position : Nat} (below : position < w.ip.size.toNat) (outside : position < off ∨ off + n ≤ position) :
      content next.disk next.ip position = content w.disk w.ip position := by
    have start : position / bsize * bsize ≤ position := Nat.div_mul_le_self _ _
    rw [content_filled later (by omega), content_filled filled below,
      wrote.rest position (filled _ (by omega)) outside]
  have before : slice (content next.disk next.ip) 0 off = slice (content w.disk w.ip) 0 off :=
    slice_congr fun position _ high => kept (by omega) (Or.inl (by omega))
  have data : slice (content next.disk next.ip) off n = slice src 0 n := by
    apply slice_shift
    intro index below
    rw [content_filled later (by omega), (wrote.mine (off + index) (by omega) (by omega)).2, Nat.add_sub_cancel_left]
  have after : slice (content next.disk next.ip) (off + n) (next.ip.size.toNat - (off + n))
      = (Fs.contents w.disk w.ip).drop (off + n) := by
    by_cases longer : w.ip.size.toNat ≤ off + n
    · rw [List.drop_of_length_le (by rw [length_contents]; exact longer), show next.ip.size.toNat - (off + n) = 0 by omega]
      rfl
    · rw [drop_contents (by omega), show next.ip.size.toNat = w.ip.size.toNat by omega]
      exact slice_congr fun position low high => kept (by omega) (Or.inr low)
  have total : next.ip.size.toNat = off + (n + (next.ip.size.toNat - (off + n))) := by omega
  calc slice (content next.disk next.ip) 0 next.ip.size.toNat
      = slice (content next.disk next.ip) 0 (off + (n + (next.ip.size.toNat - (off + n)))) := by rw [← total]
    _ = slice (content w.disk w.ip) 0 off ++ (slice src 0 n ++ (Fs.contents w.disk w.ip).drop (off + n)) := by
        rw [slice_add, Nat.zero_add, slice_add, before, data, after]
    _ = overwrite (Fs.contents w.disk w.ip) off (slice src 0 n) := by
        rw [overwrite, take_contents inside, length_slice, List.append_assoc]

theorem Written.others {src : Nat → BitVec 8} {off n : BitVec 32} {got : Reply (BitVec 32) × Work} {other : Nat}
    (written : Written sb inum (sb.inode disk) src off n ⟨disk, d⟩ got) (bound : other < sb.inodeCount)
    (differs : other ≠ inum) (taken : (sb.inode disk other).type ≠ 0) :
    sb.inode got.2.disk other = sb.inode disk other ∧
      Fs.contents got.2.disk (sb.inode disk other) = Fs.contents disk (sb.inode disk other) := by
  have record := written.settled.saved other bound
  rw [Function.update_of_ne differs] at record
  refine ⟨record, slice_congr fun position _ _ => ?_⟩
  have refs := written.elsewhere.refOf differs bound taken
  have blocks (bn : Nat) : blockAt got.2.disk (sb.inode disk other) bn = blockAt disk (sb.inode disk other) bn := by
    rw [blockAt, refs, blockAt]
  rw [content, content, byteAt, byteAt, blocks]
  by_cases hole : blockAt disk (sb.inode disk other) (position / bsize) = 0
  · rw [if_pos hole, if_pos hole]
  · rw [if_neg hole, if_neg hole]
    by_cases done : got.1 = .done n
    · obtain ⟨spot, -, -, same⟩ := blockAt_ne_zero hole
      have kept := (written.wrote done).1.others other differs spot
      rw [refs_of bound taken, ← same] at kept
      rw [kept hole]
    · rw [written.refused done]

theorem Layout.Intact.settled (intact : sb.Intact disk inum) : Settled sb (sb.inode disk) disk :=
  ⟨fun _ _ => rfl, intact.owned⟩

theorem Written.became {src : Nat → BitVec 8} {off n : BitVec 32} {got : Reply (BitVec 32) × Work}
    (intact : sb.Intact disk inum)
    (written : Written sb inum (sb.inode disk) src off n ⟨disk, sb.inode disk inum⟩ got) (done : got.1 = .done n)
    (inside : off.toNat ≤ (sb.inode disk inum).size.toNat) :
    Became sb disk inum (overwrite (contents disk (sb.inode disk inum)) off.toNat (slice src 0 n.toNat)) got.2 := by
  obtain ⟨wrote, size⟩ := written.wrote done
  have saved : sb.inode got.2.disk inum = got.2.ip := by
    rw [written.settled.saved inum intact.bound, Function.update_self]
  refine ⟨⟨written.settled.owned_self, intact.bound, ?_, ?_⟩, saved, written.fields, ?_, ?_⟩
  · rw [saved, written.fields]
    exact intact.taken
  · rw [saved]
    exact written.filled
  · exact wrote.contents intact.filled written.filled inside size
  · exact fun other bound differs taken => written.others bound differs taken

theorem outside_iff {off n : BitVec 32} : d.size < off ∨ off + n < off ↔ d.Outside off n := by
  rw [Dinode.Outside]
  bv_omega

theorem readi_contents {off n : BitVec 32} (filled : Filled disk d d.size.toNat) (file : d.type ≠ tDev)
    (inside : ¬d.Outside off n) :
    readi sb ⟨disk, d⟩ off n = .ok (.done (((contents disk d).drop off.toNat).take n.toNat), ⟨disk, d⟩) := by
  have both := not_or.mp (outside_iff.not.mpr inside)
  have start : off.toNat ≤ d.size.toNat := by bv_omega
  have bytes : slice (byteAt disk d) off.toNat (min n.toNat (d.size.toNat - off.toNat))
      = slice (content disk d) off.toNat (min n.toNat (d.size.toNat - off.toNat)) :=
    slice_congr fun position _ high => (content_filled filled (by omega)).symm
  rw [readi_filled file both.1 both.2 fun bn below => filled bn (by dsimp only at below; omega), drop_contents start,
    take_slice, bytes]

theorem readi_refused {off n : BitVec 32} (file : d.type ≠ tDev) (outside : d.Outside off n) :
    readi sb ⟨disk, d⟩ off n = .ok (.failed, ⟨disk, d⟩) := by
  rw [readi, if_neg file, if_pos (outside_iff.mpr outside)]
  rfl

theorem writei_refused {src : Nat → BitVec 8} {off n : BitVec 32} (file : d.type ≠ tDev)
    (refused : d.Refuses off n) : writei sb inum ⟨disk, d⟩ src off n = .ok (.failed, ⟨disk, d⟩) := by
  rw [writei, if_neg file]
  by_cases outside : d.Outside off n
  · rw [if_pos (outside_iff.mpr outside)]
    rfl
  · have long := refused.resolve_left outside
    rw [if_neg (outside_iff.not.mpr outside), if_pos]
    · rfl
    · rw [Dinode.Outside] at outside
      bv_omega

theorem writei_done {src : Nat → BitVec 8} {off n : BitVec 32} {got : Reply (BitVec 32) × Work}
    (file : d.type ≠ tDev) (accepted : ¬d.Refuses off n) (returns : writei sb inum ⟨disk, d⟩ src off n = .ok got) :
    got.1 = .done n := by
  obtain ⟨inside, short⟩ := not_or.mp accepted
  have fits : ¬maxFile * bsize < (off + n).toNat := by
    rw [Dinode.Outside] at inside
    bv_omega
  rw [writei, if_neg file, if_neg (outside_iff.not.mpr inside), if_neg fits] at returns
  cases ran : writeLoop sb src n.toNat ⟨disk, d⟩ 0 off.toNat n.toNat with
  | error panic =>
      rw [ran] at returns
      cases returns
  | ok next =>
      rw [ran, ok_bind] at returns
      split at returns
      · cases returns
        rfl
      · cases returns
        rfl

theorem Layout.Intact.written (intact : sb.Intact disk inum) (src : Nat → BitVec 8) (off n : BitVec 32) :
    Meets (· = .outOfBlocks) (Written sb inum (sb.inode disk) src off n ⟨disk, sb.inode disk inum⟩)
      (writei sb inum ⟨disk, sb.inode disk inum⟩ src off n) :=
  writei_meets intact.settled intact.bound intact.taken rfl intact.filled

theorem Layout.Intact.spends (intact : sb.Intact disk inum) (src : Nat → BitVec 8) (off n : BitVec 32) :
    Meets (fun _ => (sb.unused disk).card <
        Work.cost ⟨disk, sb.inode disk inum⟩ ((touched off.toNat n.toNat).biUnion spotsFor))
      (fun got => got.1 = .done n →
        Spends sb ⟨disk, sb.inode disk inum⟩ ((touched off.toNat n.toNat).biUnion spotsFor) got.2)
      (writei sb inum ⟨disk, sb.inode disk inum⟩ src off n) :=
  writei_spends (w := ⟨disk, sb.inode disk inum⟩) intact.settled intact.bound intact.taken rfl intact.filled

theorem Layout.Intact.writei_became (intact : sb.Intact disk inum) (file : (sb.inode disk inum).type ≠ tDev)
    (src : Nat → BitVec 8) {off n : BitVec 32} (accepted : ¬(sb.inode disk inum).Refuses off n) :
    Meets (fun panic => panic = .outOfBlocks ∧ (sb.unused disk).card <
        Work.cost ⟨disk, sb.inode disk inum⟩ ((touched off.toNat n.toNat).biUnion spotsFor))
      (fun got => got.1 = .done n ∧
        Became sb disk inum (overwrite (contents disk (sb.inode disk inum)) off.toNat (slice src 0 n.toNat)) got.2 ∧
        Spends sb ⟨disk, sb.inode disk inum⟩ ((touched off.toNat n.toNat).biUnion spotsFor) got.2)
      (writei sb inum ⟨disk, sb.inode disk inum⟩ src off n) := by
  have inside : off.toNat ≤ (sb.inode disk inum).size.toNat := by
    rw [Dinode.Refuses, Dinode.Outside] at accepted
    omega
  cases returns : writei sb inum ⟨disk, sb.inode disk inum⟩ src off n with
  | error panic => exact ⟨(intact.written src off n).of_error returns, (intact.spends src off n).of_error returns⟩
  | ok got =>
      have done := writei_done file accepted returns
      exact ⟨done, ((intact.written src off n).of_ok returns).became intact done inside,
        (intact.spends src off n).of_ok returns done⟩

theorem Became.size {bytes : List (BitVec 8)} {later : Work} (became : Became sb disk inum bytes later) :
    later.ip.size.toNat = bytes.length := by
  rw [← became.mine, length_contents]

/-- An inode is an array of bytes. -/
theorem inode_is_byte_array (sb : Layout) (disk : Disk) (inum : Nat) (intact : sb.Intact disk inum)
    (file : (sb.inode disk inum).type = tFile) (src : Nat → BitVec 8) (off n : BitVec 32) :
    ((sb.inode disk inum).Refuses off n →
        writei sb inum ⟨disk, sb.inode disk inum⟩ src off n = .ok (.failed, ⟨disk, sb.inode disk inum⟩)) ∧
      (¬(sb.inode disk inum).Refuses off n →
        Work.cost ⟨disk, sb.inode disk inum⟩ ((touched off.toNat n.toNat).biUnion spotsFor) ≤ (sb.unused disk).card →
        ∃ later, writei sb inum ⟨disk, sb.inode disk inum⟩ src off n = .ok (.done n, later) ∧
          Became sb disk inum
            (overwrite (contents disk (sb.inode disk inum)) off.toNat (slice src 0 n.toNat)) later ∧
          later.ip.size.toNat = max (sb.inode disk inum).size.toNat (off.toNat + n.toNat)) ∧
      ((sb.inode disk inum).Outside off n →
        readi sb ⟨disk, sb.inode disk inum⟩ off n = .ok (.failed, ⟨disk, sb.inode disk inum⟩)) ∧
      (¬(sb.inode disk inum).Outside off n →
        readi sb ⟨disk, sb.inode disk inum⟩ off n =
          .ok (.done (((contents disk (sb.inode disk inum)).drop off.toNat).take n.toNat),
            ⟨disk, sb.inode disk inum⟩)) := by
  have regular : (sb.inode disk inum).type ≠ tDev := by
    rw [file]
    decide
  refine ⟨writei_refused regular, fun accepted room => ?_, readi_refused regular, readi_contents intact.filled regular⟩
  have enough (panic : Panic) (fails : panic = .outOfBlocks ∧ (sb.unused disk).card <
      Work.cost ⟨disk, sb.inode disk inum⟩ ((touched off.toNat n.toNat).biUnion spotsFor)) : False := by omega
  obtain ⟨⟨reply, later⟩, returns, done, became, -⟩ :=
    ((intact.writei_became regular src accepted).mono enough fun _ holds => holds).returns
  dsimp only at done became
  subst done
  refine ⟨later, returns, became, ?_⟩
  rw [Dinode.Refuses, Dinode.Outside] at accepted
  rw [became.size, length_overwrite (by rw [length_contents]; omega), length_contents, length_slice]

def oneFile : Disk := Layout.mkfs.setInode blank 1 { Dinode.zero with type := tFile }

theorem oneFile_inode : Layout.mkfs.inode oneFile 1 = { Dinode.zero with type := tFile } := by
  rw [oneFile, Layout.inode_setInode, Function.update_self]

theorem oneFile_intact : Layout.mkfs.Intact oneFile 1 := by
  have bound : 1 < Layout.mkfs.inodeCount := by decide
  refine ⟨(settled_ialloc blank_owned bound (congrArg _ (inode_blank bound)) fun _ => rfl).owned_self, bound, ?_, ?_⟩
  · rw [oneFile_inode]
    decide
  · rw [oneFile_inode]
    exact fun bn below => absurd below (Nat.not_lt_zero _)

theorem unused_setInode (d : Dinode) : (Layout.mkfs.unused (Layout.mkfs.setInode blank 1 d)).card = 941 := by
  have free : Layout.mkfs.unused (Layout.mkfs.setInode blank 1 d) = Finset.Ico Layout.mkfs.nmeta Layout.mkfs.size := by
    ext b
    rw [mem_unused, Finset.mem_Ico, and_comm]
    refine and_congr_left fun bound => ?_
    have apart := Layout.mkfs.iblock_lt_bblock b (show 1 < Layout.mkfs.inodeCount by decide)
    rw [Layout.mkfs.used_congr (Layout.mkfs.setInode_outside _ _ (by omega)), used_blank bound,
      decide_eq_false_iff_not, Nat.not_lt]
  rw [free, Nat.card_Ico]
  rfl

theorem oneFile_unused : (Layout.mkfs.unused oneFile).card = 941 := unused_setInode _

theorem inode_is_byte_array_new :
    ∃ later, writei Layout.mkfs 1 ⟨oneFile, Layout.mkfs.inode oneFile 1⟩ (fun _ => 7) 0 600 = .ok (.done 600, later) ∧
      later.ip.size.toNat = 600 := by
  have accepted : ¬(Layout.mkfs.inode oneFile 1).Refuses 0 600 := by
    rw [oneFile_inode, Dinode.Refuses, Dinode.Outside]
    decide
  have room : Work.cost ⟨oneFile, Layout.mkfs.inode oneFile 1⟩
      ((touched (0 : BitVec 32).toNat (600 : BitVec 32).toNat).biUnion spotsFor) ≤ (Layout.mkfs.unused oneFile).card := by
    rw [oneFile_unused]
    exact (cost_touched_le _ _ _).trans (by decide)
  obtain ⟨later, returns, -, size⟩ := (inode_is_byte_array Layout.mkfs oneFile 1 oneFile_intact
    (congrArg _ oneFile_inode) (fun _ => 7) 0 600).2.1 accepted room
  refine ⟨later, returns, size.trans ?_⟩
  rw [oneFile_inode]
  rfl

end OsLabs.Fs
