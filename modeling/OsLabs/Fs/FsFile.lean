import OsLabs.Fs.FsLogged

/-!
`filewrite` on a file of type `FD_INODE`, in a kernel where no other process uses the inode meanwhile. The bytes go to
`writei` in chunks, each in a transaction of its own, and the first chunk that is refused ends the call with those
before it stored.
-/

namespace OsLabs.Fs

open OsLabs.ByteField OsLabs.Outcomes

inductive FilePanic
  | fs (panic : Panic)
  | shortFilewrite
deriving DecidableEq

section Model

variable (sb : Layout) (inum : Nat)

/-- What `writei` returns, as an `int`; `consolewrite` returns the number of bytes it is given. -/
def replyOf (n1 : Nat) : Reply (BitVec 32) → Int
  | .failed => -1
  | .device => n1
  | .done r => r.toInt

/-- The loop of `filewrite` from byte `i` on, with what it leaves: `i`, the inode and `f->off`. A round moves at least
one byte. -/
def filewriteLoop (src : Nat → BitVec 8) (n : Nat) : Nat → Work → BitVec 32 → Nat →
    Except FilePanic (Nat × Work × BitVec 32)
  | 0, w, off, i => return (i, w, off)
  | fuel + 1, w, off, i =>
      if i < n then do
        let n1 := min (n - i) fileMax
        let got ← (writei sb inum w (fun index => src (i + index)) off (BitVec.ofNat 32 n1)).mapError .fs
        let r := replyOf n1 got.1
        let off := if 0 < r then off + BitVec.ofInt 32 r else off
        if r < 0 then return (i, got.2, off)
        else if r ≠ n1 then .error .shortFilewrite
        else filewriteLoop src n fuel got.2 off (i + r.toNat)
      else return (i, w, off)

/-- `filewrite`, with the inode and `f->off` after it. -/
def filewrite (writable : Bool) (w : Work) (off : BitVec 32) (src : Nat → BitVec 8) (n : BitVec 32) :
    Except FilePanic (Int × Work × BitVec 32) :=
  if writable then do
    let (i, w, off) ← filewriteLoop sb inum src n.toInt.toNat n.toInt.toNat w off 0
    return (if (i : Int) = n.toInt then n.toInt else -1, w, off)
  else return (-1, w, off)

end Model

variable {sb : Layout} {disk : Disk} {inum : Nat} {src : Nat → BitVec 8}

theorem overwrite_nil (bytes : List (BitVec 8)) (off : Nat) : overwrite bytes off [] = bytes := by
  rw [overwrite, List.append_nil, List.length_nil, Nat.add_zero, List.take_append_drop]

theorem overwrite_append {bytes : List (BitVec 8)} {off : Nat} (inside : off ≤ bytes.length)
    (first second : List (BitVec 8)) :
    overwrite (overwrite bytes off first) (off + first.length) second = overwrite bytes off (first ++ second) := by
  have start : (bytes.take off).length = off := List.length_take_of_le inside
  have taken : (overwrite bytes off first).take (off + first.length) = bytes.take off ++ first := by
    rw [overwrite, List.take_left' (by rw [List.length_append, start])]
  have dropped : (overwrite bytes off first).drop (off + first.length + second.length)
      = bytes.drop (off + (first.length + second.length)) := by
    rw [overwrite, ← List.drop_drop, List.drop_left' (by rw [List.length_append, start]), List.drop_drop, Nat.add_assoc]
  rw [overwrite, taken, dropped, overwrite, List.length_append, List.append_assoc (bytes.take off)]

theorem Became.refl (intact : sb.Intact disk inum) :
    Became sb disk inum (contents disk (sb.inode disk inum)) ⟨disk, sb.inode disk inum⟩ :=
  ⟨intact, rfl, rfl, rfl, fun _ _ _ _ => ⟨rfl, rfl⟩⟩

theorem Became.trans {bytes more : List (BitVec 8)} {later last : Work} (first : Became sb disk inum bytes later)
    (second : Became sb later.disk inum more last) : Became sb disk inum more last := by
  refine ⟨second.intact, second.saved, ?_, second.mine, fun other bound differs taken => ?_⟩
  · rw [second.fields, first.saved, first.fields]
  · obtain ⟨record, same⟩ := first.others other bound differs taken
    obtain ⟨record', same'⟩ := second.others other bound differs (record ▸ taken)
    rw [record] at record' same'
    exact ⟨record', same'.trans same⟩

theorem touched_union (off first second : Nat) :
    touched off first ∪ touched (off + first) second = touched off (first + second) := by
  ext bn
  simp only [touched, Finset.mem_union, bsize]
  by_cases none : first = 0
  · simp [none]
  · by_cases last : second = 0
    · simp [last]
    · rw [if_neg none, if_neg last, if_neg (by omega), Finset.mem_Icc, Finset.mem_Icc, Finset.mem_Icc]
      omega

structure Filed (sb : Layout) (disk : Disk) (inum : Nat) (src : Nat → BitVec 8) (n i : Nat) (off : BitVec 32)
    (result : Nat × Work × BitVec 32) (k : Nat) : Prop where
  index : result.1 = i + k
  bound : i + k ≤ n
  became : Became sb disk inum
    (overwrite (contents disk (sb.inode disk inum)) off.toNat (slice src i k)) result.2.1
  moved : result.2.2.toNat = off.toNat + k
  stopped : i + k < n → k % fileMax = 0 ∧
    result.2.1.ip.Refuses result.2.2 (BitVec.ofNat 32 (min (n - (i + k)) fileMax))

theorem Filed.cons {n i n1 k : Nat} {off next : BitVec 32} {later : Work} {result : Nat × Work × BitVec 32}
    (inside : off.toNat ≤ (sb.inode disk inum).size.toNat) (chunk : n1 = min (n - i) fileMax) (more : i < n)
    (became : Became sb disk inum (overwrite (contents disk (sb.inode disk inum)) off.toNat (slice src i n1)) later)
    (moved : next.toNat = off.toNat + n1) (rest : Filed sb later.disk inum src n (i + n1) next result k) :
    Filed sb disk inum src n i off result (n1 + k) := by
  have bytes : contents later.disk (sb.inode later.disk inum)
      = overwrite (contents disk (sb.inode disk inum)) off.toNat (slice src i n1) := by
    rw [became.saved, became.mine]
  have within : off.toNat ≤ (contents disk (sb.inode disk inum)).length := by
    rw [length_contents]
    exact inside
  have joined := overwrite_append within (slice src i n1) (slice src (i + n1) k)
  have bound := rest.bound
  refine ⟨by rw [rest.index, Nat.add_assoc], by omega, ?_, by rw [rest.moved, moved, Nat.add_assoc], fun less => ?_⟩
  · have stored := became.trans rest.became
    rw [bytes, moved] at stored
    rw [length_slice] at joined
    rwa [joined, ← slice_add] at stored
  · obtain ⟨whole, refused⟩ := rest.stopped (by omega)
    rw [Nat.add_assoc] at refused
    refine ⟨?_, refused⟩
    have full : n1 = fileMax := by omega
    rw [full, Nat.add_mod_left, whole]

theorem Filed.nothing {n i : Nat} {off : BitVec 32} (intact : sb.Intact disk inum) (start : i ≤ n)
    (stopped : i < n → (sb.inode disk inum).Refuses off (BitVec.ofNat 32 (min (n - i) fileMax))) :
    Filed sb disk inum src n i off (i, ⟨disk, sb.inode disk inum⟩, off) 0 := by
  refine ⟨rfl, start, ?_, rfl, fun less => ⟨rfl, stopped less⟩⟩
  have unchanged := Became.refl intact
  rwa [← overwrite_nil (contents disk (sb.inode disk inum)) off.toNat] at unchanged

theorem Layout.Intact.filewriteLoop {n fuel i : Nat} {off : BitVec 32} (intact : sb.Intact disk inum)
    (file : (sb.inode disk inum).type ≠ tDev) (enough : n ≤ i + fuel) (start : i ≤ n) :
    Meets (fun panic => panic = .fs .outOfBlocks ∧ (sb.unused disk).card <
        Work.cost ⟨disk, sb.inode disk inum⟩ ((touched off.toNat (n - i)).biUnion spotsFor))
      (fun result => ∃ k, Filed sb disk inum src n i off result k)
      (filewriteLoop sb inum src n fuel ⟨disk, sb.inode disk inum⟩ off i) := by
  induction fuel generalizing disk i off with
  | zero => exact ⟨0, .nothing intact start fun less => by omega⟩
  | succ fuel ih =>
      rw [Fs.filewriteLoop]
      by_cases more : i < n
      · obtain ⟨n1, chunk⟩ : ∃ n1, n1 = min (n - i) fileMax := ⟨_, rfl⟩
        have most : fileMax = 1536 := rfl
        have short : n1 ≤ 1536 := chunk ▸ Nat.min_le_right _ _
        have number : (BitVec.ofNat 32 n1).toNat = n1 := by
          rw [BitVec.toNat_ofNat]
          exact Nat.mod_eq_of_lt (by omega)
        rw [if_pos more]
        simp only [← chunk]
        by_cases refused : (sb.inode disk inum).Refuses off (BitVec.ofNat 32 n1)
        · rw [writei_refused file refused]
          exact ⟨0, .nothing intact start fun _ => chunk ▸ refused⟩
        · have split : (touched off.toNat (n - i)).biUnion spotsFor
              = (touched off.toNat n1).biUnion spotsFor ∪ (touched (off.toNat + n1) (n - (i + n1))).biUnion spotsFor := by
            rw [← Finset.union_biUnion, touched_union, show n1 + (n - (i + n1)) = n - i by omega]
          have wrote := intact.writei_became file (fun index => src (i + index)) refused
          rw [number] at wrote
          have dear (panic : Panic) (fails : panic = .outOfBlocks ∧ (sb.unused disk).card <
              Work.cost ⟨disk, sb.inode disk inum⟩ ((touched off.toNat n1).biUnion spotsFor)) :
              FilePanic.fs panic = .fs .outOfBlocks ∧ (sb.unused disk).card <
                Work.cost ⟨disk, sb.inode disk inum⟩ ((touched off.toNat (n - i)).biUnion spotsFor) := by
            refine ⟨congrArg _ fails.1, lt_of_lt_of_le fails.2 (Finset.card_le_card ?_)⟩
            rw [split]
            exact Finset.filter_subset_filter _ Finset.subset_union_left
          refine (wrote.mapError dear).bind fun got spec => ?_
          obtain ⟨done, became, spends⟩ := spec
          have reply : replyOf n1 got.1 = n1 := by
            rw [done, replyOf, BitVec.toInt_eq_toNat_of_lt (by omega), number]
          have positive : 0 < (n1 : Int) := by omega
          have accepted : ¬(n1 : Int) < 0 := by omega
          have next : (off + BitVec.ofInt 32 n1).toNat = off.toNat + n1 := by
            rw [Dinode.Refuses, Dinode.Outside] at refused
            rw [BitVec.ofInt_natCast, BitVec.toNat_add, number]
            exact Nat.mod_eq_of_lt (by omega)
          have inside : off.toNat ≤ (sb.inode disk inum).size.toNat := by
            rw [Dinode.Refuses, Dinode.Outside] at refused
            omega
          have data : slice (fun index => src (i + index)) 0 n1 = slice src i n1 :=
            slice_shift fun index _ => by rw [Nat.zero_add]
          have again : got.2 = ⟨got.2.disk, sb.inode got.2.disk inum⟩ := by rw [became.saved]
          rw [data] at became
          simp only [reply]
          rw [if_neg accepted, if_neg (not_not.mpr rfl), if_pos positive, Int.toNat_natCast, again]
          have still : (sb.inode got.2.disk inum).type ≠ tDev := by
            rw [became.saved, became.fields]
            exact file
          refine (ih became.intact still (by omega) (by omega)).mono (fun panic fails => ?_) fun result rest => ?_
          · rw [next] at fails
            refine ⟨fails.1, ?_⟩
            rw [split, spends.cost_union, ← spends.card, again]
            have dearer := fails.2
            dsimp only
            omega
          · obtain ⟨k, rest⟩ := rest
            exact ⟨n1 + k, .cons inside chunk more became next rest⟩
      · rw [if_neg more]
        exact ⟨0, .nothing intact start fun less => absurd less more⟩

theorem Layout.Intact.filewrite {n : BitVec 32} (intact : sb.Intact disk inum)
    (file : (sb.inode disk inum).type ≠ tDev) (src : Nat → BitVec 8) (off : BitVec 32) (nonnegative : 0 ≤ n.toInt) :
    Meets (fun panic => panic = .fs .outOfBlocks ∧ (sb.unused disk).card <
        Work.cost ⟨disk, sb.inode disk inum⟩ ((touched off.toNat n.toNat).biUnion spotsFor))
      (fun result => ∃ k, result.1 = (if k = n.toNat then n.toInt else -1) ∧
        Filed sb disk inum src n.toNat 0 off (k, result.2) k)
      (filewrite sb inum true ⟨disk, sb.inode disk inum⟩ off src n) := by
  have size : n.toInt.toNat = n.toNat := by
    rw [BitVec.toInt_eq_toNat_cond] at nonnegative ⊢
    split at nonnegative <;> omega
  have value : n.toInt = n.toNat := by omega
  rw [Fs.filewrite, if_pos rfl, size]
  refine (intact.filewriteLoop file (Nat.le_add_left _ _) (Nat.zero_le _)).bind fun result filed => ?_
  obtain ⟨k, filed⟩ := filed
  have index := filed.index
  rw [Nat.zero_add] at index
  refine ⟨k, ?_, index ▸ filed⟩
  dsimp only
  rw [index, value]
  simp only [Nat.cast_inj]

/-- `filewrite` stores all the bytes, or the chunks before the first one that `writei` refuses. -/
theorem filewrite_stores_chunks (sb : Layout) (disk : Disk) (inum : Nat) (intact : sb.Intact disk inum)
    (file : (sb.inode disk inum).type ≠ tDev) (src : Nat → BitVec 8) (off n : BitVec 32) (nonnegative : 0 ≤ n.toInt) :
    filewrite sb inum false ⟨disk, sb.inode disk inum⟩ off src n = .ok (-1, ⟨disk, sb.inode disk inum⟩, off) ∧
      ((∃ later next, filewrite sb inum true ⟨disk, sb.inode disk inum⟩ off src n = .ok (n.toInt, later, next) ∧
          Became sb disk inum
            (overwrite (contents disk (sb.inode disk inum)) off.toNat (slice src 0 n.toNat)) later ∧
          next.toNat = off.toNat + n.toNat) ∨
        (∃ k later next, filewrite sb inum true ⟨disk, sb.inode disk inum⟩ off src n = .ok (-1, later, next) ∧
          k < n.toNat ∧ k % fileMax = 0 ∧
          Became sb disk inum (overwrite (contents disk (sb.inode disk inum)) off.toNat (slice src 0 k)) later ∧
          next.toNat = off.toNat + k ∧ later.ip.Refuses next (BitVec.ofNat 32 (min (n.toNat - k) fileMax))) ∨
        (filewrite sb inum true ⟨disk, sb.inode disk inum⟩ off src n = .error (.fs .outOfBlocks) ∧
          (sb.unused disk).card <
            Work.cost ⟨disk, sb.inode disk inum⟩ ((touched off.toNat n.toNat).biUnion spotsFor))) := by
  refine ⟨rfl, ?_⟩
  have meets := intact.filewrite file src off nonnegative
  cases returns : filewrite sb inum true ⟨disk, sb.inode disk inum⟩ off src n with
  | error panic =>
      obtain ⟨rfl, few⟩ := meets.of_error returns
      exact Or.inr (Or.inr ⟨rfl, few⟩)
  | ok result =>
      obtain ⟨value, later, next⟩ := result
      obtain ⟨k, reply, filed⟩ := meets.of_ok returns
      have bound := filed.bound
      have moved := filed.moved
      have became := filed.became
      have stopped := filed.stopped
      rw [Nat.zero_add] at bound stopped
      dsimp only at reply moved became stopped
      by_cases whole : k = n.toNat
      · rw [if_pos whole] at reply
        subst whole reply
        exact Or.inl ⟨later, next, rfl, became, moved⟩
      · rw [if_neg whole] at reply
        subst reply
        obtain ⟨multiple, refused⟩ := stopped (by omega)
        exact Or.inr (Or.inl ⟨k, later, next, rfl, by omega, multiple, became, moved, refused⟩)

/-- Two chunks for a new file. -/
theorem filewrite_stores_chunks_new :
    ∃ later next, filewrite Layout.mkfs 1 true ⟨oneFile, Layout.mkfs.inode oneFile 1⟩ 0 (fun _ => 7) 3000 =
        .ok (3000, later, next) ∧ fileMax < 3000 ∧ next.toNat = 3000 ∧
      contents later.disk later.ip = slice (fun _ => 7) 0 3000 := by
  have file : (Layout.mkfs.inode oneFile 1).type ≠ tDev := by
    rw [oneFile_inode]
    decide
  have nothing : contents oneFile (Layout.mkfs.inode oneFile 1) = [] := by
    rw [oneFile_inode]
    rfl
  have new : ∀ data, overwrite [] 0 data = data := fun data => by
    rw [overwrite, List.take_nil, List.drop_nil, List.nil_append, List.append_nil]
  rcases (filewrite_stores_chunks Layout.mkfs oneFile 1 oneFile_intact file (fun _ => 7) 0 3000 (by decide)).2 with
    ⟨later, next, returns, became, moved⟩ | ⟨k, later, next, -, short, -, became, moved, refused⟩ | ⟨-, few⟩
  · have mine := became.mine
    rw [nothing] at mine
    exact ⟨later, next, returns, by decide, moved, mine.trans (new _)⟩
  · have stored := became.mine
    rw [nothing] at stored
    have size := congrArg List.length (stored.trans (new _))
    rw [length_contents, length_slice] at size
    have request : (BitVec.ofNat 32 (min ((3000 : BitVec 32).toNat - k) fileMax)).toNat ≤ 3000 - k := by
      rw [BitVec.toNat_ofNat]
      exact (Nat.mod_le _ _).trans (Nat.min_le_left _ _)
    have bound : k < 3000 := short
    rw [Dinode.Refuses, Dinode.Outside] at refused
    have start : next.toNat = k := moved.trans (Nat.zero_add k)
    simp only [maxFile, ndirect, nindirect, bsize] at refused
    omega
  · rw [oneFile_unused] at few
    exact absurd few (Nat.not_lt.mpr ((cost_touched_le _ _ _).trans (by decide)))

theorem Layout.Intact.size_le (intact : sb.Intact disk inum) :
    (sb.inode disk inum).size.toNat ≤ maxFile * bsize := by
  by_contra longer
  obtain ⟨spot, found, -⟩ := blockAt_ne_zero (intact.filled maxFile (by omega))
  cases found

/-- A file can be filled from the start, with any image that has the blocks for it. The last byte of a longer request
is refused, and the file is not as it was. -/
theorem Layout.Intact.filewrite_too_long {n : BitVec 32} (intact : sb.Intact disk inum)
    (file : (sb.inode disk inum).type ≠ tDev) (empty : (sb.inode disk inum).size = 0) (nonnegative : 0 ≤ n.toInt)
    (long : maxFile * bsize < n.toNat)
    (room : Work.cost ⟨disk, sb.inode disk inum⟩ ((touched (0 : BitVec 32).toNat n.toNat).biUnion spotsFor)
      ≤ (sb.unused disk).card) :
    ∃ later next, Fs.filewrite sb inum true ⟨disk, sb.inode disk inum⟩ 0 src n = .ok (-1, later, next) ∧ next ≠ 0 ∧
      contents later.disk later.ip ≠ contents disk (sb.inode disk inum) := by
  have enough (panic : FilePanic) (fails : panic = .fs .outOfBlocks ∧ (sb.unused disk).card <
      Work.cost ⟨disk, sb.inode disk inum⟩ ((touched (0 : BitVec 32).toNat n.toNat).biUnion spotsFor)) : False := by
    omega
  obtain ⟨⟨value, later, next⟩, returns, k, reply, filed⟩ :=
    ((intact.filewrite file src 0 nonnegative).mono enough fun _ holds => holds).returns
  have zero : (0 : BitVec 32).toNat = 0 := rfl
  have start : (sb.inode disk inum).size.toNat = 0 := by rw [empty, zero]
  have became := filed.became
  have moved := filed.moved
  have stopped := filed.stopped
  dsimp only at became moved stopped reply
  rw [zero, Nat.zero_add] at moved
  rw [Nat.zero_add] at stopped
  have size : later.ip.size.toNat = k := by
    rw [became.size, zero, length_overwrite (Nat.zero_le _), length_contents, start, length_slice]
    omega
  have less : k < n.toNat := by
    have most := became.intact.size_le
    rw [became.saved, size] at most
    omega
  have stored : k ≠ 0 := by
    rintro rfl
    obtain ⟨-, refused⟩ := stopped less
    have chunk : (BitVec.ofNat 32 (min (n.toNat - 0) fileMax)).toNat ≤ 1536 :=
      (Nat.mod_le _ _).trans (Nat.min_le_right _ _)
    have room : maxFile * bsize = 71680 := rfl
    rw [Dinode.Refuses, Dinode.Outside, size, moved] at refused
    omega
  rw [if_neg less.ne] at reply
  subst reply
  refine ⟨later, next, returns, ?_, ?_⟩
  · rintro rfl
    exact stored moved.symm
  · intro same
    have lengths := congrArg List.length same
    rw [length_contents, length_contents, size, start] at lengths
    exact stored lengths

/-- A request for one byte more than a file can have is refused when the file is full. -/
theorem failed_filewrite_stores :
    ∃ later next, filewrite Layout.mkfs 1 true ⟨oneFile, Layout.mkfs.inode oneFile 1⟩ 0 (fun _ => 7) 71681 =
        .ok (-1, later, next) ∧ next ≠ 0 ∧
      contents later.disk later.ip ≠ contents oneFile (Layout.mkfs.inode oneFile 1) := by
  have file : (Layout.mkfs.inode oneFile 1).type ≠ tDev := by
    rw [oneFile_inode]
    decide
  have room : Work.cost ⟨oneFile, Layout.mkfs.inode oneFile 1⟩
      ((touched (0 : BitVec 32).toNat (71681 : BitVec 32).toNat).biUnion spotsFor)
        ≤ (Layout.mkfs.unused oneFile).card := by
    have blocks : (touched (0 : BitVec 32).toNat (71681 : BitVec 32).toNat).card = 141 := by
      rw [touched, if_neg (by decide), Nat.card_Icc]
      rfl
    refine (cost_touched_le _ _ _).trans ?_
    rw [oneFile_unused, blocks]
    decide
  exact oneFile_intact.filewrite_too_long file (congrArg _ oneFile_inode) (by decide) (by decide) room

end OsLabs.Fs
