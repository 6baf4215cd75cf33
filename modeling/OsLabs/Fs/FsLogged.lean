import OsLabs.Fs.FsContents

/-!
The blocks that one `writei` passes to `log_write`. The functions are those of `fs.c` once more, each with the list of
these blocks beside its result. A chunk of `filewrite` fits what `begin_op` reserves for it: the blocks of the bytes,
one indirect block, the inode, and for each allocated block a block of the free map.
-/

namespace OsLabs.Fs

open OsLabs.ByteField OsLabs.Outcomes
open OsLabs.Log (maxOpBlocks)

section Model

variable (sb : Layout)

/-- What `balloc` logs: the block of the free map, and in `bzero` the block. -/
def ballocLog (b : Nat) : List Nat := [sb.bblock b, b]

def bmapAddrLogged (w : Work) (i : Fin (ndirect + 1)) : Except Panic ((Nat × Work) × List Nat) :=
  if w.ip.addrs i = 0 then do
    let got ← balloc sb w.disk
    return ((got.1, ⟨got.2, w.ip.setAddr i got.1⟩), ballocLog sb got.1)
  else return (((w.ip.addrs i).toNat, w), [])

def bmapEntryLogged (w : Work) (block : Nat) (j : Fin nindirect) : Except Panic ((Nat × Work) × List Nat) :=
  if entry (w.disk block) j = 0 then do
    let got ← balloc sb w.disk
    return ((got.1, { w with disk := Function.update got.2 block (store 4 (got.2 block) (4 * j) got.1) }),
      ballocLog sb got.1 ++ [block])
  else return ((entry (w.disk block) j, w), [])

def bmapLogged (w : Work) (bn : Nat) : Except Panic ((Nat × Work) × List Nat) :=
  if direct : bn < ndirect then bmapAddrLogged sb w (Fin.castSucc ⟨bn, direct⟩)
  else if indirect : bn - ndirect < nindirect then do
    let got ← bmapAddrLogged sb w lastAddr
    let last ← bmapEntryLogged sb got.1.2 got.1.1 ⟨bn - ndirect, indirect⟩
    return (last.1, got.2 ++ last.2)
  else .error .outOfRange

def writeLoopLogged (src : Nat → BitVec 8) : Nat → Work → Nat → Nat → Nat → Except Panic (Work × List Nat)
  | 0, w, _, _, _ => return (w, [])
  | fuel + 1, w, start, off, n =>
      if n = 0 then return (w, [])
      else do
        let got ← bmapLogged sb w (off / bsize)
        let m := min n (bsize - off % bsize)
        let bytes := blit (got.1.2.disk got.1.1) (off % bsize) (slice src start m)
        let rest ← writeLoopLogged src fuel { got.1.2 with disk := Function.update got.1.2.disk got.1.1 bytes }
          (start + m) (off + m) (n - m)
        return (rest.1, got.2 ++ got.1.1 :: rest.2)

def writeiLogged (inum : Nat) (w : Work) (src : Nat → BitVec 8) (off n : BitVec 32) :
    Except Panic ((Reply (BitVec 32) × Work) × List Nat) :=
  if w.ip.type = tDev then return ((w.ip.device, w), [])
  else if w.ip.size < off ∨ off + n < off then return ((.failed, w), [])
  else if maxFile * bsize < (off + n).toNat then return ((.failed, w), [])
  else do
    let got ← writeLoopLogged sb src n.toNat w 0 off.toNat n.toNat
    if 0 < n ∧ got.1.ip.size < off + n then
      let ip := { got.1.ip with size := off + n }
      return ((.done n, ⟨sb.setInode got.1.disk inum ip, ip⟩), got.2 ++ [sb.iblock inum])
    else return ((.done n, got.1), got.2)

def fileMax : Nat := (maxOpBlocks - 1 - 1 - 2) / 2 * 512

end Model

variable {sb : Layout} {base : Nat → Dinode} {inum bn : Nat} {w next : Work}

section Value

theorem bmapAddrLogged_value (sb : Layout) (w : Work) (i : Fin (ndirect + 1)) :
    Prod.fst <$> bmapAddrLogged sb w i = bmapAddr sb w i := by
  rw [bmapAddrLogged, bmapAddr]
  split
  · rw [map_bind]
    rfl
  · rfl

theorem bmapEntryLogged_value (sb : Layout) (w : Work) (block : Nat) (j : Fin nindirect) :
    Prod.fst <$> bmapEntryLogged sb w block j = bmapEntry sb w block j := by
  rw [bmapEntryLogged, bmapEntry]
  split
  · rw [map_bind]
    rfl
  · rfl

theorem bmapLogged_value (sb : Layout) (w : Work) (bn : Nat) : Prod.fst <$> bmapLogged sb w bn = bmap sb w bn := by
  rw [bmapLogged, bmap]
  split
  · exact bmapAddrLogged_value sb w _
  · split
    · simp only [← bmapAddrLogged_value, ← bmapEntryLogged_value, map_bind, bind_map_left, bind_pure_comp, Functor.map_map]
    · rfl

theorem writeLoopLogged_value (sb : Layout) (src : Nat → BitVec 8) (fuel : Nat) (w : Work) (start off n : Nat) :
    Prod.fst <$> writeLoopLogged sb src fuel w start off n = writeLoop sb src fuel w start off n := by
  induction fuel generalizing w start off n with
  | zero => rfl
  | succ fuel ih =>
      rw [writeLoopLogged, writeLoop]
      split
      · rfl
      · simp only [← bmapLogged_value, ← ih, map_bind, bind_map_left, bind_pure_comp, Functor.map_map]

theorem writeiLogged_value (sb : Layout) (inum : Nat) (w : Work) (src : Nat → BitVec 8) (off n : BitVec 32) :
    Prod.fst <$> writeiLogged sb inum w src off n = writei sb inum w src off n := by
  rw [writeiLogged, writei]
  split
  · rfl
  split
  · rfl
  split
  · rfl
  rw [← writeLoopLogged_value, map_bind, bind_map_left]
  refine bind_congr fun got => ?_
  split <;> rfl

end Value

section Charges

variable {spots more : Finset Spot} {count rounds : Nat} {log rest : List Nat}

def Dinode.indirect (d : Dinode) : Finset Nat :=
  if d.addrs lastAddr = 0 then ∅ else {(d.addrs lastAddr).toNat}

/-- The logged blocks are blocks of the free map, one for each place that got a block, a number of other blocks, and the
indirect block. -/
def Charged (w : Work) (spots : Finset Spot) (count : Nat) (log : List Nat) (ip : Dinode) : Prop :=
  ∃ maps datas : Finset Nat, maps.card ≤ w.cost spots ∧ datas.card ≤ count ∧
    ∀ b ∈ log, b ∈ maps ∨ b ∈ datas ∨ b ∈ ip.indirect

theorem Extends.indirect (grows : Extends sb inum base w next) : w.ip.indirect ⊆ next.ip.indirect := by
  intro b member
  rw [Dinode.indirect] at member
  by_cases empty : w.ip.addrs lastAddr = 0
  · rw [if_pos empty] at member
    exact absurd member (Finset.notMem_empty b)
  · have held : refOf w.disk w.ip (.addr lastAddr) ≠ 0 := toNat_ne_zero.mpr empty
    have same : (next.ip.addrs lastAddr).toNat = (w.ip.addrs lastAddr).toNat := grows.grows _ held
    rw [if_neg empty, Finset.mem_singleton] at member
    rw [Dinode.indirect, if_neg (toNat_ne_zero.mp (same ▸ held)), same, Finset.mem_singleton]
    exact member

theorem Spends.charged {middle : Work} {ip : Dinode} (spends : Spends sb w spots middle)
    (first : Charged w spots count log middle.ip) (grows : middle.ip.indirect ⊆ ip.indirect)
    (second : Charged middle more rounds rest ip) : Charged w (spots ∪ more) (count + rounds) (log ++ rest) ip := by
  obtain ⟨maps, datas, fewMaps, fewDatas, covered⟩ := first
  obtain ⟨maps', datas', fewMaps', fewDatas', covered'⟩ := second
  refine ⟨maps ∪ maps', datas ∪ datas', ?_, ?_, fun b member => ?_⟩
  · rw [spends.cost_union more]
    exact (Finset.card_union_le maps maps').trans (Nat.add_le_add fewMaps fewMaps')
  · exact (Finset.card_union_le datas datas').trans (Nat.add_le_add fewDatas fewDatas')
  · rw [Finset.mem_union, Finset.mem_union]
    rcases List.mem_append.mp member with early | late
    · rcases covered b early with map | data | indirect
      · exact Or.inl (Or.inl map)
      · exact Or.inr (Or.inl (Or.inl data))
      · exact Or.inr (Or.inr (grows indirect))
    · rcases covered' b late with map | data | indirect
      · exact Or.inl (Or.inr map)
      · exact Or.inr (Or.inl (Or.inr data))
      · exact Or.inr (Or.inr indirect)

theorem charged_fresh {spot : Spot} {ip : Dinode} (unset : refOf w.disk w.ip spot = 0) (map : Nat) (extra : Finset Nat)
    (covered : ∀ b ∈ log, b = map ∨ b ∈ extra ∨ b ∈ ip.indirect) : Charged w {spot} extra.card log ip := by
  refine ⟨{map}, extra, ?_, le_rfl, fun b member => ?_⟩
  · rw [cost_singleton, if_pos unset, Finset.card_singleton]
  · rw [Finset.mem_singleton]
    exact covered b member

theorem indirect_of_ne {d : Dinode} {b : Nat} (held : (d.addrs lastAddr).toNat = b) (nonzero : b ≠ 0) :
    d.indirect = {b} := by
  rw [Dinode.indirect, if_neg (toNat_ne_zero.mp (held ▸ nonzero)), held]

theorem bmapAddrLogged_charged (sb : Layout) (w : Work) (i : Fin (ndirect + 1)) :
    Meets (fun _ => True) (fun got => Charged w {.addr i} 1 (got.2 ++ [got.1.1]) got.1.2.ip) (bmapAddrLogged sb w i) := by
  rw [bmapAddrLogged]
  by_cases empty : w.ip.addrs i = 0
  · have unset : refOf w.disk w.ip (.addr i) = 0 := congrArg BitVec.toNat empty
    rw [if_pos empty]
    refine (balloc_meets.mono (fun _ _ => trivial) fun _ fresh => fresh).bind fun got _ => ?_
    exact charged_fresh unset (sb.bblock got.1) {got.1} (by simp [ballocLog])
  · rw [if_neg empty]
    exact ⟨∅, {(w.ip.addrs i).toNat}, Nat.zero_le _, le_rfl, by simp⟩

theorem Busy.bmapAddrLogged (busy : Busy sb inum base w) (i : Fin (ndirect + 1)) :
    Meets (fun _ => True) (fun got => Mapped sb inum base w (.addr i) got.1 ∧ Spends sb w {.addr i} got.1.2)
      (bmapAddrLogged sb w i) := by
  have both := (busy.bmapAddr i).and (busy.bmapAddr_spends i)
  rw [← bmapAddrLogged_value] at both
  exact both.of_map.mono (fun _ _ => trivial) fun _ holds => holds

theorem Busy.bmapIndirect_charged (busy : Busy sb inum base w) :
    Meets (fun _ => True) (fun got => Charged w {.addr lastAddr} 0 got.2 got.1.2.ip)
      (Fs.bmapAddrLogged sb w lastAddr) := by
  have mapped := busy.bmapAddrLogged lastAddr
  rw [Fs.bmapAddrLogged] at mapped ⊢
  by_cases empty : w.ip.addrs lastAddr = 0
  · have unset : refOf w.disk w.ip (.addr lastAddr) = 0 := congrArg BitVec.toNat empty
    rw [if_pos empty] at mapped ⊢
    cases ran : balloc sb w.disk with
    | error panic => trivial
    | ok got =>
        rw [ran] at mapped
        obtain ⟨mapped, -⟩ := mapped
        have block := indirect_of_ne mapped.address mapped.nonzero
        refine charged_fresh unset (sb.bblock got.1) ∅ ?_
        dsimp only at block ⊢
        simp [ballocLog, block]
  · rw [if_neg empty]
    exact ⟨∅, ∅, Nat.zero_le _, le_rfl, by simp⟩

theorem bmapEntryLogged_charged (sb : Layout) (indirect : w.ip.addrs lastAddr ≠ 0) (j : Fin nindirect) :
    Meets (fun _ => True) (fun got => Charged w {.entry j} 1 (got.2 ++ [got.1.1]) got.1.2.ip)
      (bmapEntryLogged sb w (w.ip.addrs lastAddr).toNat j) := by
  have reads : refOf w.disk w.ip (.entry j) = entry (w.disk (w.ip.addrs lastAddr).toNat) j := refOf_entry indirect j
  rw [bmapEntryLogged, ← reads]
  by_cases unset : refOf w.disk w.ip (.entry j) = 0
  · rw [if_pos unset]
    refine (balloc_meets.mono (fun _ _ => trivial) fun _ fresh => fresh).bind fun got _ => ?_
    refine charged_fresh unset (sb.bblock got.1) {got.1} ?_
    dsimp only
    rw [indirect_of_ne rfl (toNat_ne_zero.mpr indirect)]
    simp [ballocLog]
  · rw [if_neg unset]
    exact ⟨∅, {refOf w.disk w.ip (.entry j)}, Nat.zero_le _, le_rfl, by simp⟩

theorem Busy.bmapLogged_charged (busy : Busy sb inum base w) (bound : bn < maxFile) :
    Meets (fun _ => True) (fun got => Charged w (spotsFor bn) 1 (got.2 ++ [got.1.1]) got.1.2.ip) (bmapLogged sb w bn) := by
  rw [bmapLogged, spotsFor]
  by_cases direct : bn < ndirect
  · rw [dif_pos direct, dif_pos direct]
    exact bmapAddrLogged_charged sb w _
  · have indirect : bn - ndirect < nindirect := by
      simp only [maxFile] at bound
      omega
    rw [dif_neg direct, dif_neg direct, dif_pos indirect, dif_pos indirect, Finset.insert_eq]
    refine (((busy.bmapAddrLogged lastAddr).and busy.bmapIndirect_charged).mono (fun _ _ => trivial)
      fun _ both => both).bind fun got both => ?_
    obtain ⟨⟨mapped, spends⟩, charged⟩ := both
    have loaded := mapped.nonzero
    rw [← mapped.address] at loaded ⊢
    have entry := (mapped.busy.bmapEntry (toNat_ne_zero.mp loaded) ⟨bn - ndirect, indirect⟩)
    rw [← bmapEntryLogged_value] at entry
    refine ((entry.of_map.and (bmapEntryLogged_charged sb (toNat_ne_zero.mp loaded) _)).mono (fun _ _ => trivial)
      fun _ both => both).bind fun last both => ?_
    have all := spends.charged charged both.1.grows.indirect both.2
    rw [← List.append_assoc, Nat.zero_add] at all
    exact all

theorem touched_step_notMem {off n m : Nat} (chunk : m = min n (bsize - off % bsize)) :
    off / bsize ∉ touched (off + m) (n - m) := by
  rw [touched]
  by_cases last : n - m = 0
  · rw [if_pos last]
    exact Finset.notMem_empty _
  · rw [if_neg last, Finset.mem_Icc]
    simp only [bsize] at *
    omega

theorem Busy.writeLoopLogged_charged {src : Nat → BitVec 8} {fuel start off n limit : Nat}
    (busy : Busy sb inum base w) (filled : Filled w.disk w.ip limit) (enough : n ≤ fuel) (inside : off ≤ limit)
    (bound : off + n ≤ maxFile * bsize) :
    Meets (fun _ => True)
      (fun got => Charged w ((touched off n).biUnion spotsFor) (touched off n).card got.2 got.1.ip)
      (writeLoopLogged sb src fuel w start off n) := by
  induction fuel generalizing w limit start off n with
  | zero => exact ⟨∅, ∅, Nat.zero_le _, Nat.zero_le _, by simp⟩
  | succ fuel ih =>
      rw [writeLoopLogged]
      by_cases more : n = 0
      · rw [if_pos more]
        exact ⟨∅, ∅, Nat.zero_le _, Nat.zero_le _, by simp⟩
      · have room : off % bsize < bsize := Nat.mod_lt _ (by decide)
        have aligned : off / bsize * bsize ≤ off := Nat.div_mul_le_self _ _
        have block : off / bsize < maxFile := Nat.div_lt_of_lt_mul (by rw [Nat.mul_comm]; omega)
        obtain ⟨m, chunk⟩ : ∃ m, m = min n (bsize - off % bsize) := ⟨_, rfl⟩
        rw [if_neg more, touched_step more chunk, Finset.biUnion_insert,
          Finset.card_insert_of_notMem (touched_step_notMem chunk), Nat.add_comm (touched (off + m) (n - m)).card 1]
        simp only [← chunk]
        have round := (busy.round src start block (show 0 < m by omega) (by omega)).and
          (busy.round_spends src start m block)
        rw [← bmapLogged_value] at round
        refine ((round.of_map.and (busy.bmapLogged_charged block)).mono (fun _ _ => trivial) fun _ spec => spec).bind
          fun got spec => ?_
        obtain ⟨⟨⟨stored, -⟩, spends⟩, charged⟩ := spec
        have writes := @Busy.writeLoop _ _ _ _ _ src fuel (start + m) (off + m) (n - m) stored.busy
          (stored.filled limit inside filled) (by omega) (by omega) (by omega)
        rw [← writeLoopLogged_value] at writes
        have charges := @ih _ (start + m) (off + m) (n - m) _ stored.busy (stored.filled limit inside filled)
          (by omega) (by omega) (by omega)
        refine ((writes.of_map.and charges).mono (fun _ _ => trivial) fun _ both => both).bind fun last both => ?_
        obtain ⟨⟨rest, -⟩, later⟩ := both
        have all := spends.charged charged rest.grows.indirect later
        rw [List.append_assoc] at all
        exact all

end Charges

section Counts

variable {off n limit : Nat}

theorem card_touched_le (off : Nat) (chunk : n ≤ fileMax) : (touched off n).card ≤ 4 := by
  rw [touched]
  split
  · exact Nat.zero_le _
  · have small : n ≤ 1536 := chunk
    rw [Nat.card_Icc]
    simp only [bsize]
    omega

theorem mem_spotsFor {spot : Spot} (member : spot ∈ spotsFor bn) : spot = .addr lastAddr ∨ spotOf bn = some spot := by
  rw [spotsFor] at member
  rw [spotOf]
  by_cases direct : bn < ndirect
  · rw [dif_pos direct, Finset.mem_singleton] at member
    rw [dif_pos direct, member]
    exact Or.inr rfl
  · rw [dif_neg direct] at member ⊢
    by_cases indirect : bn - ndirect < nindirect
    · rw [dif_pos indirect, Finset.mem_insert, Finset.mem_singleton] at member
      rw [dif_pos indirect]
      exact member.imp_right fun same => congrArg some same.symm
    · rw [dif_neg indirect] at member
      exact absurd member (Finset.notMem_empty spot)

theorem Filled.cost_zero (filled : Filled w.disk w.ip limit) (inside : off + n ≤ limit) :
    w.cost ((touched off n).biUnion spotsFor) = 0 := by
  rw [Work.cost, Finset.card_eq_zero, Finset.filter_eq_empty_iff]
  intro spot member unset
  obtain ⟨bn, inRange, place⟩ := Finset.mem_biUnion.mp member
  have below : bn * bsize < limit := by
    rw [touched] at inRange
    split at inRange
    · exact absurd inRange (Finset.notMem_empty bn)
    · rw [Finset.mem_Icc] at inRange
      simp only [bsize] at *
      omega
  have block := filled bn below
  rw [blockAt, spotOf] at block
  rw [spotsFor] at place
  by_cases direct : bn < ndirect
  · rw [dif_pos direct, Finset.mem_singleton] at place
    rw [dif_pos direct, Option.elim_some, ← place] at block
    exact block unset
  · rw [dif_neg direct] at place block
    by_cases indirect : bn - ndirect < nindirect
    · rw [dif_pos indirect, Finset.mem_insert, Finset.mem_singleton] at place
      rw [dif_pos indirect, Option.elim_some] at block
      rcases place with rfl | rfl
      · refine block (if_pos ?_)
        by_contra other
        exact toNat_ne_zero.mpr other unset
      · exact block unset
    · rw [dif_neg indirect] at place
      exact absurd place (Finset.notMem_empty spot)

theorem Filled.cost_le (filled : Filled w.disk w.ip limit) (inside : off ≤ limit) (chunk : n ≤ fileMax) :
    w.cost ((touched off n).biUnion spotsFor) ≤ 4 := by
  have small : n ≤ 1536 := chunk
  let late := (Finset.Icc ((off + bsize - 1) / bsize) ((off + n - 1) / bsize)).image
    fun bn => (spotOf bn).getD (.addr lastAddr)
  have few : late.card ≤ 3 := by
    refine Finset.card_image_le.trans ?_
    rw [Nat.card_Icc]
    simp only [bsize]
    omega
  have covered : (((touched off n).biUnion spotsFor).filter fun spot => refOf w.disk w.ip spot = 0)
      ⊆ insert (.addr lastAddr) late := by
    intro spot member
    rw [Finset.mem_filter, Finset.mem_biUnion] at member
    obtain ⟨⟨bn, inRange, place⟩, unset⟩ := member
    rw [Finset.mem_insert]
    refine (mem_spotsFor place).imp_right fun found => ?_
    have hole : blockAt w.disk w.ip bn = 0 := by rw [blockAt, found, Option.elim_some, unset]
    have beyond : limit ≤ bn * bsize := Nat.le_of_not_lt fun below => filled bn below hole
    refine Finset.mem_image.mpr ⟨bn, ?_, by rw [found, Option.getD_some]⟩
    rw [touched] at inRange
    split at inRange
    · exact absurd inRange (Finset.notMem_empty bn)
    · rw [Finset.mem_Icc] at inRange ⊢
      simp only [bsize] at *
      omega
  exact (Finset.card_le_card covered).trans ((Finset.card_insert_le _ _).trans (Nat.succ_le_succ few))

theorem Charged.card_le {spots : Finset Spot} {count : Nat} {log : List Nat} {ip : Dinode}
    (charged : Charged w spots count log ip) (rest : List Nat) :
    (log ++ rest).toFinset.card ≤ w.cost spots + count + 1 + rest.length := by
  obtain ⟨maps, datas, fewMaps, fewDatas, covered⟩ := charged
  have single : ip.indirect.card ≤ 1 := by
    rw [Dinode.indirect]
    split <;> simp
  have inside : (log ++ rest).toFinset ⊆ maps ∪ datas ∪ ip.indirect ∪ rest.toFinset := by
    intro b member
    simp only [List.mem_toFinset, List.mem_append, Finset.mem_union] at member ⊢
    refine member.imp_left fun logged => ?_
    rcases covered b logged with map | data | indirect
    · exact Or.inl (Or.inl map)
    · exact Or.inl (Or.inr data)
    · exact Or.inr indirect
  calc (log ++ rest).toFinset.card
      ≤ (maps ∪ datas ∪ ip.indirect ∪ rest.toFinset).card := Finset.card_le_card inside
    _ ≤ maps.card + datas.card + ip.indirect.card + rest.toFinset.card :=
        (Finset.card_union_le _ _).trans (Nat.add_le_add_right
          ((Finset.card_union_le _ _).trans (Nat.add_le_add_right (Finset.card_union_le _ _) _)) _)
    _ ≤ w.cost spots + count + 1 + rest.length := by
        have last := List.toFinset_card_le rest
        omega

end Counts

/-- What one round of `filewrite` logs fits the blocks that `begin_op` reserves for it. -/
theorem chunk_fits_log (sb : Layout) (disk : Disk) (inum : Nat) (intact : sb.Intact disk inum) (src : Nat → BitVec 8)
    (off n : BitVec 32) (chunk : n.toNat ≤ fileMax) :
    Prod.fst <$> writeiLogged sb inum ⟨disk, sb.inode disk inum⟩ src off n =
        writei sb inum ⟨disk, sb.inode disk inum⟩ src off n ∧
      ∀ got log, writeiLogged sb inum ⟨disk, sb.inode disk inum⟩ src off n = .ok (got, log) →
        log.toFinset.card ≤ maxOpBlocks := by
  refine ⟨writeiLogged_value .., fun got log returns => ?_⟩
  suffices meets : Meets (fun _ => True) (fun result => result.2.toFinset.card ≤ maxOpBlocks)
      (writeiLogged sb inum ⟨disk, sb.inode disk inum⟩ src off n) from meets.of_ok returns
  rw [writeiLogged]
  split
  · exact Nat.zero_le _
  split
  · exact Nat.zero_le _
  rename_i inside
  split
  · exact Nat.zero_le _
  rename_i fits
  have busy := intact.settled.busy (w := ⟨disk, sb.inode disk inum⟩) intact.bound intact.taken rfl
  have sum : (off + n).toNat = off.toNat + n.toNat := by bv_omega
  have start : off.toNat ≤ (sb.inode disk inum).size.toNat := by bv_omega
  have cost := Filled.cost_le (w := ⟨disk, sb.inode disk inum⟩) intact.filled start chunk
  have rounds := card_touched_le off.toNat chunk
  refine (busy.writeLoopLogged_charged intact.filled le_rfl start (by omega)).bind fun got charged => ?_
  have ten : maxOpBlocks = 10 := rfl
  split
  · have logged := charged.card_le [sb.iblock inum]
    exact logged.trans (by rw [List.length_singleton]; omega)
  · have logged := charged.card_le []
    rw [List.append_nil] at logged
    exact logged.trans (by rw [List.length_nil]; omega)

theorem chunk_fits_log_new :
    ∃ got log, writeiLogged Layout.mkfs 1 ⟨oneFile, Layout.mkfs.inode oneFile 1⟩ (fun _ => 7) 0 1536 = .ok (got, log) ∧
      log.toFinset.card ≤ maxOpBlocks := by
  obtain ⟨⟨got, log⟩, returns⟩ : ∃ result,
      writeiLogged Layout.mkfs 1 ⟨oneFile, Layout.mkfs.inode oneFile 1⟩ (fun _ => 7) 0 1536 = .ok result := by
    obtain ⟨result, some⟩ := Option.isSome_iff_exists.mp (show (writeiLogged Layout.mkfs 1
      ⟨oneFile, Layout.mkfs.inode oneFile 1⟩ (fun _ => 7) 0 1536).toOption.isSome by decide +kernel)
    exact ⟨result, eq_ok_of_toOption some⟩
  exact ⟨got, log, returns, (chunk_fits_log Layout.mkfs oneFile 1 oneFile_intact _ 0 1536 (by decide)).2 _ _ returns⟩

end OsLabs.Fs
