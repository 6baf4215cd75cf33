import Mathlib.Data.Finset.Card
import Mathlib.Order.Interval.Finset.Nat
import OsLabs.Fs.FsBlocks

/-!
The free blocks of an image, and what storing bytes takes of them: a block for each place of the inode on the way
that has none yet. With that many free blocks `balloc` does not panic.
-/

namespace OsLabs.Fs

open Function OsLabs.ByteField OsLabs.Outcomes OsLabs.Ownership

def Layout.unused (sb : Layout) (disk : Disk) : Finset Nat :=
  (Finset.range sb.size).filter fun b => sb.used disk b = false

def spotsFor (bn : Nat) : Finset Spot :=
  if direct : bn < ndirect then {.addr (Fin.castSucc ⟨bn, direct⟩)}
  else if indirect : bn - ndirect < nindirect then {.addr lastAddr, .entry ⟨bn - ndirect, indirect⟩}
  else ∅

/-- The blocks of a file with one of the bytes from `off` up to `off + n`. -/
def touched (off n : Nat) : Finset Nat :=
  if n = 0 then ∅ else Finset.Icc (off / bsize) ((off + n - 1) / bsize)

def Work.cost (w : Work) (spots : Finset Spot) : Nat :=
  (spots.filter fun spot => refOf w.disk w.ip spot = 0).card

structure Spends (sb : Layout) (w : Work) (spots : Finset Spot) (next : Work) : Prop where
  card : (sb.unused next.disk).card + w.cost spots = (sb.unused w.disk).card
  zero : ∀ spot, refOf next.disk next.ip spot = 0 ↔ refOf w.disk w.ip spot = 0 ∧ spot ∉ spots

variable {sb : Layout} {disk later : Disk} {base : Nat → Dinode} {inum b bn : Nat} {w next : Work} {spot : Spot}

section Alloc

theorem mem_unused : b ∈ sb.unused disk ↔ b < sb.size ∧ sb.used disk b = false := by
  rw [Layout.unused, Finset.mem_filter, Finset.mem_range]

theorem freeBit_none (full : freeBit sb disk (b / bpb * bpb) = none) (bound : b < sb.size) :
    sb.used disk b = true := by
  have position : b % bpb < bpb := Nat.mod_lt _ (by decide)
  have whole : b / bpb * bpb + b % bpb = b := by rw [Nat.mul_comm]; exact Nat.div_add_mod b bpb
  have block : sb.bblock (b / bpb * bpb) = sb.bblock b := by
    rw [Superblock.bblock, Superblock.bblock, Nat.mul_div_cancel _ (by decide)]
  have tested := List.find?_eq_none.mp full (b % bpb) (List.mem_range.mpr position)
  rw [whole, block, decide_eq_true bound] at tested
  simpa [Layout.used] using tested

theorem balloc_full : Meets (fun _ => (sb.unused disk).card = 0) (fun got => Fresh sb disk got.2 got.1)
    (balloc sb disk) := by
  suffices full : Meets (fun _ => (sb.unused disk).card = 0) (fun _ => True) (balloc sb disk) from
    (balloc_meets.and full).mono (fun _ fails => fails.2) fun _ returns => returns.1
  rw [balloc]
  split
  · rename_i none
    rw [List.findSome?_eq_none_iff] at none
    rw [Meets.error_iff, Finset.card_eq_zero, Finset.eq_empty_iff_forall_notMem]
    intro b member
    obtain ⟨bound, free⟩ := mem_unused.mp member
    have start : b / bpb < (sb.size + bpb - 1) / bpb := by
      simp only [bpb, bsize]
      omega
    have full := none (b / bpb * bpb) (List.mem_map.mpr ⟨b / bpb, List.mem_range.mpr start, rfl⟩)
    rw [freeBit_none (Option.map_eq_none_iff.mp full) bound] at free
    cases free
  · trivial

theorem Fresh.card (fresh : Fresh sb disk later b) (data : sb.nmeta ≤ b) :
    (sb.unused later).card + 1 = (sb.unused disk).card := by
  have erased : sb.unused later = (sb.unused disk).erase b := by
    ext number
    rw [Finset.mem_erase, mem_unused, mem_unused]
    by_cases bound : number < sb.size
    · rw [fresh.used data bound]
      by_cases here : number = b
      · simp [here]
      · simp [here]
    · simp [bound]
  rw [erased]
  exact Finset.card_erase_add_one (mem_unused.mpr ⟨fresh.bound, fresh.free⟩)

theorem unused_congr (bits : ∀ number < sb.size, sb.used later number = sb.used disk number) :
    sb.unused later = sb.unused disk :=
  Finset.filter_congr fun number inside => by rw [bits number (Finset.mem_range.mp inside)]

theorem unused_update (data : sb.nmeta ≤ b) (bytes : Bytes) :
    sb.unused (update disk b bytes) = sb.unused disk :=
  unused_congr fun _ bound => used_update_data data bytes bound

end Alloc

section Costs

variable {spots more : Finset Spot}

theorem cost_singleton (w : Work) (spot : Spot) : w.cost {spot} = if refOf w.disk w.ip spot = 0 then 1 else 0 := by
  rw [Work.cost, Finset.filter_singleton]
  split <;> rfl

theorem Spends.nothing (same : refOf next.disk next.ip = refOf w.disk w.ip)
    (bits : sb.unused next.disk = sb.unused w.disk) : Spends sb w ∅ next :=
  ⟨by rw [bits, Work.cost, Finset.filter_empty, Finset.card_empty, Nat.add_zero], fun spot => by simp [same]⟩

theorem Spends.cost_union (spends : Spends sb w spots next) (more : Finset Spot) :
    w.cost (spots ∪ more) = w.cost spots + next.cost more := by
  have rest : (more.filter fun spot => refOf next.disk next.ip spot = 0)
      = (more.filter fun spot => refOf w.disk w.ip spot = 0) \ spots := by
    ext spot
    simp only [Finset.mem_filter, Finset.mem_sdiff, spends.zero, and_assoc]
  have union : ((spots ∪ more).filter fun spot => refOf w.disk w.ip spot = 0)
      = (spots.filter fun spot => refOf w.disk w.ip spot = 0) ∪
        (more.filter fun spot => refOf next.disk next.ip spot = 0) := by
    rw [rest]
    ext spot
    simp only [Finset.mem_filter, Finset.mem_union, Finset.mem_sdiff]
    tauto
  have apart : Disjoint (spots.filter fun spot => refOf w.disk w.ip spot = 0)
      (more.filter fun spot => refOf next.disk next.ip spot = 0) := by
    rw [rest]
    exact Finset.disjoint_sdiff.mono_left (Finset.filter_subset _ _)
  rw [Work.cost, union, Finset.card_union_of_disjoint apart, Work.cost, Work.cost]

theorem Spends.trans {last : Work} (first : Spends sb w spots next) (second : Spends sb next more last) :
    Spends sb w (spots ∪ more) last := by
  refine ⟨?_, fun spot => ?_⟩
  · rw [first.cost_union more, ← first.card, ← second.card]
    omega
  · rw [second.zero, first.zero, Finset.mem_union, not_or, and_assoc]

theorem Spends.then_meets {α : Type} {post : α → Prop} {second : Except Panic α}
    (spends : Spends sb w spots next)
    (meets : Meets (fun _ => (sb.unused next.disk).card < next.cost more) post second) :
    Meets (fun _ => (sb.unused w.disk).card < w.cost (spots ∪ more)) post second := by
  refine meets.mono (fun _ dear => ?_) fun _ holds => holds
  rw [spends.cost_union more, ← spends.card]
  omega

theorem Busy.spends_fresh (busy : Busy sb inum base w) (fresh : Fresh sb w.disk disk b)
    (empty : refOf w.disk w.ip spot = 0) (bits : sb.unused next.disk = sb.unused disk)
    (changes : refOf next.disk next.ip = update (refOf disk w.ip) spot b) :
    Spends sb w {spot} next := by
  have data := fresh.data busy.owned
  have positive := Busy.nmeta_pos sb
  refine ⟨?_, fun place => ?_⟩
  · rw [bits, cost_singleton, if_pos empty, fresh.card data]
  · rw [changes, busy.refOf_fresh fresh, Finset.mem_singleton]
    by_cases here : place = spot
    · rw [here, update_self]
      exact iff_of_false (by omega) fun both => both.2 rfl
    · rw [update_of_ne here]
      exact (and_iff_left here).symm

theorem spends_set (set : refOf w.disk w.ip spot ≠ 0) : Spends sb w {spot} w := by
  refine ⟨by rw [cost_singleton, if_neg set, Nat.add_zero], fun place => ?_⟩
  rw [Finset.mem_singleton]
  exact ⟨fun zero => ⟨zero, fun here => set (here ▸ zero)⟩, And.left⟩

theorem cost_unset (unset : refOf w.disk w.ip spot = 0) (full : (sb.unused w.disk).card = 0) :
    (sb.unused w.disk).card < w.cost {spot} := by
  rw [cost_singleton, if_pos unset, full]
  exact Nat.one_pos

theorem Busy.bmapAddr_spends (busy : Busy sb inum base w) (i : Fin (ndirect + 1)) :
    Meets (fun _ => (sb.unused w.disk).card < w.cost {.addr i})
      (fun got => Spends sb w {.addr i} got.2) (Fs.bmapAddr sb w i) := by
  rw [Fs.bmapAddr]
  by_cases empty : w.ip.addrs i = 0
  · have unset : refOf w.disk w.ip (.addr i) = 0 := congrArg BitVec.toNat empty
    rw [if_pos empty]
    refine (balloc_full.mono (fun _ => cost_unset unset) fun _ fresh => fresh).bind fun got fresh => ?_
    exact busy.spends_fresh fresh unset rfl (fresh.refOf_setAddr empty)
  · rw [if_neg empty]
    exact spends_set (toNat_ne_zero.mpr empty)

theorem Busy.bmapEntry_spends (busy : Busy sb inum base w) (indirect : w.ip.addrs lastAddr ≠ 0)
    (j : Fin nindirect) :
    Meets (fun _ => (sb.unused w.disk).card < w.cost {.entry j})
      (fun got => Spends sb w {.entry j} got.2) (Fs.bmapEntry sb w (w.ip.addrs lastAddr).toNat j) := by
  have reads : refOf w.disk w.ip (.entry j) = entry (w.disk (w.ip.addrs lastAddr).toNat) j := refOf_entry indirect j
  rw [Fs.bmapEntry, ← reads]
  by_cases unset : refOf w.disk w.ip (.entry j) = 0
  · rw [if_pos unset]
    refine (balloc_full.mono (fun _ => cost_unset unset) fun _ fresh => fresh).bind fun got fresh => ?_
    have small : got.1 < 2 ^ 32 := fresh.bound.trans sb.sizeFits
    have held : refOf w.disk w.ip (.addr lastAddr) ≠ 0 := toNat_ne_zero.mpr indirect
    have data := (busy.inside held).1
    exact busy.spends_fresh fresh unset (unused_update data _) (Busy.refOf_store_entry indirect j small)
  · rw [if_neg unset]
    exact spends_set unset

theorem Busy.bmap_spends (busy : Busy sb inum base w) (bound : bn < maxFile) :
    Meets (fun _ => (sb.unused w.disk).card < w.cost (spotsFor bn))
      (fun got => Spends sb w (spotsFor bn) got.2) (Fs.bmap sb w bn) := by
  rw [Fs.bmap, spotsFor]
  by_cases direct : bn < ndirect
  · rw [dif_pos direct, dif_pos direct]
    exact busy.bmapAddr_spends _
  · have indirect : bn - ndirect < nindirect := by
      simp only [maxFile] at bound
      omega
    rw [dif_neg direct, dif_neg direct, dif_pos indirect, dif_pos indirect, Finset.insert_eq]
    refine (((busy.bmapAddr lastAddr).and (busy.bmapAddr_spends lastAddr)).mono (fun _ fails => ?_)
      fun _ both => both).bind fun got both => ?_
    · exact lt_of_lt_of_le fails.2 (Finset.card_le_card (Finset.filter_subset_filter _ Finset.subset_union_left))
    · obtain ⟨mapped, first⟩ := both
      have loaded := mapped.nonzero
      rw [← mapped.address] at loaded ⊢
      have second := mapped.busy.bmapEntry_spends (toNat_ne_zero.mp loaded) ⟨bn - ndirect, indirect⟩
      exact first.then_meets (second.imp fun last spends => first.trans spends)

theorem Busy.spends_write (busy : Busy sb inum base w) (held : blockAt w.disk w.ip bn ≠ 0) (bytes : Bytes) :
    Spends sb w ∅ ⟨update w.disk (blockAt w.disk w.ip bn) bytes, w.ip⟩ := by
  obtain ⟨spot, -, -, same⟩ := blockAt_ne_zero held
  have data : sb.nmeta ≤ blockAt w.disk w.ip bn := by
    rw [same] at held ⊢
    exact (busy.inside held).1
  exact .nothing (busy.write held bytes).2.2 (unused_update data bytes)

theorem touched_step {off n m : Nat} (more : n ≠ 0) (chunk : m = min n (bsize - off % bsize)) :
    touched off n = insert (off / bsize) (touched (off + m) (n - m)) := by
  simp only [touched, if_neg more]
  by_cases last : n - m = 0
  · rw [if_pos last]
    ext bn
    simp only [bsize] at *
    rw [Finset.mem_Icc, Finset.mem_insert]
    simp only [Finset.notMem_empty, or_false]
    omega
  · rw [if_neg last]
    ext bn
    simp only [bsize] at *
    rw [Finset.mem_insert, Finset.mem_Icc, Finset.mem_Icc]
    omega

theorem Busy.round_spends {off : Nat} (busy : Busy sb inum base w) (src : Nat → BitVec 8) (start m : Nat)
    (block : off / bsize < maxFile) :
    Meets (fun _ => (sb.unused w.disk).card < w.cost (spotsFor (off / bsize)))
      (fun got => Spends sb w (spotsFor (off / bsize))
        ⟨update got.2.disk got.1 (blit (got.2.disk got.1) (off % bsize) (slice src start m)), got.2.ip⟩)
      (Fs.bmap sb w (off / bsize)) := by
  obtain ⟨spot, found⟩ := spotOf_inside block
  refine ((busy.bmap found).and (busy.bmap_spends block)).mono (fun _ fails => fails.2) fun got spec => ?_
  obtain ⟨mapped, spends⟩ := spec
  have address : blockAt got.2.disk got.2.ip (off / bsize) = got.1 := by
    rw [blockAt, found, Option.elim_some, mapped.address]
  have nonzero := mapped.nonzero
  rw [← address] at nonzero ⊢
  have both := spends.trans (mapped.busy.spends_write nonzero
    (blit (got.2.disk (blockAt got.2.disk got.2.ip (off / bsize))) (off % bsize) (slice src start m)))
  rwa [Finset.union_empty] at both

theorem Busy.writeLoop_spends {src : Nat → BitVec 8} {fuel start off n limit : Nat} (busy : Busy sb inum base w)
    (filled : Filled w.disk w.ip limit) (enough : n ≤ fuel) (inside : off ≤ limit)
    (bound : off + n ≤ maxFile * bsize) :
    Meets (fun _ => (sb.unused w.disk).card < w.cost ((touched off n).biUnion spotsFor))
      (fun next => Spends sb w ((touched off n).biUnion spotsFor) next) (Fs.writeLoop sb src fuel w start off n) := by
  induction fuel generalizing w limit start off n with
  | zero =>
      obtain rfl : n = 0 := Nat.le_zero.mp enough
      exact .nothing rfl rfl
  | succ fuel ih =>
      rw [Fs.writeLoop]
      by_cases more : n = 0
      · rw [if_pos more, more]
        exact .nothing rfl rfl
      · have room : off % bsize < bsize := Nat.mod_lt _ (by decide)
        have aligned : off / bsize * bsize ≤ off := Nat.div_mul_le_self _ _
        have block : off / bsize < maxFile := Nat.div_lt_of_lt_mul (by rw [Nat.mul_comm]; omega)
        obtain ⟨m, chunk⟩ : ∃ m, m = min n (bsize - off % bsize) := ⟨_, rfl⟩
        rw [if_neg more, touched_step more chunk, Finset.biUnion_insert]
        simp only [← chunk]
        have round := (busy.round src start block (show 0 < m by omega) (by omega)).and
          (busy.round_spends src start m block)
        refine (round.mono (fun _ fails => ?_) fun _ spec => spec).bind fun got spec => ?_
        · refine lt_of_lt_of_le fails.2 (Finset.card_le_card ?_)
          exact Finset.filter_subset_filter _ Finset.subset_union_left
        · obtain ⟨⟨stored, -⟩, first⟩ := spec
          refine first.then_meets ((ih stored.busy (stored.filled limit inside filled) ?_ ?_ ?_).imp
            fun last more => first.trans more)
          · omega
          · omega
          · omega

end Costs

theorem cost_touched_le (w : Work) (off n : Nat) :
    w.cost ((touched off n).biUnion spotsFor) ≤ (touched off n).card * 2 := by
  refine (Finset.card_filter_le _ _).trans (Finset.card_biUnion_le_card_mul _ _ _ fun bn _ => ?_)
  rw [spotsFor]
  split
  · simp
  · split
    · exact Finset.card_le_two
    · simp

theorem Busy.spends_setInode (busy : Busy sb inum base w) {d : Dinode} (addrs : d.addrs = w.ip.addrs) :
    Spends sb w ∅ ⟨sb.setInode w.disk inum d, d⟩ := by
  refine .nothing (busy.refOf_setInode addrs) (unused_congr fun number _ => ?_)
  have apart := sb.iblock_lt_bblock number busy.bound
  exact sb.used_congr (sb.setInode_outside _ _ (by omega))

theorem writei_spends {src : Nat → BitVec 8} {off n : BitVec 32} (settled : Settled sb base w.disk)
    (bound : inum < sb.inodeCount) (taken : w.ip.type ≠ 0) (same : base inum = w.ip)
    (filled : Filled w.disk w.ip w.ip.size.toNat) :
    Meets (fun _ => (sb.unused w.disk).card < w.cost ((touched off.toNat n.toNat).biUnion spotsFor))
      (fun got => got.1 = .done n → Spends sb w ((touched off.toNat n.toNat).biUnion spotsFor) got.2)
      (writei sb inum w src off n) := by
  have busy := settled.busy bound taken same
  rw [writei]
  split
  · intro done
    rw [Dinode.device] at done
    split at done <;> cases done
  split
  · intro done
    cases done
  rename_i inside
  split
  · intro done
    cases done
  rename_i fits
  have sum : (off + n).toNat = off.toNat + n.toNat := by bv_omega
  have start : off.toNat ≤ w.ip.size.toNat := by bv_omega
  have last : off.toNat + n.toNat ≤ maxFile * bsize := by omega
  refine (((busy.writeLoop filled le_rfl start last).and (busy.writeLoop_spends filled le_rfl start last)).mono
    (fun _ fails => fails.2) fun _ holds => holds).bind fun next holds => ?_
  obtain ⟨⟨stored, -⟩, spends⟩ := holds
  split
  · intro _
    have all := spends.trans (stored.busy.spends_setInode (d := { next.ip with size := off + n }) rfl)
    rwa [Finset.union_empty] at all
  · exact fun _ => spends

end OsLabs.Fs
