import OsLabs.Foundation.Outcomes
import OsLabs.Fs.FsCore

/-!
Which places of an image refer to which blocks, and what `balloc`, `bfree`, `bmap` and the
writes of blocks do to the references and to the bits of the free map.
-/

namespace OsLabs.Fs

open Function OsLabs.ByteField OsLabs.Outcomes OsLabs.Ownership

inductive Spot
  | addr (i : Fin (ndirect + 1))
  | entry (j : Fin nindirect)
deriving DecidableEq

def refOf (disk : Disk) (d : Dinode) : Spot → Nat
  | .addr i => (d.addrs i).toNat
  | .entry j => if d.addrs lastAddr = 0 then 0 else entry (disk (d.addrs lastAddr).toNat) j

def Layout.refs (sb : Layout) (disk : Disk) (inodes : Nat → Dinode) (place : Nat × Spot) : Nat :=
  if place.1 < sb.inodeCount ∧ (inodes place.1).type ≠ 0 then
    refOf disk (inodes place.1) place.2
  else 0

def Layout.Owned (sb : Layout) (disk : Disk) (inodes : Nat → Dinode) : Prop :=
  Owns sb.nmeta sb.size (sb.used disk) (sb.refs disk inodes)

variable {sb : Layout} {disk later : Disk} {inodes base : Nat → Dinode} {inum b block : Nat}
variable {d ip : Dinode} {spot : Spot}

section References

theorem entry_congr {bytes other : Bytes} (j : Fin nindirect)
    (same : ∀ index < bsize, bytes index = other index) : entry bytes j = entry other j := by
  have bound : j.val < 128 := j.isLt
  apply load_congr
  intro index lower upper
  apply same
  rw [bsize]
  omega

theorem toNat_ne_zero {value : BitVec 32} : value.toNat ≠ 0 ↔ value ≠ 0 :=
  not_congr (BitVec.toNat_eq (x := value) (y := 0)).symm

theorem refOf_congr
    (same : d.addrs lastAddr ≠ 0 → ∀ index < bsize,
      later (d.addrs lastAddr).toNat index = disk (d.addrs lastAddr).toNat index) :
    refOf later d = refOf disk d := by
  funext spot
  cases spot with
  | addr i => rfl
  | entry j =>
      simp only [refOf]
      split
      · rfl
      · exact entry_congr j (same ‹_›)

theorem refOf_entry (indirect : d.addrs lastAddr ≠ 0) (j : Fin nindirect) :
    refOf disk d (.entry j) = entry (disk (d.addrs lastAddr).toNat) j := if_neg indirect

theorem refs_of (bound : inum < sb.inodeCount) (taken : (inodes inum).type ≠ 0) (spot : Spot) :
    sb.refs disk inodes (inum, spot) = refOf disk (inodes inum) spot := if_pos ⟨bound, taken⟩

theorem refs_congr
    (same : ∀ inum < sb.inodeCount, (inodes inum).type ≠ 0 →
      refOf later (inodes inum) = refOf disk (inodes inum)) :
    sb.refs later inodes = sb.refs disk inodes := by
  funext place
  simp only [Layout.refs]
  split
  · rename_i allocated
    rw [same place.1 allocated.1 allocated.2]
  · rfl

theorem refs_update_other (ip : Dinode) {other : Nat} (differs : other ≠ inum) (spot : Spot) :
    sb.refs disk (update base inum ip) (other, spot) = sb.refs disk base (other, spot) := by
  simp only [Layout.refs, update_of_ne differs]

theorem refs_update_self (bound : inum < sb.inodeCount) (taken : ip.type ≠ 0) (spot : Spot) :
    sb.refs disk (update base inum ip) (inum, spot) = refOf disk ip spot := by
  rw [refs_of bound (by rwa [update_self]), update_self]

theorem refs_update_spot (next : Dinode) {value : Nat} (bound : inum < sb.inodeCount)
    (taken : ip.type ≠ 0) (still : next.type ≠ 0)
    (others : ∀ other, other ≠ inum → ∀ spot,
      sb.refs later base (other, spot) = sb.refs disk base (other, spot))
    (changes : refOf later next = update (refOf disk ip) spot value) :
    sb.refs later (update base inum next) =
      update (sb.refs disk (update base inum ip)) (inum, spot) value := by
  funext ⟨other, place⟩
  by_cases differs : other = inum
  · subst differs
    rw [refs_update_self bound still, changes]
    by_cases here : place = spot
    · rw [here, update_self, update_self]
    · rw [update_of_ne here, update_of_ne (by simpa using here),
        refs_update_self bound taken]
  · rw [refs_update_other next differs, others other differs,
      update_of_ne (by simp [differs]), refs_update_other ip differs]

theorem setAddr_self (i : Fin (ndirect + 1)) (b : Nat) :
    (d.setAddr i b).addrs i = BitVec.ofNat 32 b := update_self i _ d.addrs

theorem setAddr_other {i k : Fin (ndirect + 1)} {b : Nat} (differs : k ≠ i) :
    (d.setAddr i b).addrs k = d.addrs k := update_of_ne differs _ _

theorem refOf_setAddr (i : Fin (ndirect + 1)) (small : b < 2 ^ 32)
    (entries : ∀ j, refOf disk (d.setAddr i b) (.entry j) = refOf disk d (.entry j)) :
    refOf disk (d.setAddr i b) = update (refOf disk d) (.addr i) b := by
  funext spot
  cases spot with
  | addr k =>
      by_cases same : k = i
      · subst same
        rw [update_self]
        simp only [refOf, Dinode.setAddr, update_self]
        rw [BitVec.toNat_ofNat, Nat.mod_eq_of_lt small]
      · rw [update_of_ne (by simpa using same)]
        simp only [refOf, Dinode.setAddr, update_of_ne same]
  | entry j => rw [update_of_ne (by simp), entries]

theorem refOf_setAddr_entry {i : Fin (ndirect + 1)} (direct : i ≠ lastAddr) (b : Nat) (j : Fin nindirect) :
    refOf disk (d.setAddr i b) (.entry j) = refOf disk d (.entry j) := by
  simp only [refOf, Dinode.setAddr, update_of_ne direct.symm]

end References

section Allocation

theorem freeBit_some {bi : Nat} (found : freeBit sb disk b = some bi) :
    bi < bpb ∧ b + bi < sb.size ∧ Bitmap.test (disk (sb.bblock b)) bi = false := by
  have member := List.mem_of_find?_eq_some found
  have holds := List.find?_some found
  rw [List.mem_range] at member
  simp only [Bool.and_eq_true, decide_eq_true_eq, Bool.not_eq_true'] at holds
  exact ⟨member, holds⟩

structure Fresh (sb : Layout) (disk later : Disk) (b : Nat) : Prop where
  bound : b < sb.size
  free : sb.used disk b = false
  blocks : later = bzero (update disk (sb.bblock b)
    (Bitmap.set (disk (sb.bblock b)) (b % bpb))) b

theorem balloc_meets : Meets (· = .outOfBlocks) (fun got => Fresh sb disk got.2 got.1)
    (balloc sb disk) := by
  rw [balloc]
  split
  · rfl
  · rename_i found
    obtain ⟨start, member, bit⟩ := List.exists_of_findSome?_eq_some found
    obtain ⟨k, -, rfl⟩ := List.mem_map.mp member
    obtain ⟨bi, some, same⟩ := Option.map_eq_some_iff.mp bit
    rw [Prod.mk.injEq] at same
    obtain ⟨rfl, rfl⟩ := same
    obtain ⟨small, bound, free⟩ := freeBit_some some
    have position : (k * bpb + bi) % bpb = bi := by
      simp only [bpb, bsize] at small ⊢
      omega
    have block : sb.bblock (k * bpb + bi) = sb.bblock (k * bpb) := by
      simp only [Superblock.bblock, bpb, bsize] at small ⊢
      omega
    refine ⟨bound, ?_, ?_⟩
    · rw [Layout.used, position, block]
      exact free
    · rw [position, block]

theorem entry_zero {bytes : Bytes} (j : Fin nindirect) (zero : ∀ index < bsize, bytes index = 0) :
    entry bytes j = 0 := by
  rw [entry_congr j zero]
  exact load_zero 4 _

theorem refOf_setAddr_last (empty : d.addrs lastAddr = 0) (small : b < 2 ^ 32)
    (zero : ∀ index < bsize, disk b index = 0) (j : Fin nindirect) :
    refOf disk (d.setAddr lastAddr b) (.entry j) = refOf disk d (.entry j) := by
  simp only [refOf, Dinode.setAddr, update_self, empty]
  split
  · rfl
  · rw [BitVec.toNat_ofNat, Nat.mod_eq_of_lt small]
    exact entry_zero j zero

theorem used_update_data (data : sb.nmeta ≤ block) (bytes : Bytes) {number : Nat}
    (bound : number < sb.size) :
    sb.used (update disk block bytes) number = sb.used disk number := by
  have below := sb.bblock_lt bound
  exact sb.used_congr (update_of_ne (by omega) _ _)

theorem inode_update_data (data : sb.nmeta ≤ block) (bytes : Bytes) (bound : inum < sb.inodeCount) :
    sb.inode (update disk block bytes) inum = sb.inode disk inum := by
  have below := sb.iblock_lt_nmeta bound
  exact sb.inode_congr (update_of_ne (by omega) _ _)

namespace Fresh

theorem elsewhere (fresh : Fresh sb disk later b) (differs : block ≠ b)
    (apart : block ≠ sb.bblock b) : later block = disk block := by
  rw [fresh.blocks, bzero, update_of_ne differs, update_of_ne apart]

theorem zero (fresh : Fresh sb disk later b) {index : Nat} (bound : index < bsize) :
    later b index = 0 := by
  rw [fresh.blocks, bzero, update_self, if_pos bound]

theorem used (fresh : Fresh sb disk later b) (data : sb.nmeta ≤ b) {number : Nat}
    (bound : number < sb.size) :
    sb.used later number = update (sb.used disk) b true number := by
  rw [fresh.blocks, bzero, used_update_data data _ bound]
  exact sb.used_flip disk (Bitmap.test_set _ _) number

theorem inode (fresh : Fresh sb disk later b) (data : sb.nmeta ≤ b) (bound : inum < sb.inodeCount) :
    sb.inode later inum = sb.inode disk inum := by
  have below := sb.iblock_lt_nmeta bound
  have apart := sb.iblock_lt_bblock b bound
  exact sb.inode_congr (fresh.elsewhere (by omega) (by omega))

theorem refOf_setAddr {i : Fin (ndirect + 1)} (fresh : Fresh sb disk later b) (empty : d.addrs i = 0) :
    refOf later (d.setAddr i b) = update (refOf later d) (.addr i) b := by
  have small : b < 2 ^ 32 := fresh.bound.trans sb.sizeFits
  apply Fs.refOf_setAddr i small
  intro j
  by_cases indirect : i = lastAddr
  · subst indirect
    exact refOf_setAddr_last empty small (fun _ bound => fresh.zero bound) j
  · exact refOf_setAddr_entry indirect b j

theorem data (fresh : Fresh sb disk later b) (owned : sb.Owned disk inodes) : sb.nmeta ≤ b :=
  (owned.unreferenced fresh.bound fresh.free).1

theorem refs (fresh : Fresh sb disk later b) (owned : sb.Owned disk inodes) :
    sb.refs later inodes = sb.refs disk inodes := by
  obtain ⟨data, absent⟩ := owned.unreferenced fresh.bound fresh.free
  apply refs_congr
  intro inum bound taken
  apply refOf_congr
  intro indirect index _
  have held : sb.refs disk inodes (inum, .addr lastAddr) = ((inodes inum).addrs lastAddr).toNat :=
    refs_of bound taken _
  have inside := owned.inside _ (held ▸ toNat_ne_zero.mpr indirect)
  have differs := absent (inum, .addr lastAddr)
  have map := sb.bblock_lt fresh.bound
  rw [held] at inside differs
  rw [fresh.elsewhere differs (by omega)]

theorem contents (fresh : Fresh sb disk later b) (owned : sb.Owned disk inodes) {place : Nat × Spot}
    (held : sb.refs disk inodes place ≠ 0) :
    later (sb.refs disk inodes place) = disk (sb.refs disk inodes place) := by
  have absent := (owned.unreferenced fresh.bound fresh.free).2 place
  have data := (owned.inside place held).1
  have map := sb.bblock_lt fresh.bound
  exact fresh.elsewhere absent (by omega)

end Fresh

end Allocation

section Busy

/-- An inode is being worked on: its copy in memory may have addresses that the image has not,
and with that copy in place of the record on disk the blocks are owned. -/
structure Busy (sb : Layout) (inum : Nat) (base : Nat → Dinode) (w : Work) : Prop where
  bound : inum < sb.inodeCount
  taken : w.ip.type ≠ 0
  saved : ∀ other < sb.inodeCount, sb.inode w.disk other = base other
  owned : sb.Owned w.disk (update base inum w.ip)

structure Extends (sb : Layout) (inum : Nat) (base : Nat → Dinode) (w next : Work) : Prop where
  fields : next.ip = { w.ip with addrs := next.ip.addrs }
  grows : ∀ spot, refOf w.disk w.ip spot ≠ 0 → refOf next.disk next.ip spot = refOf w.disk w.ip spot
  others : ∀ other, other ≠ inum → ∀ spot,
    sb.refs next.disk base (other, spot) = sb.refs w.disk base (other, spot)

/-- The blocks that the inodes refer to, the indirect block of this one apart, have the contents
they had. -/
def Keeps (sb : Layout) (inum : Nat) (base : Nat → Dinode) (w next : Work) : Prop :=
  ∀ place, place ≠ (inum, .addr lastAddr) →
    sb.refs w.disk (update base inum w.ip) place ≠ 0 →
    next.disk (sb.refs w.disk (update base inum w.ip) place) =
      w.disk (sb.refs w.disk (update base inum w.ip) place)

structure Mapped (sb : Layout) (inum : Nat) (base : Nat → Dinode) (w : Work) (spot : Spot)
    (got : Nat × Work) : Prop where
  busy : Busy sb inum base got.2
  grows : Extends sb inum base w got.2
  keeps : Keeps sb inum base w got.2
  only : ∀ other, other ≠ spot → other ≠ .addr lastAddr →
    refOf got.2.disk got.2.ip other = refOf w.disk w.ip other
  address : refOf got.2.disk got.2.ip spot = got.1
  nonzero : got.1 ≠ 0

variable {w next last : Work}

theorem Extends.refl : Extends sb inum base w w := ⟨rfl, fun _ _ => rfl, fun _ _ _ => rfl⟩

theorem Extends.trans (first : Extends sb inum base w next) (second : Extends sb inum base next last) :
    Extends sb inum base w last := by
  refine ⟨?_, ?_, ?_⟩
  · rw [second.fields, first.fields]
  · intro spot held
    have kept := first.grows spot held
    rw [second.grows spot (kept ▸ held), kept]
  · intro other differs spot
    rw [second.others other differs, first.others other differs]

namespace Busy

theorem refs_self (busy : Busy sb inum base w) (spot : Spot) :
    sb.refs w.disk (update base inum w.ip) (inum, spot) = refOf w.disk w.ip spot :=
  refs_update_self busy.bound busy.taken spot

theorem indirect_self (busy : Busy sb inum base w) :
    sb.refs w.disk (update base inum w.ip) (inum, .addr lastAddr) =
      (w.ip.addrs lastAddr).toNat := busy.refs_self (.addr lastAddr)

theorem inside (busy : Busy sb inum base w) (held : refOf w.disk w.ip spot ≠ 0) :
    sb.nmeta ≤ refOf w.disk w.ip spot ∧ refOf w.disk w.ip spot < sb.size := by
  rw [← busy.refs_self spot] at held ⊢
  exact busy.owned.inside _ held

theorem single (busy : Busy sb inum base w) {other : Spot} (held : refOf w.disk w.ip spot ≠ 0)
    (same : refOf w.disk w.ip spot = refOf w.disk w.ip other) : spot = other := by
  rw [← busy.refs_self spot] at held same
  rw [← busy.refs_self other] at same
  exact (Prod.mk.inj (busy.owned.single _ _ held same)).2

theorem other_indirect (busy : Busy sb inum base w) {other : Nat} (differs : other ≠ inum)
    (bound : other < sb.inodeCount) (taken : (base other).type ≠ 0)
    (indirect : (base other).addrs lastAddr ≠ 0) :
    sb.nmeta ≤ ((base other).addrs lastAddr).toNat ∧
      ∀ spot, ((base other).addrs lastAddr).toNat ≠ refOf w.disk w.ip spot := by
  have theirs : sb.refs w.disk (update base inum w.ip) (other, .addr lastAddr) =
      ((base other).addrs lastAddr).toNat := by
    rw [refs_update_other w.ip differs]
    exact refs_of bound taken _
  have held := toNat_ne_zero.mpr indirect
  rw [← theirs] at held ⊢
  refine ⟨(busy.owned.inside _ held).1, fun spot same => ?_⟩
  rw [← busy.refs_self spot] at same
  exact differs (Prod.mk.inj (busy.owned.single _ _ held same)).1

theorem others_update (busy : Busy sb inum base w) (spot : Spot) (bytes : Bytes) {other : Nat}
    (differs : other ≠ inum) (place : Spot) :
    sb.refs (update disk (refOf w.disk w.ip spot) bytes) base (other, place) =
      sb.refs disk base (other, place) := by
  simp only [Layout.refs]
  split
  · rename_i allocated
    refine congrFun (refOf_congr ?_) place
    intro indirect index _
    have apart := (busy.other_indirect differs allocated.1 allocated.2 indirect).2 spot
    rw [update_of_ne apart]
  · rfl

theorem refs_grow (busy : Busy sb inum base w) (later : Busy sb inum base next)
    (grows : Extends sb inum base w next) {place : Nat × Spot}
    (held : sb.refs w.disk (update base inum w.ip) place ≠ 0) :
    sb.refs next.disk (update base inum next.ip) place =
      sb.refs w.disk (update base inum w.ip) place := by
  obtain ⟨other, spot⟩ := place
  by_cases same : other = inum
  · subst same
    rw [busy.refs_self] at held ⊢
    rw [later.refs_self, grows.grows spot held]
  · rw [refs_update_other _ same, refs_update_other _ same, grows.others other same]

theorem keeps_trans (busy : Busy sb inum base w) (middle : Busy sb inum base next)
    (grows : Extends sb inum base w next) (first : Keeps sb inum base w next)
    (second : Keeps sb inum base next last) : Keeps sb inum base w last := by
  intro place apart held
  have same := busy.refs_grow middle grows held
  have later := second place apart (same ▸ held)
  rw [same] at later
  rw [later, first place apart held]

theorem nmeta_pos (sb : Layout) : 0 < sb.nmeta := Nat.lt_of_le_of_lt (Nat.zero_le _) sb.bmapstart_lt_nmeta

theorem refOf_fresh (busy : Busy sb inum base w) (fresh : Fresh sb w.disk disk b) :
    refOf disk w.ip = refOf w.disk w.ip := by
  funext place
  rw [← refs_update_self busy.bound busy.taken, fresh.refs busy.owned, busy.refs_self]

theorem take (busy : Busy sb inum base w) (next : Work) (fresh : Fresh sb w.disk disk b)
    (fields : next.ip = { w.ip with addrs := next.ip.addrs })
    (bits : ∀ number < sb.size, sb.used next.disk number = sb.used disk number)
    (inodes : ∀ other < sb.inodeCount, sb.inode next.disk other = sb.inode disk other)
    (others : ∀ other, other ≠ inum → ∀ spot,
      sb.refs next.disk base (other, spot) = sb.refs disk base (other, spot))
    (blocks : ∀ place, place ≠ (inum, .addr lastAddr) →
      sb.refs w.disk (update base inum w.ip) place ≠ 0 →
      next.disk (sb.refs w.disk (update base inum w.ip) place) =
        disk (sb.refs w.disk (update base inum w.ip) place))
    (empty : refOf w.disk w.ip spot = 0)
    (changes : refOf next.disk next.ip = update (refOf disk w.ip) spot b) :
    Mapped sb inum base w spot (b, next) := by
  have data := fresh.data busy.owned
  have positive := nmeta_pos sb
  have stable := fresh.refs busy.owned
  have still : next.ip.type ≠ 0 := by
    rw [fields]
    exact busy.taken
  have refs := refs_update_spot next.ip busy.bound busy.taken still others changes
  have own := busy.refOf_fresh fresh
  refine ⟨⟨busy.bound, still, ?_, ?_⟩, ⟨fields, ?_, ?_⟩, ?_, ?_, ?_, by dsimp only; omega⟩
  · intro other bound
    rw [inodes other bound, fresh.inode data bound, busy.saved other bound]
  · rw [stable] at refs
    refine (busy.owned.take positive fresh.bound fresh.free (busy.refs_self spot ▸ empty)).congr ?_ ?_
    · intro number bound
      rw [bits number bound, fresh.used data bound]
    · intro place
      rw [refs]
  · intro place held
    have differs : place ≠ spot := fun same => held (same ▸ empty)
    rw [changes, update_of_ne differs, own]
  · intro other differs place
    rw [others other differs]
    have same := congrFun stable (other, place)
    rwa [refs_update_other w.ip differs, refs_update_other w.ip differs] at same
  · intro place apart held
    rw [blocks place apart held, fresh.contents busy.owned held]
  · intro place differs _
    rw [changes, update_of_ne differs, own]
  · rw [changes, update_self]

theorem bmapAddr (busy : Busy sb inum base w) (i : Fin (ndirect + 1)) :
    Meets (· = .outOfBlocks) (Mapped sb inum base w (.addr i)) (bmapAddr sb w i) := by
  rw [Fs.bmapAddr]
  split
  · rename_i empty
    apply balloc_meets.bind
    intro got fresh
    have unset : refOf w.disk w.ip (.addr i) = 0 := congrArg BitVec.toNat empty
    exact busy.take
      ⟨got.2, w.ip.setAddr i got.1⟩ fresh rfl (fun _ _ => rfl) (fun _ _ => rfl)
      (fun _ _ _ => rfl) (fun _ _ _ => rfl) unset (fresh.refOf_setAddr empty)
  · rename_i set
    exact ⟨busy, Extends.refl, fun _ _ _ => rfl, fun _ _ _ => rfl, rfl, toNat_ne_zero.mpr set⟩

theorem refOf_store_entry (indirect : d.addrs lastAddr ≠ 0) (j : Fin nindirect) (small : b < 2 ^ 32) :
    refOf (update disk (d.addrs lastAddr).toNat
        (store 4 (disk (d.addrs lastAddr).toNat) (4 * j) b)) d =
      update (refOf disk d) (.entry j) b := by
  funext spot
  cases spot with
  | addr i => rw [update_of_ne (by simp)]; rfl
  | entry k =>
      rw [refOf_entry indirect, update_self]
      by_cases same : k = j
      · subst same
        rw [update_self, entry, load_store]
        exact Nat.mod_eq_of_lt small
      · have apart : k.val ≠ j.val := fun equal => same (Fin.ext equal)
        rw [update_of_ne (by simpa using same), refOf_entry indirect, entry,
          load_store_apart _ _ _ _ (by omega), entry]

theorem bmapEntry (busy : Busy sb inum base w) (indirect : w.ip.addrs lastAddr ≠ 0)
    (j : Fin nindirect) :
    Meets (· = .outOfBlocks) (Mapped sb inum base w (.entry j))
      (bmapEntry sb w (w.ip.addrs lastAddr).toNat j) := by
  have reads : refOf w.disk w.ip (.entry j) = entry (w.disk (w.ip.addrs lastAddr).toNat) j :=
    refOf_entry indirect j
  rw [Fs.bmapEntry, ← reads]
  split
  · rename_i unset
    apply balloc_meets.bind
    intro got fresh
    have small : got.1 < 2 ^ 32 := fresh.bound.trans sb.sizeFits
    have held : refOf w.disk w.ip (.addr lastAddr) ≠ 0 := toNat_ne_zero.mpr indirect
    have data := (busy.inside held).1
    refine busy.take
      ⟨update got.2 (w.ip.addrs lastAddr).toNat
        (store 4 (got.2 (w.ip.addrs lastAddr).toNat) (4 * j) got.1), w.ip⟩
      fresh rfl (fun _ bound => used_update_data data _ bound)
      (fun _ bound => inode_update_data data _ bound)
      (fun _ differs place => busy.others_update (.addr lastAddr) _ differs place)
      (fun place apart held => update_of_ne ?_ _ _) unset
      (refOf_store_entry indirect j small)
    intro same
    rw [← busy.indirect_self] at same
    exact apart (busy.owned.single _ _ held same)
  · rename_i set
    exact ⟨busy, Extends.refl, fun _ _ _ => rfl, fun _ _ _ => rfl, rfl, set⟩

end Busy

end Busy

end OsLabs.Fs
