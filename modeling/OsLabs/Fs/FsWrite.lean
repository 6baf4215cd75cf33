import OsLabs.Fs.FsRead

/-!
`iupdate` and `writei` keep the blocks owned and the files without holes, and `writei` changes
the bytes it is given and no others.
-/

namespace OsLabs.Fs

open Function OsLabs.ByteField OsLabs.Outcomes OsLabs.Ownership

variable {sb : Layout} {base : Nat → Dinode} {inum bn limit : Nat} {w next : Work}

theorem Busy.write (busy : Busy sb inum base w) (held : blockAt w.disk w.ip bn ≠ 0) (bytes : Bytes) :
    Busy sb inum base ⟨update w.disk (blockAt w.disk w.ip bn) bytes, w.ip⟩ ∧
      Extends sb inum base w ⟨update w.disk (blockAt w.disk w.ip bn) bytes, w.ip⟩ ∧
      refOf (update w.disk (blockAt w.disk w.ip bn) bytes) w.ip = refOf w.disk w.ip := by
  obtain ⟨spot, -, direct, same⟩ := blockAt_ne_zero held
  rw [same] at held ⊢
  have data := (busy.inside held).1
  have own : refOf (update w.disk (refOf w.disk w.ip spot) bytes) w.ip = refOf w.disk w.ip := by
    apply refOf_congr
    intro indirect index _
    rw [update_of_ne]
    intro equal
    exact direct (busy.single held equal.symm)
  have refs (place : Nat × Spot) :
      sb.refs (update w.disk (refOf w.disk w.ip spot) bytes) (update base inum w.ip)
        place = sb.refs w.disk (update base inum w.ip) place := by
    obtain ⟨other, place⟩ := place
    by_cases differs : other = inum
    · subst differs
      rw [refs_update_self busy.bound busy.taken, busy.refs_self, own]
    · rw [refs_update_other w.ip differs, refs_update_other w.ip differs,
        busy.others_update spot bytes differs]
  refine ⟨⟨busy.bound, busy.taken, ?_, ?_⟩, ⟨rfl, ?_, ?_⟩, own⟩
  · intro other bound
    rw [inode_update_data data bytes bound, busy.saved other bound]
  · exact busy.owned.congr (fun number bound => used_update_data data bytes bound) refs
  · intro place _
    exact congrFun own place
  · intro other differs place
    exact busy.others_update spot bytes differs place

theorem Filled.extend {disk : Disk} {d : Dinode} {off : Nat} (filled : Filled disk d limit)
    (start : off ≤ limit) (held : blockAt disk d (off / bsize) ≠ 0) {m : Nat}
    (fits : off % bsize + m ≤ bsize) : Filled disk d (max limit (off + m)) := by
  intro bn below
  by_cases inside : bn * bsize < limit
  · exact filled bn inside
  · have same : bn = off / bsize := by
      simp only [bsize] at *
      omega
    rwa [same]

theorem spotOf_injective {first second : Nat} {spot : Spot} (left : spotOf first = some spot)
    (right : spotOf second = some spot) : first = second := by
  simp only [spotOf] at left right
  split at left <;> split at right
  · obtain rfl := Option.some.inj left
    simpa using (Option.some.inj right).symm
  · split at right
    · obtain rfl := Option.some.inj left
      simp at right
    · simp at right
  · split at left
    · obtain rfl := Option.some.inj right
      simp at left
    · simp at left
  · split at left <;> split at right
    · obtain rfl := Option.some.inj left
      have same := Option.some.inj right
      rw [Spot.entry.injEq, Fin.mk.injEq] at same
      omega
    · simp at right
    · simp at left
    · simp at left

/-- The bytes from `off` on are the `n` bytes of `src` from `start` on, the other bytes of this
inode and of the others are as they were. -/
structure Wrote (sb : Layout) (inum : Nat) (base : Nat → Dinode) (src : Nat → BitVec 8)
    (start off n : Nat) (w next : Work) : Prop where
  mine : ∀ position, off ≤ position → position < off + n →
    blockAt next.disk next.ip (position / bsize) ≠ 0 ∧
      byteAt next.disk next.ip position = src (start + (position - off))
  rest : ∀ position, blockAt w.disk w.ip (position / bsize) ≠ 0 →
    position < off ∨ off + n ≤ position →
    byteAt next.disk next.ip position = byteAt w.disk w.ip position
  others : ∀ other, other ≠ inum → ∀ spot, sb.refs w.disk base (other, spot) ≠ 0 →
    next.disk (sb.refs w.disk base (other, spot)) = w.disk (sb.refs w.disk base (other, spot))
  blocks : ∀ bn, off + n ≤ bn * bsize ∨ (bn + 1) * bsize ≤ off →
    blockAt next.disk next.ip bn = blockAt w.disk w.ip bn

theorem Wrote.nothing {src : Nat → BitVec 8} {start off : Nat} :
    Wrote sb inum base src start off 0 w w :=
  ⟨fun position lower upper => by omega, fun _ _ _ => rfl, fun _ _ _ _ => rfl, fun _ _ => rfl⟩

theorem Wrote.trans {src : Nat → BitVec 8} {start off m n : Nat} {last : Work} (fits : m ≤ n)
    (first : Wrote sb inum base src start off m w next)
    (second : Wrote sb inum base src (start + m) (off + m) (n - m) next last)
    (grows : Extends sb inum base w next) (more : Extends sb inum base next last) :
    Wrote sb inum base src start off n w last := by
  refine ⟨?_, ?_, ?_, ?_⟩
  · intro position lower upper
    by_cases early : position < off + m
    · obtain ⟨allocated, byte⟩ := first.mine position lower early
      refine ⟨by rwa [more.blockAt allocated], ?_⟩
      rw [second.rest position allocated (Or.inl early), byte]
    · obtain ⟨allocated, byte⟩ := second.mine position (by omega) (by omega)
      refine ⟨allocated, byte.trans (congrArg src ?_)⟩
      omega
  · intro position allocated outside
    have still : blockAt next.disk next.ip (position / bsize) ≠ 0 := by rwa [grows.blockAt allocated]
    rw [second.rest position still (by omega), first.rest position allocated (by omega)]
  · intro other differs spot held
    have same := grows.others other differs spot
    have later := second.others other differs spot (same ▸ held)
    rw [same] at later
    rw [later, first.others other differs spot held]
  · intro bn outside
    rw [second.blocks bn (by omega), first.blocks bn (by omega)]

theorem Mapped.wrote {off m : Nat} {spot : Spot} {got : Nat × Work}
    (mapped : Mapped sb inum base w spot got) (busy : Busy sb inum base w) (src : Nat → BitVec 8)
    (start : Nat)
    (located : spotOf (off / bsize) = some spot) (some : 0 < m) (fits : off % bsize + m ≤ bsize) :
    Wrote sb inum base src start off m w
      ⟨update got.2.disk got.1 (blit (got.2.disk got.1) (off % bsize) (slice src start m)),
        got.2.ip⟩ := by
  have address : blockAt got.2.disk got.2.ip (off / bsize) = got.1 := by
    rw [blockAt, located, Option.elim_some, mapped.address]
  have nonzero := mapped.nonzero
  rw [← address] at nonzero ⊢
  obtain ⟨bytes, chunk⟩ : ∃ bytes, bytes = blit (got.2.disk (blockAt got.2.disk got.2.ip (off / bsize)))
    (off % bsize) (slice src start m) := ⟨_, rfl⟩
  obtain ⟨-, more, own⟩ := mapped.busy.write nonzero bytes
  rw [← chunk]
  have kept (bn : Nat) (allocated : blockAt w.disk w.ip bn ≠ 0) :
      got.2.disk (blockAt w.disk w.ip bn) = w.disk (blockAt w.disk w.ip bn) := by
    obtain ⟨place, -, content, same⟩ := blockAt_ne_zero allocated
    rw [same, ← busy.refs_self] at allocated ⊢
    exact mapped.keeps (inum, place) (by simpa using content) allocated
  refine ⟨?_, ?_, ?_, ?_⟩
  · intro position lower upper
    have block : position / bsize = off / bsize := by
      simp only [bsize] at fits ⊢
      omega
    have inner : position % bsize = off % bsize + (position - off) := by
      simp only [bsize] at fits ⊢
      omega
    have found := more.blockAt nonzero
    dsimp only at found ⊢
    rw [byteAt, block, found]
    refine ⟨nonzero, ?_⟩
    rw [update_self, inner, chunk, blit_inside _ _ (by rw [length_slice]; omega)]
    simp [slice]
  · intro position allocated outside
    have still : blockAt got.2.disk got.2.ip (position / bsize) = blockAt w.disk w.ip (position / bsize) :=
      mapped.grows.blockAt allocated
    have found := more.blockAt (still ▸ allocated)
    dsimp only at found ⊢
    rw [byteAt, byteAt, found, still, ← kept _ allocated]
    by_cases block : position / bsize = off / bsize
    · rw [← still, block, update_self, chunk]
      apply blit_outside
      rw [length_slice]
      simp only [bsize] at fits block ⊢
      omega
    · rw [update_of_ne]
      rw [← still] at allocated ⊢
      obtain ⟨place, spotted, -, same⟩ := blockAt_ne_zero allocated
      rw [same] at allocated ⊢
      rw [address, ← mapped.address]
      intro equal
      have spots := mapped.busy.single allocated equal
      exact block (spotOf_injective spotted (spots ▸ located))
  · intro other differs place held
    have theirs : sb.refs w.disk (update base inum w.ip) (other, place) =
        sb.refs w.disk base (other, place) := refs_update_other w.ip differs place
    have still : sb.refs got.2.disk (update base inum got.2.ip) (other, place) =
        sb.refs w.disk base (other, place) := by
      rw [refs_update_other _ differs, mapped.grows.others other differs]
    have apart : sb.refs w.disk base (other, place) ≠ got.1 := by
      intro same
      rw [← mapped.address, ← mapped.busy.refs_self, ← still] at same
      exact differs (Prod.mk.inj (mapped.busy.owned.single _ _ (still ▸ held) same)).1
    dsimp only
    rw [address, update_of_ne apart, ← theirs]
    exact mapped.keeps (other, place) (by simp [differs]) (theirs ▸ held)
  · intro bn outside
    have apart : bn ≠ off / bsize := by
      simp only [bsize] at outside ⊢
      omega
    dsimp only
    rw [blockAt, own, blockAt]
    cases found : spotOf bn with
    | none => rfl
    | some place =>
        have differs : place ≠ spot := fun same => apart (spotOf_injective found (same ▸ located))
        rw [Option.elim_some, Option.elim_some, mapped.only place differs (spotOf_content found)]

structure Stored (sb : Layout) (inum : Nat) (base : Nat → Dinode) (src : Nat → BitVec 8)
    (start off n : Nat) (w next : Work) : Prop where
  busy : Busy sb inum base next
  grows : Extends sb inum base w next
  filled : ∀ limit, off ≤ limit → Filled w.disk w.ip limit → Filled next.disk next.ip (max limit (off + n))
  wrote : Wrote sb inum base src start off n w next

theorem Busy.stored_nothing {src : Nat → BitVec 8} {start off : Nat} (busy : Busy sb inum base w) :
    Stored sb inum base src start off 0 w w := by
  refine ⟨busy, Extends.refl, ?_, .nothing⟩
  intro limit inside filled
  rwa [Nat.add_zero, Nat.max_eq_left inside]

theorem Stored.trans {src : Nat → BitVec 8} {start off m n : Nat} {last : Work} (fits : m ≤ n)
    (first : Stored sb inum base src start off m w next)
    (second : Stored sb inum base src (start + m) (off + m) (n - m) next last) :
    Stored sb inum base src start off n w last := by
  refine ⟨second.busy, first.grows.trans second.grows, ?_,
    first.wrote.trans fits second.wrote first.grows second.grows⟩
  intro limit inside filled
  have more := second.filled _ (by omega) (first.filled limit inside filled)
  rwa [show off + m + (n - m) = off + n by omega, Nat.max_assoc,
    Nat.max_eq_right (show off + m ≤ off + n by omega)] at more

theorem Busy.round {off m : Nat} (busy : Busy sb inum base w) (src : Nat → BitVec 8) (start : Nat)
    (block : off / bsize < maxFile) (some : 0 < m) (fits : off % bsize + m ≤ bsize) :
    Meets (· = .outOfBlocks)
      (fun got => Stored sb inum base src start off m w
          ⟨update got.2.disk got.1 (blit (got.2.disk got.1) (off % bsize) (slice src start m)),
            got.2.ip⟩ ∧
        (blockAt w.disk w.ip (off / bsize) ≠ 0 → got.2 = w))
      (Fs.bmap sb w (off / bsize)) := by
  obtain ⟨spot, found⟩ := spotOf_inside block
  apply (busy.bmap_stable found).imp
  rintro got ⟨mapped, kept⟩
  have address : blockAt got.2.disk got.2.ip (off / bsize) = got.1 := by
    rw [blockAt, found, Option.elim_some, mapped.address]
  have wrote := mapped.wrote busy src start found some fits
  have nonzero := mapped.nonzero
  rw [← address] at nonzero wrote ⊢
  obtain ⟨written, more, -⟩ := mapped.busy.write nonzero
    (blit (got.2.disk (blockAt got.2.disk got.2.ip (off / bsize))) (off % bsize) (slice src start m))
  refine ⟨⟨written, mapped.grows.trans more, ?_, wrote⟩, kept⟩
  intro limit inside filled
  exact more.filled ((mapped.grows.filled filled).extend inside nonzero fits)

theorem Busy.writeLoop {src : Nat → BitVec 8} {fuel start off n : Nat} (busy : Busy sb inum base w)
    (filled : Filled w.disk w.ip limit) (enough : n ≤ fuel) (inside : off ≤ limit)
    (bound : off + n ≤ maxFile * bsize) :
    Meets (· = .outOfBlocks)
      (fun next => Stored sb inum base src start off n w next ∧ (off + n ≤ limit → next.ip = w.ip))
      (writeLoop sb src fuel w start off n) := by
  induction fuel generalizing w limit start off n with
  | zero =>
      obtain rfl : n = 0 := Nat.le_zero.mp enough
      exact ⟨busy.stored_nothing, fun _ => rfl⟩
  | succ fuel ih =>
      rw [Fs.writeLoop]
      split
      · rename_i done
        subst done
        exact ⟨busy.stored_nothing, fun _ => rfl⟩
      · rename_i more
        have room : off % bsize < bsize := Nat.mod_lt _ (by decide)
        have aligned : off / bsize * bsize ≤ off := Nat.div_mul_le_self _ _
        have block : off / bsize < maxFile := Nat.div_lt_of_lt_mul (by rw [Nat.mul_comm]; omega)
        obtain ⟨m, chunk⟩ : ∃ m, m = min n (bsize - off % bsize) := ⟨_, rfl⟩
        simp only [← chunk]
        apply (busy.round src start block (show 0 < m by omega) (by omega)).bind
        rintro got ⟨stored, kept⟩
        apply (ih stored.busy (stored.filled limit inside filled) (by omega) (by omega) (by omega)).imp
        rintro next ⟨rest, same⟩
        refine ⟨stored.trans (by omega) rest, ?_⟩
        intro within
        rw [same (by omega)]
        dsimp only
        rw [kept (filled _ (by omega))]

structure Settled (sb : Layout) (inodes : Nat → Dinode) (disk : Disk) : Prop where
  saved : ∀ inum < sb.inodeCount, sb.inode disk inum = inodes inum
  owned : sb.Owned disk inodes

def Elsewhere (sb : Layout) (inum : Nat) (base : Nat → Dinode) (disk later : Disk) : Prop :=
  ∀ other, other ≠ inum → ∀ spot, sb.refs later base (other, spot) = sb.refs disk base (other, spot)

theorem Settled.busy (settled : Settled sb base w.disk) (bound : inum < sb.inodeCount)
    (taken : w.ip.type ≠ 0) (same : base inum = w.ip) : Busy sb inum base w := by
  refine ⟨bound, taken, settled.saved, ?_⟩
  rw [← same, update_eq_self]
  exact settled.owned

theorem Busy.settled (busy : Busy sb inum base w) (same : base inum = w.ip) :
    Settled sb (update base inum w.ip) w.disk := by
  refine ⟨?_, busy.owned⟩
  rw [← same, update_eq_self]
  exact busy.saved

theorem refOf_of_addrs {disk : Disk} {d ip : Dinode} (addrs : d.addrs = ip.addrs) :
    refOf disk d = refOf disk ip := by
  funext spot
  cases spot <;> simp only [refOf, addrs]

theorem Busy.refOf_setInode {d : Dinode} (busy : Busy sb inum base w) (addrs : d.addrs = w.ip.addrs) :
    refOf (sb.setInode w.disk inum d) d = refOf w.disk w.ip := by
  rw [refOf_of_addrs addrs]
  apply refOf_congr
  intro indirect index _
  have held : refOf w.disk w.ip (.addr lastAddr) ≠ 0 := toNat_ne_zero.mpr indirect
  have data := (busy.inside held).1
  have below := sb.iblock_lt_nmeta busy.bound
  rw [sb.setInode_outside]
  simp only [refOf] at data
  omega

theorem Busy.filled_setInode {d : Dinode} (busy : Busy sb inum base w) (addrs : d.addrs = w.ip.addrs)
    (filled : Filled w.disk w.ip limit) : Filled (sb.setInode w.disk inum d) d limit := by
  intro bn below
  rw [blockAt, busy.refOf_setInode addrs]
  exact filled bn below

theorem elsewhere_setInode {disk : Disk} {inodes : Nat → Dinode} (owned : sb.Owned disk inodes)
    (bound : inum < sb.inodeCount) (d : Dinode) :
    Elsewhere sb inum inodes disk (sb.setInode disk inum d) := by
  intro other differs spot
  simp only [Layout.refs]
  split
  · rename_i allocated
    refine congrFun (refOf_congr ?_) spot
    intro indirect index _
    have theirs : sb.refs disk inodes (other, .addr lastAddr) = ((inodes other).addrs lastAddr).toNat :=
      refs_of allocated.1 allocated.2 _
    have data := (owned.inside _ (theirs ▸ toNat_ne_zero.mpr indirect)).1
    have below := sb.iblock_lt_nmeta bound
    rw [sb.setInode_outside]
    omega
  · rfl

theorem Busy.elsewhere_setInode (busy : Busy sb inum base w) (d : Dinode) :
    Elsewhere sb inum base w.disk (sb.setInode w.disk inum d) := by
  intro other differs spot
  have same := Fs.elsewhere_setInode busy.owned busy.bound d other differs spot
  rwa [refs_update_other w.ip differs, refs_update_other w.ip differs] at same

theorem Busy.save {d : Dinode} (busy : Busy sb inum base w) (addrs : d.addrs = w.ip.addrs)
    (freed : d.type = 0 → ∀ spot, refOf w.disk w.ip spot = 0) :
    Settled sb (update base inum d) (sb.setInode w.disk inum d) := by
  refine ⟨?_, ?_⟩
  · intro other bound
    rw [sb.inode_setInode]
    by_cases differs : other = inum
    · rw [differs, update_self, update_self]
    · rw [update_of_ne differs, update_of_ne differs, busy.saved other bound]
  · refine busy.owned.congr ?_ ?_
    · intro number bound
      have apart := sb.iblock_lt_bblock number busy.bound
      exact sb.used_congr (sb.setInode_outside _ _ (by omega))
    · rintro ⟨other, spot⟩
      by_cases differs : other = inum
      · subst differs
        rw [busy.refs_self]
        by_cases type : d.type = 0
        · rw [freed type, Layout.refs, update_self, if_neg (fun both => both.2 type)]
        · rw [refs_update_self busy.bound type, busy.refOf_setInode addrs]
      · rw [refs_update_other d differs, refs_update_other w.ip differs,
          busy.elsewhere_setInode d other differs]

theorem Wrote.save {src : Nat → BitVec 8} {start off n : Nat} {d : Dinode}
    (wrote : Wrote sb inum base src start off n w next) (busy : Busy sb inum base next)
    (grows : Extends sb inum base w next) (addrs : d.addrs = next.ip.addrs) :
    Wrote sb inum base src start off n w ⟨sb.setInode next.disk inum d, d⟩ := by
  have own := busy.refOf_setInode addrs
  have below := sb.iblock_lt_nmeta busy.bound
  have blocks (bn : Nat) : blockAt (sb.setInode next.disk inum d) d bn = blockAt next.disk next.ip bn := by
    rw [blockAt, own, blockAt]
  have bytes (position : Nat) (allocated : blockAt next.disk next.ip (position / bsize) ≠ 0) :
      byteAt (sb.setInode next.disk inum d) d position = byteAt next.disk next.ip position := by
    rw [byteAt, byteAt, blocks]
    obtain ⟨spot, -, -, same⟩ := blockAt_ne_zero allocated
    rw [same] at allocated ⊢
    have data := (busy.inside allocated).1
    rw [sb.setInode_outside _ _ (by omega)]
  refine ⟨?_, ?_, ?_, fun bn outside => (blocks bn).trans (wrote.blocks bn outside)⟩
  · intro position lower upper
    obtain ⟨allocated, byte⟩ := wrote.mine position lower upper
    dsimp only
    rw [blocks, bytes position allocated]
    exact ⟨allocated, byte⟩
  · intro position allocated outside
    dsimp only
    rw [bytes position (by rwa [grows.blockAt allocated]), wrote.rest position allocated outside]
  · intro other differs spot held
    have theirs : sb.refs next.disk (update base inum next.ip) (other, spot) =
        sb.refs w.disk base (other, spot) := by
      rw [refs_update_other _ differs, grows.others other differs]
    have data := (busy.owned.inside _ (theirs ▸ held)).1
    rw [theirs] at data
    dsimp only
    rw [sb.setInode_outside _ _ (by omega), wrote.others other differs spot held]

structure Written (sb : Layout) (inum : Nat) (base : Nat → Dinode) (src : Nat → BitVec 8)
    (off n : BitVec 32) (w : Work) (got : Reply (BitVec 32) × Work) : Prop where
  settled : Settled sb (update base inum got.2.ip) got.2.disk
  fields : got.2.ip = { w.ip with size := got.2.ip.size, addrs := got.2.ip.addrs }
  filled : Filled got.2.disk got.2.ip got.2.ip.size.toNat
  elsewhere : Elsewhere sb inum base w.disk got.2.disk
  wrote : got.1 = .done n → Wrote sb inum base src 0 off.toNat n.toNat w got.2 ∧
    got.2.ip.size.toNat = max w.ip.size.toNat (off.toNat + n.toNat)
  refused : got.1 ≠ .done n → got.2 = w

theorem writei_meets {src : Nat → BitVec 8} {off n : BitVec 32} (settled : Settled sb base w.disk)
    (bound : inum < sb.inodeCount) (taken : w.ip.type ≠ 0) (same : base inum = w.ip)
    (filled : Filled w.disk w.ip w.ip.size.toNat) :
    Meets (· = .outOfBlocks) (Written sb inum base src off n w) (writei sb inum w src off n) := by
  have busy := settled.busy bound taken same
  have nothing {reply : Reply (BitVec 32)} (differs : reply ≠ .done n) :
      Written sb inum base src off n w (reply, w) :=
    ⟨busy.settled same, rfl, filled, fun _ _ _ => rfl, fun done => absurd done differs, fun _ => rfl⟩
  rw [writei]
  split
  · apply nothing
    rw [Dinode.device]
    split <;> simp
  split
  · exact nothing (by simp)
  rename_i inside
  split
  · exact nothing (by simp)
  rename_i fits
  have sum : (off + n).toNat = off.toNat + n.toNat := by bv_omega
  have start : off.toNat ≤ w.ip.size.toNat := by bv_omega
  apply (busy.writeLoop filled le_rfl start (by omega)).bind
  rintro next ⟨⟨ends, grows, extend, wrote⟩, kept⟩
  have extended := extend _ start filled
  have size : next.ip.size = w.ip.size := by rw [grows.fields]
  split
  · rename_i longer
    have grown : w.ip.size.toNat < off.toNat + n.toNat := by
      rw [size] at longer
      bv_omega
    refine ⟨ends.save rfl (fun free => absurd free ends.taken), ?_, ends.filled_setInode rfl ?_, ?_, ?_, ?_⟩
    · dsimp only
      rw [grows.fields]
    · intro bn below
      exact extended bn (by rw [← sum]; exact lt_max_of_lt_right below)
    · intro other differs spot
      rw [ends.elsewhere_setInode _ other differs, grows.others other differs]
    · intro _
      exact ⟨wrote.save ends grows rfl, by rw [sum]; omega⟩
    · exact fun differs => absurd rfl differs
  · rename_i short
    have within : off.toNat + n.toNat ≤ w.ip.size.toNat := by
      rw [size] at short
      bv_omega
    have unchanged := kept within
    refine ⟨ends.settled (same.trans unchanged.symm), ?_, ?_, grows.others, ?_, ?_⟩
    · dsimp only
      rw [unchanged]
    · dsimp only
      rw [size]
      exact fun bn below => extended bn (lt_max_of_lt_left below)
    · intro _
      exact ⟨wrote, by rw [size]; omega⟩
    · exact fun differs => absurd rfl differs

end OsLabs.Fs
