import OsLabs.Fs.FsOwnership

/-!
`bmap` finds or allocates the blocks of one locked inode and keeps the blocks owned, and `readi`
returns the bytes of a file without holes and changes nothing.
-/

namespace OsLabs.Fs

open OsLabs.ByteField OsLabs.Outcomes OsLabs.Ownership

def spotOf (bn : Nat) : Option Spot :=
  if direct : bn < ndirect then some (.addr (Fin.castSucc ⟨bn, direct⟩))
  else if indirect : bn - ndirect < nindirect then some (.entry ⟨bn - ndirect, indirect⟩)
  else none

def blockAt (disk : Disk) (d : Dinode) (bn : Nat) : Nat := (spotOf bn).elim 0 (refOf disk d)

def Filled (disk : Disk) (d : Dinode) (limit : Nat) : Prop :=
  ∀ bn, bn * bsize < limit → blockAt disk d bn ≠ 0

variable {sb : Layout} {base : Nat → Dinode} {inum bn limit : Nat} {w next : Work}

theorem spotOf_inside (bound : bn < maxFile) : ∃ spot, spotOf bn = some spot := by
  rw [spotOf]
  split
  · exact ⟨_, rfl⟩
  · rw [dif_pos (by simp only [maxFile] at bound; omega)]
    exact ⟨_, rfl⟩

theorem spotOf_content {spot : Spot} (found : spotOf bn = some spot) : spot ≠ .addr lastAddr := by
  rw [spotOf] at found
  split at found
  · obtain rfl := Option.some.inj found
    rw [Ne, Spot.addr.injEq]
    exact Fin.castSucc_ne_last _
  · split at found
    · obtain rfl := Option.some.inj found
      simp
    · simp at found

theorem blockAt_ne_zero {disk : Disk} {d : Dinode} (held : blockAt disk d bn ≠ 0) :
    ∃ spot, spotOf bn = some spot ∧ spot ≠ .addr lastAddr ∧ blockAt disk d bn = refOf disk d spot := by
  have bound : bn < maxFile := by
    by_contra beyond
    apply held
    rw [blockAt, spotOf, dif_neg (by simp only [maxFile] at beyond; omega),
      dif_neg (by simp only [maxFile] at beyond; omega), Option.elim_none]
  obtain ⟨spot, found⟩ := spotOf_inside bound
  refine ⟨spot, found, spotOf_content found, ?_⟩
  rw [blockAt, found, Option.elim_some]

theorem Extends.blockAt (grows : Extends sb inum base w next) (held : blockAt w.disk w.ip bn ≠ 0) :
    blockAt next.disk next.ip bn = blockAt w.disk w.ip bn := by
  obtain ⟨spot, found, -, same⟩ := blockAt_ne_zero held
  rw [same] at held ⊢
  rw [Fs.blockAt, found, Option.elim_some, grows.grows spot held]

theorem Extends.filled (grows : Extends sb inum base w next) (filled : Filled w.disk w.ip limit) :
    Filled next.disk next.ip limit := by
  intro bn below
  rw [grows.blockAt (filled bn below)]
  exact filled bn below

theorem Busy.bmap {spot : Spot} (busy : Busy sb inum base w) (found : spotOf bn = some spot) :
    Meets (· = .outOfBlocks) (Mapped sb inum base w spot) (bmap sb w bn) := by
  rw [Fs.bmap]
  rw [spotOf] at found
  split at found
  · rename_i direct
    obtain rfl := Option.some.inj found
    rw [dif_pos direct]
    exact busy.bmapAddr _
  · rename_i direct
    rw [dif_neg direct]
    split at found
    · rename_i indirect
      obtain rfl := Option.some.inj found
      rw [dif_pos indirect]
      apply (busy.bmapAddr lastAddr).bind
      intro got first
      have loaded := first.nonzero
      rw [← first.address] at loaded ⊢
      apply (first.busy.bmapEntry (toNat_ne_zero.mp loaded) _).imp
      intro last second
      refine ⟨second.busy, first.grows.trans second.grows,
        busy.keeps_trans first.busy first.grows first.keeps second.keeps, ?_, second.address,
        second.nonzero⟩
      intro other differs content
      rw [second.only other differs content, first.only other content content]
    · simp at found

theorem bmap_filled (held : blockAt w.disk w.ip bn ≠ 0) :
    bmap sb w bn = .ok (blockAt w.disk w.ip bn, w) := by
  obtain ⟨spot, found, -, same⟩ := blockAt_ne_zero held
  rw [same] at held ⊢
  rw [spotOf] at found
  rw [bmap]
  split at found
  · rename_i direct
    obtain rfl := Option.some.inj found
    rw [dif_pos direct, bmapAddr, if_neg (toNat_ne_zero.mp held)]
    rfl
  · rename_i direct
    rw [dif_neg direct]
    split at found
    · rename_i indirect
      obtain rfl := Option.some.inj found
      have loaded : w.ip.addrs lastAddr ≠ 0 := by
        intro empty
        exact held (if_pos empty)
      rw [refOf_entry loaded] at held ⊢
      rw [dif_pos indirect, bmapAddr, if_neg loaded]
      exact if_neg held
    · simp at found

theorem Busy.bmap_stable {spot : Spot} (busy : Busy sb inum base w) (found : spotOf bn = some spot) :
    Meets (· = .outOfBlocks)
      (fun got => Mapped sb inum base w spot got ∧ (blockAt w.disk w.ip bn ≠ 0 → got.2 = w))
      (Fs.bmap sb w bn) := by
  have mapped := busy.bmap found
  by_cases held : blockAt w.disk w.ip bn ≠ 0
  · rw [bmap_filled held] at mapped ⊢
    exact ⟨mapped, fun _ => rfl⟩
  · exact mapped.imp fun got spec => ⟨spec, fun set => absurd set held⟩

def byteAt (disk : Disk) (d : Dinode) (position : Nat) : BitVec 8 :=
  disk (blockAt disk d (position / bsize)) (position % bsize)

theorem slice_byteAt {disk : Disk} {d : Dinode} {off m : Nat} (fits : off % bsize + m ≤ bsize) :
    slice (disk (blockAt disk d (off / bsize))) (off % bsize) m = slice (byteAt disk d) off m := by
  apply List.ext_getElem (by rw [length_slice, length_slice])
  intro index left _
  rw [length_slice] at left
  have block : (off + index) / bsize = off / bsize := by
    simp only [bsize] at fits ⊢
    omega
  have position : (off + index) % bsize = off % bsize + index := by
    simp only [bsize] at fits ⊢
    omega
  simp only [slice, List.getElem_map, List.getElem_range', byteAt, Nat.one_mul, block, position]

theorem readLoop_filled {fuel off n : Nat} (enough : n ≤ fuel) (filled : Filled w.disk w.ip (off + n)) :
    readLoop sb fuel w off n = .ok (slice (byteAt w.disk w.ip) off n, w) := by
  induction fuel generalizing off n with
  | zero =>
      obtain rfl : n = 0 := Nat.le_zero.mp enough
      rfl
  | succ fuel ih =>
      rw [readLoop]
      split
      · rename_i done
        subst done
        rfl
      · rename_i more
        have start : off / bsize * bsize ≤ off := Nat.div_mul_le_self _ _
        have room : off % bsize < bsize := Nat.mod_lt _ (by decide)
        have held := filled (off / bsize) (by omega)
        obtain ⟨m, chunk⟩ : ∃ m, m = min n (bsize - off % bsize) := ⟨_, rfl⟩
        have total : off + m + (n - m) = off + n := by omega
        have rest : readLoop sb fuel w (off + m) (n - m) =
            .ok (slice (byteAt w.disk w.ip) (off + m) (n - m), w) :=
          ih (by omega) (total ▸ filled)
        have joined := slice_add (byteAt w.disk w.ip) off m (n - m)
        rw [show m + (n - m) = n by omega] at joined
        rw [bmap_filled held]
        simp only [← chunk, ok_bind, rest]
        rw [slice_byteAt (by omega), ← joined]
        rfl

theorem toNat_clip {size off n : BitVec 32} (start : ¬size < off) (fits : ¬off + n < off) :
    (if size < off + n then size - off else n).toNat = min n.toNat (size.toNat - off.toNat) := by
  split <;> bv_omega

theorem readi_filled {off n : BitVec 32} (file : w.ip.type ≠ tDev)
    (start : ¬w.ip.size < off) (fits : ¬off + n < off)
    (filled : Filled w.disk w.ip (off.toNat + min n.toNat (w.ip.size.toNat - off.toNat))) :
    readi sb w off n = .ok (.done (slice (byteAt w.disk w.ip) off.toNat
      (min n.toNat (w.ip.size.toNat - off.toNat))), w) := by
  rw [readi, if_neg file, if_neg (by rintro (a | b); exacts [start a, fits b])]
  simp only [toNat_clip start fits]
  rw [readLoop_filled le_rfl filled]
  rfl

theorem readi_unchanged (filled : Filled w.disk w.ip w.ip.size.toNat) (off n : BitVec 32) :
    ∃ reply, readi sb w off n = .ok (reply, w) := by
  by_cases device : w.ip.type = tDev
  · exact ⟨_, if_pos device⟩
  by_cases outside : w.ip.size < off ∨ off + n < off
  · exact ⟨.failed, by rw [readi, if_neg device, if_pos outside]; rfl⟩
  · rw [not_or] at outside
    have start : off.toNat ≤ w.ip.size.toNat := by bv_omega
    exact ⟨_, readi_filled device outside.1 outside.2 fun bn below => filled bn (by omega)⟩

end OsLabs.Fs
