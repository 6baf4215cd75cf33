import OsLabs.Fs.FsWrite

/-!
`itrunc` gives every block of an inode back, and no panic of `bfree` is reached.
-/

namespace OsLabs.Fs

open Function OsLabs.ByteField OsLabs.Outcomes OsLabs.Ownership

variable {sb : Layout} {base : Nat → Dinode} {inum bn limit : Nat} {w next : Work}

theorem bfree_used {disk : Disk} {b : Nat} (used : sb.used disk b = true) :
    bfree sb disk b = .ok (update disk (sb.bblock b)
      (Bitmap.clear (disk (sb.bblock b)) (b % bpb))) := if_pos used

def Apart (sb : Layout) (disk later : Disk) : Prop :=
  ∀ block, block < sb.bmapstart ∨ sb.nmeta ≤ block → later block = disk block

theorem Apart.trans {first second third : Disk} (left : Apart sb first second)
    (right : Apart sb second third) : Apart sb first third :=
  fun block outside => (right block outside).trans (left block outside)

theorem Apart.inode {disk later : Disk} (apart : Apart sb disk later) (bound : inum < sb.inodeCount) :
    sb.inode later inum = sb.inode disk inum :=
  sb.inode_congr (apart _ (Or.inl (sb.iblock_lt bound)))

theorem bfree_meets {disk : Disk} {ref : Nat × Spot → Nat}
    (owns : Owns sb.nmeta sb.size (sb.used disk) ref) {place : Nat × Spot} (held : ref place ≠ 0) :
    Meets (fun _ => False)
      (fun later => Owns sb.nmeta sb.size (sb.used later) (update ref place 0) ∧
        Apart sb disk later)
      (bfree sb disk (ref place)) := by
  have inside := owns.inside place held
  have map := sb.bblock_lt inside.2
  rw [bfree_used (owns.used_of_ref held)]
  refine ⟨(owns.drop (Busy.nmeta_pos sb) held).congr ?_ (fun _ => rfl), ?_⟩
  · intro number _
    exact sb.used_flip disk (Bitmap.test_clear _ _) number
  · intro block outside
    have start := sb.bmapstart_le_bblock (ref place)
    exact update_of_ne (by omega) _ _

def erased (ref : Nat × Spot → Nat) (inum : Nat) (rest : List (Fin nindirect)) : Nat × Spot → Nat
  | (other, .addr i) => ref (other, .addr i)
  | (other, .entry j) => if other = inum ∧ j ∉ rest then 0 else ref (other, .entry j)

theorem erased_head (ref : Nat × Spot → Nat) (inum : Nat) {j : Fin nindirect} {rest : List (Fin nindirect)}
    (fresh : j ∉ rest) :
    update (erased ref inum (j :: rest)) (inum, .entry j) 0 = erased ref inum rest := by
  funext ⟨other, spot⟩
  by_cases here : (other, spot) = (inum, .entry j)
  · rw [here, update_self, erased, if_pos ⟨rfl, fresh⟩]
  · rw [update_of_ne here]
    cases spot with
    | addr i => rfl
    | entry k =>
        have apart : other = inum → k ≠ j := fun same equal => here (by rw [same, equal])
        simp only [erased, List.mem_cons, not_or]
        refine if_congr ?_ rfl rfl
        exact ⟨fun both => ⟨both.1, both.2.2⟩, fun both => ⟨both.1, apart both.1, both.2⟩⟩

structure Emptied (sb : Layout) (inum : Nat) (disk : Disk) (ref : Nat × Spot → Nat)
    (rest : List (Fin nindirect)) (later : Disk) : Prop where
  nodup : rest.Nodup
  owns : Owns sb.nmeta sb.size (sb.used later) (erased ref inum rest)
  apart : Apart sb disk later

theorem Emptied.round {a : Bytes} {disk later : Disk} {ref : Nat × Spot → Nat} {j : Fin nindirect}
    {rest : List (Fin nindirect)} (entries : ∀ j : Fin nindirect, ref (inum, .entry j) = entry a j)
    (emptied : Emptied sb inum disk ref (j :: rest) later) :
    Meets (fun _ => False) (Emptied sb inum disk ref rest)
      (if entry a j = 0 then return later else bfree sb later (entry a j)) := by
  obtain ⟨fresh, nodup⟩ := List.nodup_cons.mp emptied.nodup
  have here : erased ref inum (j :: rest) (inum, .entry j) = entry a j := by
    rw [erased, if_neg (fun both => both.2 List.mem_cons_self), entries]
  have smaller := erased_head ref inum fresh
  split
  · rename_i empty
    refine ⟨nodup, ?_, emptied.apart⟩
    have same := update_eq_self (inum, Spot.entry j) (erased ref inum (j :: rest))
    rw [here, empty, smaller] at same
    rw [same]
    exact emptied.owns
  · rename_i held
    rw [← here] at held ⊢
    apply (bfree_meets emptied.owns held).imp
    rintro next ⟨owns, apart⟩
    exact ⟨nodup, smaller ▸ owns, emptied.apart.trans apart⟩

theorem itruncEntries_meets {a : Bytes} {disk : Disk} {ref : Nat × Spot → Nat}
    (owns : Owns sb.nmeta sb.size (sb.used disk) ref)
    (entries : ∀ j : Fin nindirect, ref (inum, .entry j) = entry a j) :
    Meets (fun _ => False) (Emptied sb inum disk ref []) (itruncEntries sb a disk) := by
  have whole : erased ref inum (List.finRange nindirect) = ref := by
    funext ⟨other, spot⟩
    cases spot with
    | addr i => rfl
    | entry j => exact if_neg fun both => both.2 (List.mem_finRange j)
  rw [itruncEntries]
  refine Meets.foldlM (fun j rest later emptied => emptied.round entries) ?_
  exact ⟨List.nodup_finRange _, whole.symm ▸ owns, fun _ _ => rfl⟩

theorem Busy.elsewhere_apart {later : Disk} (busy : Busy sb inum base w)
    (apart : Apart sb w.disk later) : Elsewhere sb inum base w.disk later := by
  intro other differs spot
  simp only [Layout.refs]
  split
  · rename_i allocated
    refine congrFun (refOf_congr ?_) spot
    intro indirect index _
    rw [apart _ (Or.inr (busy.other_indirect differs allocated.1 allocated.2 indirect).1)]
  · rfl

theorem Busy.refOf_apart {later : Disk} (busy : Busy sb inum base w) (apart : Apart sb w.disk later) :
    refOf later w.ip = refOf w.disk w.ip := by
  apply refOf_congr
  intro indirect index _
  have held : refOf w.disk w.ip (.addr lastAddr) ≠ 0 := toNat_ne_zero.mpr indirect
  exact congrFun (apart _ (Or.inr (busy.inside held).1)) index

theorem setAddr_zero {i : Fin (ndirect + 1)} {d : Dinode} (empty : d.addrs i = 0) : d.setAddr i 0 = d := by
  have same : update d.addrs i (BitVec.ofNat 32 0) = d.addrs :=
    (congrArg (update d.addrs i) empty.symm).trans (update_eq_self _ _)
  rw [Dinode.setAddr, same]

theorem Busy.itruncAddr (busy : Busy sb inum base w) {i : Fin (ndirect + 1)} (direct : i ≠ lastAddr) :
    Meets (fun _ => False)
      (fun next => Busy sb inum base next ∧ next.ip = w.ip.setAddr i 0 ∧
        Elsewhere sb inum base w.disk next.disk)
      (itruncAddr sb w i) := by
  rw [Fs.itruncAddr]
  split
  · rename_i empty
    exact ⟨busy, (setAddr_zero empty).symm, fun _ _ _ => rfl⟩
  · rename_i set
    have held : refOf w.disk w.ip (.addr i) ≠ 0 := toNat_ne_zero.mpr set
    rw [← busy.refs_self] at held
    have freed := bfree_meets busy.owned held
    rw [busy.refs_self] at freed
    apply freed.bind
    rintro later ⟨owns, apart⟩
    have changes : refOf later (w.ip.setAddr i 0) = update (refOf w.disk w.ip) (.addr i) 0 := by
      rw [refOf_setAddr i (by decide) (refOf_setAddr_entry direct 0), busy.refOf_apart apart]
    have refs := refs_update_spot (w.ip.setAddr i 0) busy.bound busy.taken busy.taken
      (busy.elsewhere_apart apart) changes
    refine ⟨⟨busy.bound, busy.taken, ?_, ?_⟩, rfl, busy.elsewhere_apart apart⟩
    · intro other bound
      rw [apart.inode bound, busy.saved other bound]
    · exact owns.congr (fun _ _ => rfl) (congrFun refs)

theorem Busy.itruncIndirect (busy : Busy sb inum base w) :
    Meets (fun _ => False)
      (fun next => Busy sb inum base next ∧ next.ip = w.ip.setAddr lastAddr 0 ∧
        Elsewhere sb inum base w.disk next.disk)
      (itruncIndirect sb w) := by
  rw [Fs.itruncIndirect]
  split
  · rename_i empty
    exact ⟨busy, (setAddr_zero empty).symm, fun _ _ _ => rfl⟩
  · rename_i set
    have entries (j : Fin nindirect) :
        sb.refs w.disk (update base inum w.ip) (inum, .entry j) =
          entry (w.disk (w.ip.addrs lastAddr).toNat) j := by
      rw [busy.refs_self, refOf_entry set]
    apply (itruncEntries_meets busy.owned entries).bind
    intro middle emptied
    rw [Fs.itruncAddr, if_neg set]
    have held : erased (sb.refs w.disk (update base inum w.ip)) inum [] (inum, .addr lastAddr) =
        (w.ip.addrs lastAddr).toNat := busy.refs_self (.addr lastAddr)
    have freed := bfree_meets emptied.owns (held ▸ toNat_ne_zero.mpr set)
    rw [held] at freed
    apply freed.bind
    rintro later ⟨owns, apart⟩
    have whole := emptied.apart.trans apart
    have address : (w.ip.setAddr lastAddr 0).addrs lastAddr = 0 := setAddr_self _ _
    refine ⟨⟨busy.bound, busy.taken, ?_, ?_⟩, rfl, busy.elsewhere_apart whole⟩
    · intro other bound
      rw [whole.inode bound, busy.saved other bound]
    · refine owns.congr (fun _ _ => rfl) ?_
      rintro ⟨other, spot⟩
      by_cases differs : other = inum
      · subst differs
        have still : (w.ip.setAddr lastAddr 0).type ≠ 0 := busy.taken
        rw [refs_update_self busy.bound still]
        cases spot with
        | addr i =>
            by_cases last : i = lastAddr
            · rw [last, update_self]
              exact congrArg BitVec.toNat address
            · rw [update_of_ne (by simpa using last), erased, busy.refs_self]
              exact congrArg BitVec.toNat (setAddr_other last)
        | entry j =>
            rw [update_of_ne (by simp), erased, if_pos ⟨rfl, List.not_mem_nil⟩, refOf,
              if_pos address]
      · rw [refs_update_other _ differs, busy.elsewhere_apart whole other differs,
          update_of_ne (by simp [differs])]
        cases spot with
        | addr i => rw [erased, refs_update_other _ differs]
        | entry j => rw [erased, if_neg (fun both => differs both.1), refs_update_other _ differs]

structure Cleared (sb : Layout) (inum : Nat) (base : Nat → Dinode) (w : Work) (rest : List (Fin ndirect))
    (next : Work) : Prop where
  busy : Busy sb inum base next
  fields : next.ip = { w.ip with addrs := next.ip.addrs }
  cleared : ∀ i, i ∉ rest → next.ip.addrs i.castSucc = 0
  elsewhere : Elsewhere sb inum base w.disk next.disk

theorem Cleared.round {i : Fin ndirect} {rest : List (Fin ndirect)}
    (cleared : Cleared sb inum base w (i :: rest) next) :
    Meets (fun _ => False) (Cleared sb inum base w rest) (Fs.itruncAddr sb next i.castSucc) := by
  apply (cleared.busy.itruncAddr (Fin.castSucc_ne_last i)).imp
  rintro last ⟨busy, changed, elsewhere⟩
  refine ⟨busy, ?_, ?_, ?_⟩
  · rw [changed, Dinode.setAddr, cleared.fields]
  · intro k absent
    rw [changed]
    by_cases same : k = i
    · rw [same]
      exact setAddr_self _ _
    · rw [setAddr_other (fun equal => same (Fin.castSucc_injective _ equal))]
      exact cleared.cleared k (by simp [same, absent])
  · intro other differs spot
    rw [elsewhere other differs, cleared.elsewhere other differs]

theorem Busy.itrunc (busy : Busy sb inum base w) :
    Meets (fun _ => False)
      (fun next => Settled sb (update base inum next.ip) next.disk ∧
        next.ip = { w.ip with size := 0, addrs := fun _ => 0 } ∧
        Elsewhere sb inum base w.disk next.disk)
      (itrunc sb inum w) := by
  have start : Cleared sb inum base w (List.finRange ndirect) w :=
    ⟨busy, rfl, fun i absent => absurd (List.mem_finRange i) absent, fun _ _ _ => rfl⟩
  apply (Meets.foldlM (fun i rest next cleared => cleared.round) start).bind
  intro direct cleared
  apply cleared.busy.itruncIndirect.bind
  rintro last ⟨ends, changed, elsewhere⟩
  have empty : last.ip.addrs = fun _ => 0 := by
    funext i
    rw [changed]
    cases i using Fin.lastCases with
    | last => exact setAddr_self _ _
    | cast i =>
        have direct : i.castSucc ≠ lastAddr := Fin.castSucc_ne_last i
        rw [setAddr_other direct]
        exact cleared.cleared i List.not_mem_nil
  refine ⟨ends.save rfl (fun free => absurd free ends.taken), ?_, ?_⟩
  · simp only [empty]
    rw [changed, Dinode.setAddr, cleared.fields]
  · intro other differs spot
    rw [ends.elsewhere_setInode _ other differs, elsewhere other differs, cleared.elsewhere other differs]

end OsLabs.Fs
