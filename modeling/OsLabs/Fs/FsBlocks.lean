import OsLabs.Fs.FsTruncate

/-!
Ownership of blocks in every run of the inode layer. `bmap` changes `ip->addrs` and `readi` and
`writei` call `iupdate` only when the file grows, so an image with a hole can lose a block; from
an image without holes every reached state is without holes and every block has one owner.
-/

namespace OsLabs.Fs

open Function OsLabs.ByteField OsLabs.Outcomes OsLabs.Ownership OsLabs.Runs

variable {sb : Layout} {disk later : Disk} {s : Mount} {inum : Nat}

/-- Every block index below the size, rounded up, of every allocated inode has a block. -/
def Layout.NoHoles (sb : Layout) (disk : Disk) : Prop :=
  ∀ inum < sb.inodeCount, (sb.inode disk inum).type ≠ 0 →
    Filled disk (sb.inode disk inum) (sb.inode disk inum).size.toNat

section Images

theorem Settled.owned_self {inodes : Nat → Dinode} (settled : Settled sb inodes disk) :
    sb.Owned disk (sb.inode disk) := by
  refine settled.owned.congr (fun _ _ => rfl) ?_
  rintro ⟨inum, spot⟩
  simp only [Layout.refs]
  by_cases bound : inum < sb.inodeCount
  · rw [settled.saved inum bound]
  · rw [if_neg (fun both => bound both.1), if_neg (fun both => bound both.1)]

theorem Elsewhere.refOf {base : Nat → Dinode} {other : Nat} (elsewhere : Elsewhere sb inum base disk later)
    (differs : other ≠ inum) (bound : other < sb.inodeCount) (taken : (base other).type ≠ 0) :
    refOf later (base other) = refOf disk (base other) := by
  funext spot
  have same := elsewhere other differs spot
  rwa [refs_of bound taken, refs_of bound taken] at same

theorem Layout.NoHoles.settled {d : Dinode} (noHoles : sb.NoHoles disk)
    (settled : Settled sb (update (sb.inode disk) inum d) later)
    (elsewhere : Elsewhere sb inum (sb.inode disk) disk later)
    (filled : d.type ≠ 0 → Filled later d d.size.toNat) : sb.NoHoles later := by
  intro other bound taken
  rw [settled.saved other bound] at taken ⊢
  by_cases same : other = inum
  · rw [same, update_self] at taken ⊢
    exact filled taken
  · rw [update_of_ne same] at taken ⊢
    intro bn below
    have held := noHoles other bound taken bn below
    rwa [blockAt, elsewhere.refOf same bound taken]

theorem settled_ialloc (owned : sb.Owned disk (sb.inode disk)) (bound : inum < sb.inodeCount)
    (free : (sb.inode disk inum).type = 0) {d : Dinode} (empty : ∀ i, d.addrs i = 0) :
    Settled sb (update (sb.inode disk) inum d) (sb.setInode disk inum d) := by
  refine ⟨fun other _ => sb.inode_setInode disk inum other _, owned.congr ?_ ?_⟩
  · intro number _
    have apart := sb.iblock_lt_bblock number bound
    exact sb.used_congr (sb.setInode_outside _ _ (by omega))
  · rintro ⟨other, spot⟩
    by_cases differs : other = inum
    · subst differs
      have before : sb.refs disk (sb.inode disk) (other, spot) = 0 := if_neg fun both => both.2 free
      rw [before, Layout.refs, update_self]
      split
      · cases spot <;> simp [refOf, empty]
      · rfl
    · rw [refs_update_other _ differs, elsewhere_setInode owned bound _ other differs]

end Images

section Release

structure Released (sb : Layout) (ip : Fin ninode) (base : Nat → Dinode) (s next : Mount) (d : Dinode) :
    Prop where
  slot : next.icache = update s.icache ip { s.icache ip with valid := false, copy := d }
  free : d.type = 0
  settled : Settled sb (update base (s.icache ip).inum d) next.disk
  elsewhere : Elsewhere sb (s.icache ip).inum base s.disk next.disk
  bits : ∀ spot, refOf s.disk (s.icache ip).copy spot ≠ 0 →
    sb.used next.disk (refOf s.disk (s.icache ip).copy spot) = false

theorem Busy.unused {base : Nat → Dinode} {w : Work} {d : Dinode} {spot : Spot}
    (busy : Busy sb inum base w) (free : d.type = 0)
    (settled : Settled sb (update base inum d) later)
    (elsewhere : Elsewhere sb inum base w.disk later) (held : refOf w.disk w.ip spot ≠ 0) :
    sb.used later (refOf w.disk w.ip spot) = false := by
  obtain ⟨lower, upper⟩ := busy.inside held
  rw [Bool.eq_false_iff]
  intro marked
  rcases (settled.owned.marked _ upper).mp marked with reserved | ⟨⟨other, place⟩, same⟩
  · omega
  · by_cases differs : other = inum
    · subst differs
      rw [Layout.refs, update_self, if_neg (fun both => both.2 free)] at same
      exact held same.symm
    · rw [refs_update_other d differs, elsewhere other differs, ← refs_update_other w.ip differs,
        ← busy.refs_self] at same
      rw [← busy.refs_self] at held
      exact differs (Prod.mk.inj (busy.owned.single _ _ (same ▸ held) same)).1

theorem Busy.release {base : Nat → Dinode} {ip : Fin ninode}
    (busy : Busy sb (s.icache ip).inum base (s.work ip)) :
    Meets (fun _ => False) (fun next => ∃ d, Released sb ip base s next d) (s.release sb ip) := by
  apply busy.itrunc.bind
  rintro w ⟨settled, emptied, elsewhere⟩
  have taken : w.ip.type ≠ 0 := by
    rw [emptied]
    exact busy.taken
  have again := settled.busy busy.bound taken (update_self _ _ _)
  have unreferenced (spot : Spot) : refOf w.disk w.ip spot = 0 := by
    rw [emptied]
    cases spot <;> rfl
  have freed := again.save (d := { w.ip with type := 0 }) rfl (fun _ => unreferenced)
  rw [update_idem] at freed
  have others : Elsewhere sb (s.icache ip).inum base s.disk
      (sb.setInode w.disk (s.icache ip).inum { w.ip with type := 0 }) := by
    intro other differs spot
    have same := again.elsewhere_setInode { w.ip with type := 0 } other differs spot
    rw [refs_update_other _ differs, refs_update_other _ differs] at same
    rw [same, elsewhere other differs]
    rfl
  exact ⟨_, rfl, rfl, freed, others, fun spot held => busy.unused rfl freed others held⟩

end Release

section Invariant

structure Sound (sb : Layout) (s : Mount) : Prop where
  owned : sb.Owned s.disk (sb.inode s.disk)
  noHoles : sb.NoHoles s.disk
  inside : ∀ ip, 0 < (s.icache ip).ref → (s.icache ip).inum < sb.inodeCount
  agrees : ∀ ip, 0 < (s.icache ip).ref → (s.icache ip).valid = true →
    (s.icache ip).copy = sb.inode s.disk (s.icache ip).inum ∧ (s.icache ip).copy.type ≠ 0
  distinct : ∀ ip other, 0 < (s.icache ip).ref → 0 < (s.icache other).ref →
    (s.icache ip).inum = (s.icache other).inum → ip = other

/-- What the callers of the inode layer keep to: inodes are used while referenced, their fields
only once `ilock` has read them, and inode numbers lie in the inode blocks. -/
def Proper (sb : Layout) (s : Mount) : Call → Prop
  | .iget inum => inum < sb.inodeCount
  | .ialloc _ => True
  | .idup ip => 0 < (s.icache ip).ref
  | .ilock _ => True
  | .update ip _ _ _ => 0 < (s.icache ip).ref ∧ (s.icache ip).valid = true
  | .readi ip _ _ | .fileread ip _ _ => 0 < (s.icache ip).ref ∧ (s.icache ip).valid = true
  | .writei ip _ _ _ => 0 < (s.icache ip).ref ∧ (s.icache ip).valid = true
  | .iput ip => 0 < (s.icache ip).ref

instance (sb : Layout) (s : Mount) : DecidablePred (Proper sb s)
  | .iget _ => inferInstanceAs (Decidable (_ < _))
  | .ialloc _ => inferInstanceAs (Decidable True)
  | .idup _ => inferInstanceAs (Decidable (_ < _))
  | .ilock _ => inferInstanceAs (Decidable True)
  | .update _ _ _ _ => inferInstanceAs (Decidable (_ ∧ _))
  | .readi _ _ _ | .fileread _ _ _ => inferInstanceAs (Decidable (_ ∧ _))
  | .writei _ _ _ _ => inferInstanceAs (Decidable (_ ∧ _))
  | .iput _ => inferInstanceAs (Decidable (_ < _))

namespace Sound

theorem iinit (owned : sb.Owned disk (sb.inode disk)) (noHoles : sb.NoHoles disk) :
    Sound sb (Mount.iinit disk) := by
  refine ⟨owned, noHoles, ?_, ?_, ?_⟩
  · intro ip referenced
    exact absurd referenced (lt_irrefl 0)
  · intro ip referenced
    exact absurd referenced (lt_irrefl 0)
  · intro ip other referenced
    exact absurd referenced (lt_irrefl 0)

theorem setSlot (sound : Sound sb s) (ip : Fin ninode) (inode : Inode)
    (inside : 0 < inode.ref → inode.inum < sb.inodeCount)
    (agrees : 0 < inode.ref → inode.valid = true →
      inode.copy = sb.inode s.disk inode.inum ∧ inode.copy.type ≠ 0)
    (distinct : 0 < inode.ref → ∀ other, other ≠ ip → 0 < (s.icache other).ref →
      (s.icache other).inum ≠ inode.inum) : Sound sb (s.setSlot ip inode) := by
  refine ⟨sound.owned, sound.noHoles, ?_, ?_, ?_⟩
  · exact (forall_update_iff _ fun _ (slot : Inode) => 0 < slot.ref → slot.inum < sb.inodeCount).mpr
      ⟨inside, fun other _ => sound.inside other⟩
  · exact (forall_update_iff _ fun _ (slot : Inode) => 0 < slot.ref → slot.valid = true →
      slot.copy = sb.inode s.disk slot.inum ∧ slot.copy.type ≠ 0).mpr
      ⟨agrees, fun other _ => sound.agrees other⟩
  · intro first second left right same
    by_cases one : first = ip <;> by_cases two : second = ip
    · rw [one, two]
    · rw [one, Mount.setSlot_self] at left same
      rw [Mount.setSlot_other _ _ two] at right same
      exact absurd same.symm (distinct left second two right)
    · rw [two, Mount.setSlot_self] at right same
      rw [Mount.setSlot_other _ _ one] at left same
      exact absurd same (distinct right first one left)
    · rw [Mount.setSlot_other _ _ one] at left same
      rw [Mount.setSlot_other _ _ two] at right same
      exact sound.distinct first second left right same

theorem setRef (sound : Sound sb s) {ip : Fin ninode} (used : 0 < (s.icache ip).ref) (ref : Nat) :
    Sound sb (s.setSlot ip { s.icache ip with ref }) := by
  refine sound.setSlot _ _ (fun _ => sound.inside ip used) (fun _ => sound.agrees ip used) ?_
  intro _ other differs referenced same
  exact differs (sound.distinct other ip referenced used same)

theorem moved {d : Dinode} (sound : Sound sb s)
    (settled : Settled sb (update (sb.inode s.disk) inum d) later)
    (elsewhere : Elsewhere sb inum (sb.inode s.disk) s.disk later)
    (filled : d.type ≠ 0 → Filled later d d.size.toNat)
    (uncached : ∀ ip, 0 < (s.icache ip).ref → (s.icache ip).valid = true → (s.icache ip).inum ≠ inum) :
    Sound sb { s with disk := later } := by
  refine ⟨settled.owned_self, sound.noHoles.settled settled elsewhere filled, sound.inside, ?_,
    sound.distinct⟩
  intro ip referenced valid
  have differs := uncached ip referenced valid
  have saved := settled.saved _ (sound.inside ip referenced)
  rw [update_of_ne differs] at saved
  rw [saved]
  exact sound.agrees ip referenced valid

theorem replace {d : Dinode} {ip : Fin ninode} {valid : Bool} (sound : Sound sb s)
    (used : 0 < (s.icache ip).ref)
    (settled : Settled sb (update (sb.inode s.disk) (s.icache ip).inum d) later)
    (elsewhere : Elsewhere sb (s.icache ip).inum (sb.inode s.disk) s.disk later)
    (filled : d.type ≠ 0 → Filled later d d.size.toNat) (live : valid = true → d.type ≠ 0) :
    Sound sb { s.setSlot ip { s.icache ip with valid, copy := d } with disk := later } := by
  have apart (other : Fin ninode) (differs : other ≠ ip) (referenced : 0 < (s.icache other).ref) :
      (s.icache other).inum ≠ (s.icache ip).inum :=
    fun same => differs (sound.distinct other ip referenced used same)
  have inside := sound.inside ip used
  have dropped : Sound sb (s.setSlot ip { s.icache ip with valid := false }) :=
    sound.setSlot _ _ (fun _ => inside) (fun _ impossible => nomatch impossible) (fun _ => apart)
  have moved := dropped.moved settled elsewhere filled ?_
  · have record := settled.saved _ inside
    rw [update_self] at record
    have restored := moved.setSlot ip { s.icache ip with valid, copy := d }
      (fun _ => inside) (fun _ isValid => ⟨record.symm, live isValid⟩) ?_
    · simp only [Mount.setSlot, update_idem] at restored ⊢
      exact restored
    · intro _ other differs
      rw [Mount.setSlot_other _ _ differs]
      exact apart other differs
  · intro other referenced isValid
    by_cases same : other = ip
    · rw [same, Mount.setSlot_self] at isValid
      exact nomatch isValid
    · rw [Mount.setSlot_other _ _ same] at referenced ⊢
      exact apart other same referenced

theorem iget (sound : Sound sb s) (bound : inum < sb.inodeCount) :
    Meets (· = .igetNoInodes) (fun got => Sound sb got.2) (s.iget inum) := by
  rw [Mount.iget]
  split
  · rename_i ip found
    have match_ := List.find?_some found
    simp only [Bool.and_eq_true, decide_eq_true_eq] at match_
    exact sound.setRef match_.1 _
  · rename_i missing
    split
    · rename_i ip empty
      refine sound.setSlot _ _ (fun _ => bound) (fun _ impossible => nomatch impossible) ?_
      intro _ other _ referenced same
      have absent := List.find?_eq_none.mp missing other (List.mem_finRange other)
      simp [referenced, same] at absent
    · rfl

theorem ialloc {type : BitVec 16} (sound : Sound sb s) :
    Meets (fun panic => panic = .noInodes ∨ panic = .igetNoInodes) (fun got => Sound sb got.2)
      (s.ialloc sb type) := by
  rw [Mount.ialloc]
  split
  · rename_i inum found
    have member := List.mem_of_find?_eq_some found
    have free := List.find?_some found
    rw [decide_eq_true_eq] at free
    rw [List.mem_range'_1] at member
    have fits := sb.inodesFit
    have bound : inum < sb.inodeCount := by
      rw [Superblock.inodeCount]
      omega
    have moved := sound.moved (settled_ialloc sound.owned bound free (d := { Dinode.zero with type }) fun _ => rfl)
      (elsewhere_setInode sound.owned bound _) ?_ ?_
    · exact (moved.iget bound).mono (fun _ same => Or.inr same) (fun _ holds => holds)
    · intro _ bn below
      exact absurd below (Nat.not_lt_zero _)
    · intro ip referenced valid same
      obtain ⟨copied, taken⟩ := sound.agrees ip referenced valid
      rw [copied, same] at taken
      exact taken free
  · exact Or.inl rfl

theorem ilock {ip : Fin ninode} (sound : Sound sb s) :
    Meets (fun panic => panic = .ilock ∨ panic = .noType) (Sound sb) (s.ilock sb ip) := by
  rw [Mount.ilock]
  split
  · exact Or.inl rfl
  rename_i referenced
  have used : 0 < (s.icache ip).ref := by omega
  split
  · exact sound
  simp only
  split
  · exact Or.inr rfl
  · rename_i taken
    refine sound.setSlot _ _ (fun _ => sound.inside ip used) (fun _ _ => ⟨rfl, taken⟩) ?_
    intro _ other differs referenced same
    exact differs (sound.distinct other ip referenced used same)

theorem busy {ip : Fin ninode} (sound : Sound sb s) (used : 0 < (s.icache ip).ref)
    (valid : (s.icache ip).valid = true) :
    Busy sb (s.icache ip).inum (sb.inode s.disk) (s.work ip) ∧
      Filled s.disk (s.icache ip).copy (s.icache ip).copy.size.toNat := by
  obtain ⟨copied, taken⟩ := sound.agrees ip used valid
  have inside := sound.inside ip used
  have settled : Settled sb (sb.inode s.disk) (s.work ip).disk := ⟨fun _ _ => rfl, sound.owned⟩
  refine ⟨settled.busy inside taken copied.symm, ?_⟩
  rw [copied] at taken ⊢
  exact sound.noHoles _ inside taken

theorem update {ip : Fin ninode} {major minor nlink : BitVec 16} (sound : Sound sb s)
    (used : 0 < (s.icache ip).ref) (valid : (s.icache ip).valid = true) :
    Sound sb (s.update sb ip major minor nlink) := by
  obtain ⟨busy, filled⟩ := sound.busy used valid
  have settled := busy.save (d := { (s.icache ip).copy with major, minor, nlink }) rfl
    (fun free => absurd free busy.taken)
  exact sound.replace used settled (busy.elsewhere_setInode _)
    (fun _ => busy.filled_setInode rfl filled) (fun _ => busy.taken)

theorem readi {ip : Fin ninode} {off n : BitVec 32} (sound : Sound sb s)
    (used : 0 < (s.icache ip).ref) (valid : (s.icache ip).valid = true) :
    call sb s (.readi ip off n) = .ok s := by
  obtain ⟨busy, filled⟩ := sound.busy used valid
  obtain ⟨reply, same⟩ := readi_unchanged (w := s.work ip) filled off n
  rw [call, same]
  exact congrArg Except.ok (s.finish_work ip)

theorem fileread {ip : Fin ninode} {off n : BitVec 32} (sound : Sound sb s)
    (used : 0 < (s.icache ip).ref) (valid : (s.icache ip).valid = true) : s.fileread sb ip off n = .ok s := by
  obtain ⟨busy, filled⟩ := sound.busy used valid
  obtain ⟨reply, same⟩ := readi_unchanged (w := s.work ip) filled off n
  have unmarked : ∀ b < sb.size, sb.used (s.work ip).disk b = sb.used s.disk b := fun _ _ => rfl
  rw [Mount.fileread, same, ok_bind, if_pos unmarked]
  exact congrArg Except.ok (s.finish_work ip)

theorem writei {ip : Fin ninode} {src : Nat → BitVec 8} {off n : BitVec 32} (sound : Sound sb s)
    (used : 0 < (s.icache ip).ref) (valid : (s.icache ip).valid = true) :
    Meets (· = .outOfBlocks) (Sound sb) (call sb s (.writei ip src off n)) := by
  obtain ⟨busy, filled⟩ := sound.busy used valid
  obtain ⟨copied, taken⟩ := sound.agrees ip used valid
  refine (writei_meets (w := s.work ip) ⟨fun _ _ => rfl, sound.owned⟩ (sound.inside ip used) taken
    copied.symm filled).map ?_
  intro got written
  refine sound.replace used written.settled written.elsewhere (fun _ => written.filled) (fun _ => ?_)
  rw [written.fields]
  exact taken

theorem release {ip : Fin ninode} (sound : Sound sb s) (used : 0 < (s.icache ip).ref)
    (valid : (s.icache ip).valid = true) :
    Meets (fun _ => False)
      (fun next => Sound sb next ∧ (next.icache ip).ref = (s.icache ip).ref) (s.release sb ip) := by
  apply (sound.busy used valid).1.release.imp
  rintro next ⟨d, slot, free, settled, elsewhere, -⟩
  constructor
  · have replaced := sound.replace used settled elsewhere
      (fun taken => absurd free taken) (fun impossible : false = true => nomatch impossible)
    obtain ⟨disk, icache⟩ := next
    obtain rfl : icache = _ := slot
    exact replaced
  · rw [slot, update_self]

theorem iput {ip : Fin ninode} (sound : Sound sb s) (used : 0 < (s.icache ip).ref) :
    Meets (fun _ => False) (Sound sb) (s.iput sb ip) := by
  have examined : Meets (fun _ => False)
      (fun next => Sound sb next ∧ (next.icache ip).ref = (s.icache ip).ref)
      (if (s.icache ip).valid ∧ (s.icache ip).copy.nlink = 0 ∧ (s.icache ip).ref = 1 then s.release sb ip
        else pure s) := by
    split
    · rename_i last
      exact sound.release used last.1
    · exact ⟨sound, rfl⟩
  apply examined.bind
  rintro next ⟨holds, same⟩
  exact holds.setRef (same ▸ used) _

theorem call (sound : Sound sb s) {event : Call} (proper : Proper sb s event) :
    Meets (· ≠ .freeingFree) (Sound sb) (call sb s event) := by
  cases event with
  | iget inum =>
      refine ((sound.iget proper).map fun _ holds => holds).mono ?_ (fun _ holds => holds)
      rintro _ rfl
      decide
  | ialloc type =>
      refine (sound.ialloc.map fun _ holds => holds).mono ?_ (fun _ holds => holds)
      rintro _ (rfl | rfl) <;> decide
  | idup ip => exact sound.setRef proper _
  | ilock ip =>
      refine sound.ilock.mono ?_ (fun _ holds => holds)
      rintro _ (rfl | rfl) <;> decide
  | update ip major minor nlink => exact sound.update proper.1 proper.2
  | readi ip off n =>
      rw [sound.readi proper.1 proper.2]
      exact sound
  | fileread ip off n =>
      rw [Fs.call, sound.fileread proper.1 proper.2]
      exact sound
  | writei ip src off n =>
      refine (sound.writei proper.1 proper.2).mono ?_ (fun _ holds => holds)
      rintro _ rfl
      decide
  | iput ip => exact (sound.iput proper).mono (fun _ impossible => impossible.elim) (fun _ holds => holds)

end Sound

end Invariant

theorem sound_run {calls : List Call} (owned : sb.Owned disk (sb.inode disk)) (noHoles : sb.NoHoles disk)
    (proper : Along (step sb) (fun _ => Proper sb) (Mount.iinit disk) calls)
    (reached : run (step sb) (Mount.iinit disk) calls = some s) : Sound sb s := by
  refine run_invariant_along (fun _ => Sound sb) (Sound.iinit owned noHoles) ?_ calls s proper reached
  intro _ state event next holds permitted stepped
  exact (holds.call permitted).of_ok (eq_ok_of_toOption stepped)

/-- Block ownership, for images in which no inode has a hole. The calls are any that a system
call can make, in any order. -/
theorem blocks_owned (sb : Layout) (disk : Disk) (owned : sb.Owned disk (sb.inode disk))
    (noHoles : sb.NoHoles disk) (calls : List Call) (s : Mount)
    (proper : Along (step sb) (fun _ => Proper sb) (Mount.iinit disk) calls)
    (reached : run (step sb) (Mount.iinit disk) calls = some s) :
    sb.Owned s.disk (sb.inode s.disk) ∧
      ∀ next, Proper sb s next → call sb s next ≠ .error .freeingFree := by
  have sound := sound_run owned noHoles proper reached
  refine ⟨sound.owned, ?_⟩
  intro next permitted failed
  exact (sound.call permitted).of_error failed rfl

def blank : Disk := update (fun _ _ => 0) Layout.mkfs.bmapstart (Bitmap.first Layout.mkfs.nmeta)

theorem inode_blank (bound : inum < Layout.mkfs.inodeCount) : Layout.mkfs.inode blank inum = .zero := by
  apply Dinode.decode_zero
  intro index _ _
  rw [blank, update_of_ne (Layout.mkfs.iblock_lt bound).ne]

theorem used_blank {b : Nat} (bound : b < Layout.mkfs.size) :
    Layout.mkfs.used blank b = decide (b < Layout.mkfs.nmeta) := by
  have small : b < 1000 := bound
  have map : Layout.mkfs.bblock b = Layout.mkfs.bmapstart := by
    rw [Superblock.bblock, Nat.div_eq_of_lt (show b < bpb from small.trans (by decide)), Nat.zero_add]
  rw [Layout.used, map, blank, update_self, Bitmap.test_first,
    Nat.mod_eq_of_lt (show b < bpb from small.trans (by decide))]

theorem owned_of_unreferenced {inodes : Nat → Dinode} (unreferenced : ∀ place, sb.refs disk inodes place = 0)
    (bits : ∀ b < sb.size, sb.used disk b = decide (b < sb.nmeta)) : sb.Owned disk inodes := by
  refine ⟨fun place held => absurd (unreferenced place) held,
    fun place _ held => absurd (unreferenced place) held, ?_⟩
  intro number bound
  rw [bits number bound, decide_eq_true_eq]
  refine ⟨Or.inl, ?_⟩
  rintro (reserved | ⟨place, same⟩)
  · exact reserved
  · rw [← same, unreferenced]
    exact Busy.nmeta_pos sb

theorem blank_owned : Layout.mkfs.Owned blank (Layout.mkfs.inode blank) := by
  refine owned_of_unreferenced ?_ (fun _ bound => used_blank bound)
  rintro ⟨inum, spot⟩
  rw [Layout.refs]
  split
  · rename_i allocated
    exact absurd (congrArg Dinode.type (inode_blank allocated.1)) allocated.2
  · rfl

theorem blank_noHoles : Layout.mkfs.NoHoles blank := by
  intro inum bound taken
  exact absurd (congrArg Dinode.type (inode_blank bound)) taken

def filing : List Call :=
  [.ialloc tFile, .ilock 0, .update 0 0 0 1, .writei 0 (fun _ => 7) 0 600, .update 0 0 0 0, .iput 0]

theorem blocks_owned_filing : ∃ s, run (step Layout.mkfs) (Mount.iinit blank) filing = some s ∧
    Layout.mkfs.Owned s.disk (Layout.mkfs.inode s.disk) := by
  let s := (run (step Layout.mkfs) (Mount.iinit blank) filing).get (by decide +kernel)
  have reached : run (step Layout.mkfs) (Mount.iinit blank) filing = some s := (Option.some_get _).symm
  exact ⟨s, reached, (blocks_owned Layout.mkfs blank blank_owned blank_noHoles filing s
    (alongCheck_sound _ _ _ _ (by decide +kernel)) reached).1⟩

/-- The entries of a root directory: `.` and `..`, and `a` for inode 2. -/
def rootBytes : List (BitVec 8) :=
  [1, 0, 46] ++ List.replicate 13 0 ++ [1, 0, 46, 46] ++ List.replicate 12 0 ++ [2, 0, 97]

def furnishing : List Call :=
  [.ialloc tDir, .ilock 0, .update 0 0 0 1, .writei 0 (fun i => rootBytes.getD i 0) 0 48, .iput 0]

@[irreducible] def furnished : Mount :=
  (run (step Layout.mkfs) (Mount.iinit blank) furnishing).get (by decide +kernel)

theorem furnished_owned : Layout.mkfs.Owned furnished.disk (Layout.mkfs.inode furnished.disk) := by
  have reached : run (step Layout.mkfs) (Mount.iinit blank) furnishing = some furnished := by
    unfold furnished
    exact (Option.some_get _).symm
  exact (sound_run blank_owned blank_noHoles (alongCheck_sound _ _ _ _ (by decide +kernel)) reached).owned

/-- Inode 2 is a file of one block that it does not have. -/
def holed : Disk :=
  Layout.mkfs.setInode furnished.disk 2 { Dinode.zero with type := tFile, nlink := 1, size := 512 }

/-- What `exec` of `/a` does in its transaction: `namei`, `ilock`, `readi` of the ELF header, which is not one, and
`iunlockput`. -/
def executing : List Call :=
  [.iget 1, .ilock 0, .readi 0 0 16, .readi 0 16 16, .readi 0 32 16, .iget 2, .iput 0, .ilock 1, .readi 1 0 52, .iput 1]

/-- A read of the hole allocates a block, and only the copy in memory has its address. -/
theorem hole_loses_block : ∃ s,
    Layout.mkfs.Owned holed (Layout.mkfs.inode holed) ∧
      Along (step Layout.mkfs) (fun _ => Proper Layout.mkfs) (Mount.iinit holed) executing ∧
      run (step Layout.mkfs) (Mount.iinit holed) executing = some s ∧
      (∀ ip, (s.icache ip).ref = 0) ∧ ¬Layout.mkfs.Owned s.disk (Layout.mkfs.inode s.disk) := by
  let s := (run (step Layout.mkfs) (Mount.iinit holed) executing).get (by decide +kernel)
  have types : ∀ inum < 208, inum ≠ 1 → inum ≠ 2 → (Layout.mkfs.inode s.disk inum).type = 0 := by decide +kernel
  have root : ∀ i, (Layout.mkfs.inode s.disk 1).addrs i = if i = 0 then 59 else 0 := by decide +kernel
  have file : ∀ i, (Layout.mkfs.inode s.disk 2).addrs i = 0 := by decide +kernel
  have marked : Layout.mkfs.used s.disk 60 = true := by decide +kernel
  have first : Layout.mkfs.Owned holed (Layout.mkfs.inode holed) :=
    (settled_ialloc furnished_owned (by decide) (by decide +kernel) fun _ => rfl).owned_self
  refine ⟨s, first, alongCheck_sound _ _ _ _ (by decide +kernel), (Option.some_get _).symm, by decide +kernel, ?_⟩
  intro owned
  rcases (owned.marked 60 (by decide)).mp marked with reserved | ⟨⟨inum, spot⟩, same⟩
  · exact absurd reserved (by decide)
  · rw [Layout.refs] at same
    split at same
    · rename_i allocated
      by_cases one : inum = 1
      · subst one
        cases spot with
        | addr i =>
            rw [refOf, root] at same
            split at same <;> exact absurd same (by decide)
        | entry j =>
            have last : (Layout.mkfs.inode s.disk 1).addrs lastAddr = 0 := root lastAddr
            simp [refOf, last] at same
      · by_cases two : inum = 2
        · subst two
          cases spot <;> simp [refOf, file] at same
        · exact allocated.2 (types inum allocated.1 one two)
    · simp at same

end OsLabs.Fs
