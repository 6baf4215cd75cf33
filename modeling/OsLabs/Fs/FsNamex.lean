import OsLabs.Fs.FsPath

/-!
What `namex` returns. The components of the path are followed on the disk, and the inode cache keeps its references but
for the one to the inode returned.
-/

namespace OsLabs.Fs

open OsLabs.Outcomes OsLabs.Runs OsLabs.SlotMap

section Tree

variable (sb : Layout) (disk : Disk)

def entries (inum : Nat) : Slots := (dirents (contents disk (sb.inode disk inum))).map Dirent.slot

def follow (inum : Nat) (component : List (BitVec 8)) : Option Nat :=
  if (sb.inode disk inum).type = tDir then lookup (entries sb disk inum) component else none

def resolve (start : Nat) (names : List (List (BitVec 8))) : Option Nat := names.foldlM (follow sb disk) start

def resolveParent (start : Nat) (names : List (List (BitVec 8))) : Option Nat :=
  if names = [] then none
  else (resolve sb disk start names.dropLast).filter fun inum => (sb.inode disk inum).type = tDir

def target (parent : Bool) (start : Nat) (names : List (List (BitVec 8))) : Option Nat :=
  if parent then resolveParent sb disk start names else resolve sb disk start names

end Tree

/-- Inodes from which names lead only to one another. Each is allocated, and one without links is in use. -/
structure Tree (sb : Layout) (s : Mount) (tree : Set Nat) : Prop where
  bound : ∀ inum ∈ tree, inum < sb.inodeCount
  taken : ∀ inum ∈ tree, (sb.inode s.disk inum).type ≠ 0
  whole : ∀ inum ∈ tree, (sb.inode s.disk inum).type = tDir → (sb.inode s.disk inum).size.toNat % direntSize = 0
  closed : ∀ inum ∈ tree, ∀ component next, follow sb s.disk inum component = some next → next ∈ tree
  linked : ∀ inum ∈ tree, (sb.inode s.disk inum).nlink ≠ 0 ∨ ∃ ip, 0 < (s.icache ip).ref ∧ (s.icache ip).inum = inum

/-- The cache of `later` is that of `s` with more references to some places. -/
structure Holding (sb : Layout) (s later : Mount) (extra : Fin ninode → Nat) : Prop where
  sound : Sound sb later
  disk : later.disk = s.disk
  refs : ∀ ip, (later.icache ip).ref = (s.icache ip).ref + extra ip
  places : ∀ ip, 0 < (s.icache ip).ref → (later.icache ip).inum = (s.icache ip).inum

def Mount.Full (s : Mount) : Prop := ∃ ip, ∀ other, other ≠ ip → 0 < (s.icache other).ref

namespace Mount

variable {s : Mount} {ip : Fin ninode} {inode : Inode} {inum : Nat} {got : Fin ninode × Mount}

theorem setSlot_inum (other : Fin ninode) (same : inode.inum = (s.icache ip).inum) :
    ((s.setSlot ip inode).icache other).inum = (s.icache other).inum := by
  by_cases self : other = ip
  · rw [self, setSlot_self, same]
  · rw [setSlot_other _ _ self]

theorem setSlot_ref (other : Fin ninode) (same : inode.ref = (s.icache ip).ref) :
    ((s.setSlot ip inode).icache other).ref = (s.icache other).ref := by
  by_cases self : other = ip
  · rw [self, setSlot_self, same]
  · rw [setSlot_other _ _ self]

theorem setSlot_ref_succ (other : Fin ninode) (same : inode.ref = (s.icache ip).ref + 1) :
    ((s.setSlot ip inode).icache other).ref = (s.icache other).ref + (Pi.single ip 1 : Fin ninode → Nat) other := by
  by_cases self : other = ip
  · rw [self, setSlot_self, Pi.single_eq_same, same]
  · rw [setSlot_other _ _ self, Pi.single_eq_of_ne self, Nat.add_zero]

theorem Got.disk (holds : s.Got inum got) : got.2.disk = s.disk := by
  cases holds <;> rfl

theorem Got.refs (holds : s.Got inum got) (other : Fin ninode) :
    (got.2.icache other).ref = (s.icache other).ref + (Pi.single got.1 1 : Fin ninode → Nat) other := by
  cases holds with
  | cached ip used same => exact setSlot_ref_succ other rfl
  | placed ip unused absent => exact setSlot_ref_succ other (by rw [unused])

theorem Got.keeps (holds : s.Got inum got) {other : Fin ninode} (held : 0 < (s.icache other).ref) :
    got.2.icache other = { s.icache other with ref := (got.2.icache other).ref } := by
  cases holds with
  | cached ip used same =>
      by_cases self : other = ip
      · rw [self, setSlot_self]
      · rw [setSlot_other _ _ self]
  | placed ip unused absent =>
      have apart : other ≠ ip := by
        rintro rfl
        exact held.ne' unused
      rw [setSlot_other _ _ apart]

end Mount

namespace Holding

variable {sb : Layout} {s later : Mount} {extra : Fin ninode → Nat} {ip : Fin ninode} {inum : Nat}

theorem refl (sound : Sound sb s) : Holding sb s s 0 := ⟨sound, rfl, fun _ => rfl, fun _ _ => rfl⟩

theorem used (holding : Holding sb s later extra) (held : 0 < (s.icache ip).ref) : 0 < (later.icache ip).ref := by
  rw [holding.refs]
  omega

theorem idup (sound : Sound sb s) (used : 0 < (s.icache ip).ref) : Holding sb s (s.idup ip) (Pi.single ip 1) := by
  exact ⟨sound.setRef used _, rfl, fun other => Mount.setSlot_ref_succ other rfl, fun other _ => Mount.setSlot_inum other rfl⟩

theorem used_single (holding : Holding sb s later (Pi.single ip 1)) : 0 < (later.icache ip).ref := by
  rw [holding.refs, Pi.single_eq_same]
  exact Nat.succ_pos _

theorem used_other {other : Fin ninode} (holding : Holding sb s later (Pi.single ip 1))
    (full : ∀ ip, 0 < (later.icache ip).ref) (differs : other ≠ ip) : 0 < (s.icache other).ref := by
  have count := holding.refs other
  rw [Pi.single_eq_of_ne differs, Nat.add_zero] at count
  exact count ▸ full other

theorem iget (holding : Holding sb s later extra) (bound : inum < sb.inodeCount) :
    Meets (fun panic => panic = .igetNoInodes ∧ ∀ ip, 0 < (later.icache ip).ref)
      (fun got => Holding sb s got.2 (extra + Pi.single got.1 1) ∧ (got.2.icache got.1).inum = inum ∧
        ∀ ip, 0 < (later.icache ip).ref → got.2.icache ip = { later.icache ip with ref := (got.2.icache ip).ref })
      (later.iget inum) := by
  have sound := holding.sound.iget bound
  have meets := later.iget_meets inum
  cases returns : later.iget inum with
  | error panic =>
      obtain ⟨kind, full⟩ := meets.of_error returns
      refine ⟨kind, fun ip => Nat.pos_of_ne_zero fun unused => full ⟨ip, fun used => absurd unused used.ne'⟩⟩
  | ok got =>
      have holds := meets.of_ok returns
      have sound : Sound sb got.2 := sound.of_ok returns
      refine ⟨⟨sound, holds.disk.trans holding.disk, fun ip => ?_, fun ip held => ?_⟩, holds.inum, fun ip => holds.keeps⟩
      · rw [holds.refs, holding.refs, Pi.add_apply, Nat.add_assoc]
      · rw [holds.keeps (holding.used held)]
        exact holding.places ip held

theorem iput (holding : Holding sb s later (extra + Pi.single ip 1)) (linked :
      (sb.inode s.disk (later.icache ip).inum).nlink ≠ 0 ∨
        ∃ other, 0 < (s.icache other).ref ∧ (s.icache other).inum = (later.icache ip).inum) :
    ∃ after, later.iput sb ip = .ok after ∧ Holding sb s after extra ∧
      ∀ other, (after.icache other).inum = (later.icache other).inum := by
  have count := holding.refs ip
  rw [Pi.add_apply, Pi.single_eq_same] at count
  have used : 0 < (later.icache ip).ref := by omega
  have kept : ¬((later.icache ip).valid = true ∧ (later.icache ip).copy.nlink = 0 ∧ (later.icache ip).ref = 1) := by
    rintro ⟨valid, unlinked, last⟩
    obtain ⟨copied, -⟩ := holding.sound.agrees ip used valid
    rw [copied, holding.disk] at unlinked
    obtain ⟨other, held, same⟩ := linked.resolve_left (not_not.mpr unlinked)
    rw [← holding.places other held] at same
    obtain rfl := holding.sound.distinct other ip (holding.used held) used same
    omega
  refine ⟨_, Mount.iput_kept kept, ⟨holding.sound.setRef used _, holding.disk, fun other => ?_, fun other held => ?_⟩,
    fun other => ?_⟩
  · by_cases self : other = ip
    · rw [self, Mount.setSlot_self]
      dsimp only
      omega
    · rw [Mount.setSlot_other _ _ self, holding.refs, Pi.add_apply, Pi.single_eq_of_ne self, Nat.add_zero]
  · rw [← holding.places other held]
    exact Mount.setSlot_inum other rfl
  · exact Mount.setSlot_inum other rfl

theorem drop (holding : Holding sb s later (Pi.single ip 1)) (linked :
      (sb.inode s.disk (later.icache ip).inum).nlink ≠ 0 ∨
        ∃ other, 0 < (s.icache other).ref ∧ (s.icache other).inum = (later.icache ip).inum) :
    ∃ after, later.iput sb ip = .ok after ∧ Holding sb s after 0 := by
  rw [← zero_add (Pi.single ip 1)] at holding
  obtain ⟨after, returns, holding, -⟩ := holding.iput linked
  exact ⟨after, returns, holding⟩

theorem ilock (holding : Holding sb s later extra) (used : 0 < (later.icache ip).ref)
    (taken : (sb.inode s.disk (later.icache ip).inum).type ≠ 0) :
    ∃ after, later.ilock sb ip = .ok after ∧ Holding sb s after extra ∧
      (∀ other, (after.icache other).inum = (later.icache other).inum) ∧ (after.icache ip).valid = true := by
  have sound : Meets (fun panic => panic = .ilock ∨ panic = .noType) (Sound sb) (later.ilock sb ip) := holding.sound.ilock
  rw [Mount.ilock, if_neg (Nat.not_lt.mpr used)] at sound ⊢
  by_cases valid : (later.icache ip).valid = true
  · exact ⟨later, if_pos valid, holding, fun _ => rfl, valid⟩
  · rw [← holding.disk] at taken
    rw [if_neg valid] at sound ⊢
    dsimp only at sound ⊢
    rw [if_neg taken] at sound ⊢
    refine ⟨_, rfl, ⟨sound, holding.disk, fun other => ?_, fun other held => ?_⟩, fun other => ?_, ?_⟩
    · rw [← holding.refs]
      exact Mount.setSlot_ref other rfl
    · rw [← holding.places other held]
      exact Mount.setSlot_inum other rfl
    · exact Mount.setSlot_inum other rfl
    · rw [Mount.setSlot_self]

theorem directory (holding : Holding sb s later extra) (used : 0 < (later.icache ip).ref)
    (valid : (later.icache ip).valid = true) (type : (later.icache ip).copy.type = tDir)
    (whole : (sb.inode s.disk (later.icache ip).inum).size.toNat % direntSize = 0) :
    Directory sb later ip ∧ later.slots ip = entries sb s.disk (later.icache ip).inum := by
  have sound := holding.sound
  obtain ⟨copied, taken⟩ := sound.agrees ip used valid
  have inside := sound.inside ip used
  rw [← holding.disk] at whole ⊢
  refine ⟨⟨⟨sound.owned, inside, copied ▸ taken, sound.noHoles _ inside (copied ▸ taken)⟩, copied, type, copied ▸ whole,
    used, fun other held same => sound.distinct other ip held used same⟩, ?_⟩
  rw [Mount.slots, entries, copied]

theorem dirlookup {name : Chars} (holding : Holding sb s later (Pi.single ip 1)) (directory : Directory sb later ip)
    (present : lookup (later.slots ip) (nameKey name) = some inum) (bound : inum < sb.inodeCount) :
    Meets (fun failure => failure = .fs .igetNoInodes ∧ s.Full)
      (fun got => ∃ off place held, got = (some (off, place), held) ∧
        Holding sb s held (Pi.single place 1 + Pi.single ip 1) ∧ (held.icache place).inum = inum ∧
        (held.icache ip).inum = (later.icache ip).inum)
      (later.dirlookup sb ip name) := by
  rw [directory.dirlookup, present, Option.elim_some]
  have gets := holding.iget bound
  cases got : later.iget inum with
  | error panic =>
      obtain ⟨rfl, full⟩ := gets.of_error got
      exact ⟨rfl, ip, fun other => holding.used_other full⟩
  | ok result =>
      obtain ⟨both, number, keeps⟩ := gets.of_ok got
      rw [add_comm] at both
      refine ⟨_, _, _, rfl, both, number, ?_⟩
      rw [keeps ip directory.held]

end Holding

section Targets

variable {sb : Layout} {disk : Disk} {start : Nat} {c : List (BitVec 8)} {names : List (List (BitVec 8))}

theorem resolve_cons (start : Nat) (c : List (BitVec 8)) (names : List (List (BitVec 8))) :
    resolve sb disk start (c :: names) = (follow sb disk start c).bind fun next => resolve sb disk next names := by
  rw [resolve, List.foldlM_cons]
  rfl

theorem target_other (parent : Bool) (other : (sb.inode disk start).type ≠ tDir) :
    target sb disk parent start (c :: names) = none := by
  have stuck (cs : List (List (BitVec 8))) : resolve sb disk start (c :: cs) = none := by
    rw [resolve_cons, follow, if_neg other, Option.bind_none]
  cases parent with
  | false => exact stuck names
  | true =>
      rw [target, if_pos rfl, resolveParent, if_neg (List.cons_ne_nil _ _)]
      cases names with
      | nil => exact Option.filter_some_neg (by simpa using other)
      | cons next names =>
          rw [List.dropLast_cons_cons, stuck]
          rfl

theorem target_last (directory : (sb.inode disk start).type = tDir) : target sb disk true start [c] = some start := by
  rw [target, if_pos rfl, resolveParent, if_neg (List.cons_ne_nil _ _)]
  exact Option.filter_some_pos (by simpa using directory)

theorem target_cons {parent : Bool} (more : ¬(parent = true ∧ names = [])) (directory : (sb.inode disk start).type = tDir) :
    target sb disk parent start (c :: names) =
      (lookup (entries sb disk start) c).bind fun next => target sb disk parent next names := by
  have first (cs : List (List (BitVec 8))) : resolve sb disk start (c :: cs) =
      (lookup (entries sb disk start) c).bind fun next => resolve sb disk next cs := by
    rw [resolve_cons, follow, if_pos directory]
  cases parent with
  | false => exact first names
  | true =>
      have some : names ≠ [] := fun none => more ⟨rfl, none⟩
      rw [target, if_pos rfl, resolveParent, if_neg (List.cons_ne_nil _ _), List.dropLast_cons_of_ne_nil some, first]
      cases lookup (entries sb disk start) c with
      | none => rfl
      | some next => exact (if_neg some).symm

end Targets

/-- The inode where a path leads is returned with one more reference, or none if it leads nowhere. -/
def Reached (sb : Layout) (s : Mount) (found : Option (Fin ninode)) (later : Mount) : Option Nat → Prop
  | some inum => ∃ ip, found = some ip ∧ (later.icache ip).inum = inum ∧ Holding sb s later (Pi.single ip 1)
  | none => found = none ∧ Holding sb s later 0

section Reached

variable {sb : Layout} {s : Mount} {run : Except DirFailure (Option (Fin ninode) × Chars × Mount)} {goal : Option Nat}

theorem Reached.missing (roomy : ¬s.Full) (nowhere : goal = none)
    (meets : Meets (fun failure => failure = .fs .igetNoInodes ∧ s.Full)
      (fun got => Reached sb s got.1 got.2.2 goal) run) : ∃ name later, run = .ok (none, name, later) := by
  subst nowhere
  obtain ⟨⟨found, name, later⟩, returns, missing, -⟩ :=
    (meets.mono (fun _ fails => roomy fails.2) fun _ holds => holds).returns
  dsimp only at missing
  subst missing
  exact ⟨name, later, returns⟩

theorem Reached.found {inum : Nat} {last : Option (List (BitVec 8))} (roomy : ¬s.Full) (there : goal = some inum)
    (meets : Meets (fun failure => failure = .fs .igetNoInodes ∧ s.Full)
      (fun got => Reached sb s got.1 got.2.2 goal ∧ (got.1.isSome = true → last = some (nameKey got.2.1))) run) :
    ∃ ip name later, run = .ok (some ip, name, later) ∧ (later.icache ip).inum = inum ∧ last = some (nameKey name) := by
  subst there
  obtain ⟨⟨found, name, later⟩, returns, ⟨ip, place, here, -⟩, named⟩ :=
    (meets.mono (fun _ fails => roomy fails.2) fun _ holds => holds).returns
  dsimp only at place
  subst place
  exact ⟨ip, name, later, returns, here, named rfl⟩

end Reached

structure Walked (sb : Layout) (s : Mount) (parent : Bool) (start : Nat) (names : List (List (BitVec 8)))
    (got : Option (Fin ninode) × Chars × Mount) : Prop where
  reached : Reached sb s got.1 got.2.2 (target sb s.disk parent start names)
  last : parent = true → got.1.isSome = true → names.getLast? = some (nameKey got.2.1)

section Loop

variable {sb : Layout} {s later : Mount} {parent : Bool} {ip : Fin ninode} {path rest : List (BitVec 8)}
  {name name' : Chars}

theorem namexLoop_none (taken : skipelem path name = none) : later.namexLoop sb parent ip path name =
    if parent then do
      let s ← (later.iput sb ip).mapError .fs
      return (none, name, s)
    else return (some ip, name, later) := by
  rw [Mount.namexLoop]
  split
  · rfl
  · rename_i more
    rw [taken] at more
    cases more

theorem namexLoop_some (taken : skipelem path name = some (rest, name')) : later.namexLoop sb parent ip path name = (do
    let s ← (later.ilock sb ip).mapError .fs
    if (s.icache ip).copy.type ≠ tDir then
      let s ← (s.iput sb ip).mapError .fs
      return (none, name', s)
    else if parent ∧ rest = [] then return (some ip, name', s)
    else
      let (next, s) ← s.dirlookup sb ip name'
      match next with
      | none =>
          let s ← (s.iput sb ip).mapError .fs
          return (none, name', s)
      | some (_, next) =>
          let s ← (s.iput sb ip).mapError .fs
          s.namexLoop sb parent next rest name') := by
  rw [Mount.namexLoop]
  split
  · rename_i none
    rw [taken] at none
    cases none
  · rename_i some
    rw [taken] at some
    cases some
    rfl

theorem Walked.cons {start next : Nat} {c : List (BitVec 8)} {names : List (List (BitVec 8))}
    {got : Option (Fin ninode) × Chars × Mount} (walked : Walked sb s parent next names got)
    (directory : (sb.inode s.disk start).type = tDir) (present : lookup (entries sb s.disk start) c = some next)
    (more : ¬(parent = true ∧ names = [])) : Walked sb s parent start (c :: names) got := by
  refine ⟨?_, fun isParent found => ?_⟩
  · rw [target_cons more directory, present]
    exact walked.reached
  · rw [List.getLast?_cons_of_ne_nil fun none => more ⟨isParent, none⟩]
    exact walked.last isParent found

theorem Holding.namexLoop {tree : Set Nat} (whole : Tree sb s tree) (ended : 0 ∉ path)
    (holding : Holding sb s later (Pi.single ip 1)) (member : (later.icache ip).inum ∈ tree) :
    Meets (fun failure => failure = .fs .igetNoInodes ∧ s.Full)
      (Walked sb s parent (later.icache ip).inum (components path)) (later.namexLoop sb parent ip path name) := by
  induction length : path.length using Nat.strong_induction_on generalizing path name later ip with
  | _ n ih =>
      subst length
      cases taken : skipelem path name with
      | none =>
          rw [namexLoop_none taken, skipelem_none taken]
          cases parent with
          | false => exact ⟨⟨ip, rfl, rfl, holding⟩, fun impossible => absurd impossible Bool.false_ne_true⟩
          | true =>
              obtain ⟨after, returns, holding⟩ := holding.drop (whole.linked _ member)
              rw [if_pos rfl, returns]
              exact ⟨⟨rfl, holding⟩, fun _ impossible => absurd impossible Bool.false_ne_true⟩
      | some result =>
          obtain ⟨rest, name'⟩ := result
          obtain ⟨first, without, only⟩ := skipelem_some ended taken
          obtain ⟨locked, locks, holding, inums, valid⟩ := holding.ilock holding.used_single (whole.taken _ member)
          rw [← inums ip] at member ⊢
          have used := holding.used_single
          have copied := (holding.sound.agrees ip used valid).1
          rw [holding.disk] at copied
          rw [namexLoop_some taken, locks, first]
          simp only [Except.mapError, ok_bind]
          by_cases directory : (locked.icache ip).copy.type = tDir
          · have type := directory
            rw [copied] at type
            obtain ⟨dir, slots⟩ := holding.directory used valid directory (whole.whole _ member type)
            rw [if_neg (not_not.mpr directory)]
            by_cases stop : parent = true ∧ rest = []
            · rw [if_pos stop]
              obtain ⟨rfl, rfl⟩ := stop
              refine ⟨?_, fun _ _ => rfl⟩
              rw [only.mp rfl, target_last type]
              exact ⟨ip, rfl, rfl, holding⟩
            · have more : ¬(parent = true ∧ components rest = []) := mt (And.imp_right only.mpr) stop
              rw [if_neg stop]
              cases present : lookup (entries sb s.disk (locked.icache ip).inum) (nameKey name') with
              | none =>
                  obtain ⟨after, returns, holding⟩ := holding.drop (whole.linked _ member)
                  rw [dir.dirlookup, slots, present, Option.elim_none, ok_bind, returns]
                  refine ⟨?_, fun _ impossible => absurd impossible Bool.false_ne_true⟩
                  rw [target_cons more type, present]
                  exact ⟨rfl, holding⟩
              | some next =>
                  have inside : next ∈ tree := by
                    refine whole.closed _ member (nameKey name') next ?_
                    rw [follow, if_pos type, present]
                  refine (holding.dirlookup dir (slots ▸ present) (whole.bound next inside)).bind fun got found => ?_
                  obtain ⟨off, place, held, rfl, both, number, same⟩ := found
                  obtain ⟨after, puts, holding, inums⟩ := both.iput (same ▸ whole.linked _ member)
                  have here : (after.icache place).inum = next := (inums place).trans number
                  dsimp only
                  rw [puts]
                  refine (ih _ (skipelem_shorter taken) without holding (here ▸ inside) rfl).imp fun got walked => ?_
                  rw [here] at walked
                  exact walked.cons type present more
          · obtain ⟨after, returns, holding⟩ := holding.drop (whole.linked _ member)
            rw [if_pos directory, returns]
            refine ⟨?_, fun _ impossible => absurd impossible Bool.false_ne_true⟩
            rw [target_other parent (copied ▸ directory)]
            exact ⟨rfl, holding⟩

end Loop

theorem follow_eq_none_iff {sb : Layout} {disk : Disk} {inum : Nat} {component : List (BitVec 8)} :
    follow sb disk inum component = none ↔
      (sb.inode disk inum).type ≠ tDir ∨ lookup (entries sb disk inum) component = none := by
  rw [follow]
  by_cases directory : (sb.inode disk inum).type = tDir
  · rw [if_pos directory, or_iff_right (not_not.mpr directory)]
  · rw [if_neg directory]
    exact iff_of_true rfl (Or.inl directory)

theorem resolve_eq_none_iff {sb : Layout} {disk : Disk} {start : Nat} {names : List (List (BitVec 8))} :
    resolve sb disk start names = none ↔ ∃ before component after inum, names = before ++ component :: after ∧
      resolve sb disk start before = some inum ∧
      ((sb.inode disk inum).type ≠ tDir ∨ lookup (entries sb disk inum) component = none) := by
  induction names generalizing start with
  | nil =>
      refine iff_of_false (Option.some_ne_none start) ?_
      rintro ⟨before, component, after, inum, parts, -⟩
      exact List.append_ne_nil_of_right_ne_nil before (List.cons_ne_nil component after) parts.symm
  | cons c names ih =>
      constructor
      · intro nowhere
        cases first : follow sb disk start c with
        | none => exact ⟨[], c, names, start, rfl, rfl, follow_eq_none_iff.mp first⟩
        | some next =>
            rw [resolve_cons, first, Option.bind_some] at nowhere
            obtain ⟨before, component, after, inum, rfl, reached, stuck⟩ := ih.mp nowhere
            refine ⟨c :: before, component, after, inum, rfl, ?_, stuck⟩
            rw [resolve_cons, first, Option.bind_some, reached]
      · rintro ⟨before, component, after, inum, parts, reached, stuck⟩
        cases before with
        | nil =>
            cases parts
            cases reached
            rw [resolve_cons, follow_eq_none_iff.mpr stuck, Option.bind_none]
        | cons first before =>
            cases parts
            rw [resolve_cons] at reached ⊢
            obtain ⟨next, found, reached⟩ := Option.bind_eq_some_iff.mp reached
            rw [found, Option.bind_some]
            exact ih.mpr ⟨before, component, after, inum, rfl, reached, stuck⟩

def Mount.startOf (s : Mount) (cwd : Fin ninode) (path : List (BitVec 8)) : Nat :=
  if path.head? = some slash then rootino else (s.icache cwd).inum

theorem Sound.namex {sb : Layout} {s : Mount} {cwd : Fin ninode} {path : List (BitVec 8)} {parent : Bool} {name : Chars}
    {tree : Set Nat} (sound : Sound sb s) (current : 0 < (s.icache cwd).ref) (ended : 0 ∉ path) (whole : Tree sb s tree)
    (start : s.startOf cwd path ∈ tree) :
    Meets (fun failure => failure = .fs .igetNoInodes ∧ s.Full)
      (Walked sb s parent (s.startOf cwd path) (components path)) (s.namex sb cwd path parent name) := by
  rw [Mount.startOf] at start ⊢
  rw [Mount.namex]
  by_cases absolute : path.head? = some slash
  · rw [if_pos absolute] at start ⊢
    have gets := (Holding.refl sound).iget (whole.bound _ start)
    rw [if_pos absolute]
    cases got : s.iget rootino with
    | error panic =>
        obtain ⟨rfl, full⟩ := gets.of_error got
        exact ⟨rfl, 0, fun other _ => full other⟩
    | ok result =>
        obtain ⟨holding, here, -⟩ := gets.of_ok got
        rw [zero_add] at holding
        rw [← here] at start ⊢
        exact holding.namexLoop whole ended start
  · rw [if_neg absolute] at start ⊢
    have here : ((s.idup cwd).icache cwd).inum = (s.icache cwd).inum := Mount.setSlot_inum cwd rfl
    rw [if_neg absolute, ← here]
    exact (Holding.idup sound current).namexLoop whole ended (here.symm ▸ start)

/-- Looking a path up is a fold over its components, and adds one reference. -/
theorem namex_is_fold (sb : Layout) (s : Mount) (sound : Sound sb s) (cwd : Fin ninode) (current : 0 < (s.icache cwd).ref)
    (path : List (BitVec 8)) (ended : 0 ∉ path) (name : Chars) (tree : Set Nat) (whole : Tree sb s tree)
    (start : s.startOf cwd path ∈ tree) :
    Meets (fun failure => failure = .fs .igetNoInodes ∧ s.Full)
        (fun got => Reached sb s got.1 got.2.2 (resolve sb s.disk (s.startOf cwd path) (components path)))
        (s.namex sb cwd path false name) ∧
      Meets (fun failure => failure = .fs .igetNoInodes ∧ s.Full)
        (fun got => Reached sb s got.1 got.2.2 (resolveParent sb s.disk (s.startOf cwd path) (components path)) ∧
          (got.1.isSome = true → (components path).getLast? = some (nameKey got.2.1)))
        (s.namex sb cwd path true name) ∧
      (resolve sb s.disk (s.startOf cwd path) (components path) = none ↔ ∃ before component after inum,
        components path = before ++ component :: after ∧ resolve sb s.disk (s.startOf cwd path) before = some inum ∧
        ((sb.inode s.disk inum).type ≠ tDir ∨ lookup (entries sb s.disk inum) component = none)) :=
  ⟨(sound.namex current ended whole start).imp fun _ walked => walked.reached,
    (sound.namex current ended whole start).imp fun _ walked => ⟨walked.reached, walked.last rfl⟩, resolve_eq_none_iff⟩

def rooting : List Call :=
  [.ialloc tDir, .ilock 0, .update 0 0 0 1, .writei 0 (fun i => ((Dirent.forName dot 1).bytes[i]?).getD 0) 0 16]

@[irreducible] def rooted : Mount := (run (step Layout.mkfs) (Mount.iinit blank) rooting).get (by decide +kernel)

theorem rooted_run : run (step Layout.mkfs) (Mount.iinit blank) rooting = some rooted := by
  unfold rooted
  exact (Option.some_get _).symm

theorem rooted_sound : Sound Layout.mkfs rooted :=
  sound_run blank_owned blank_noHoles (alongCheck_sound _ _ _ _ (by decide +kernel)) rooted_run

theorem rooted_entries : entries Layout.mkfs rooted.disk 1 = [some ([46], 1)] := by decide +kernel

theorem rooted_tree : Tree Layout.mkfs rooted {1} := by
  refine ⟨?_, ?_, ?_, ?_, ?_⟩
  · rintro _ rfl
    decide
  · rintro _ rfl
    decide +kernel
  · rintro _ rfl _
    decide +kernel
  · rintro _ rfl component next found
    rw [follow, rooted_entries] at found
    obtain ⟨-, found⟩ := Option.ite_none_right_eq_some.mp found
    rw [lookup_cons, entryFor_some] at found
    split at found <;> cases found
    rfl
  · rintro _ rfl
    exact Or.inl (by decide +kernel)

theorem rooted_roomy : ¬rooted.Full := by
  rintro ⟨ip, full⟩
  obtain ⟨other, differs, free⟩ : ∃ other, other ≠ ip ∧ (rooted.icache other).ref = 0 := by
    by_cases second : ip = 1
    · exact ⟨2, by rw [second]; decide, by decide +kernel⟩
    · exact ⟨1, Ne.symm second, by decide +kernel⟩
  exact (full other differs).ne' free

/-- `/./x` is not there, and its parent is the root. -/
theorem namex_is_fold_dot :
    (∃ name later, rooted.namex Layout.mkfs 0 [47, 46, 47, 120] false (fun _ => 0) = .ok (none, name, later)) ∧
      ∃ ip name later, rooted.namex Layout.mkfs 0 [47, 46, 47, 120] true (fun _ => 0) = .ok (some ip, name, later) ∧
        (later.icache ip).inum = 1 ∧ (components [47, 46, 47, 120]).getLast? = some (nameKey name) := by
  have fold := namex_is_fold Layout.mkfs rooted rooted_sound 0 (by decide +kernel) [47, 46, 47, 120] (by decide)
    (fun _ => 0) {1} rooted_tree rfl
  exact ⟨Reached.missing rooted_roomy (by decide +kernel) (And.left fold),
    Reached.found rooted_roomy (by decide +kernel) (And.left (And.right fold))⟩

end OsLabs.Fs
