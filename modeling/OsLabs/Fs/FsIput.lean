import Mathlib.Algebra.BigOperators.Ring.Finset
import OsLabs.Fs.FsBlocks

/-!
Processes that drop their references to one cached inode at the same time. `iput` reads
`ip->ref` in one critical section and decrements it in another, so two final calls can each see
the other's reference. When the last call to look at the count finds no decrement pending, the
inode is freed.
-/

namespace OsLabs.Fs

open Function OsLabs.Interleaving OsLabs.Outcomes OsLabs.Ownership OsLabs.Runs

inductive IputPhase
  | idle
  | locked
  | freeing
  | releasing
  | dropping
deriving DecidableEq

/-- `held` are the references that the process has not begun to drop. -/
structure Dropper where
  phase : IputPhase
  held : Nat

structure Shared (ι : Type*) where
  mount : Mount
  holder : Option ι

variable {ι : Type*}

/-- The sections of `iput`: `acquiresleep`, the tests with `ip->ref` read under `icache.lock`,
the release of the inode, `releasesleep`, and the decrement under `icache.lock`. -/
def iputProgram (sb : Layout) (ip : Fin ninode) (i : ι) (c : Shared ι) :
    Dropper → Option (Shared ι × Dropper)
  | ⟨.idle, 0⟩ => none
  | ⟨.idle, held + 1⟩ =>
      if c.holder.isNone then some ({ c with holder := some i }, ⟨.locked, held⟩) else none
  | ⟨.locked, held⟩ =>
      let slot := c.mount.icache ip
      if slot.valid ∧ slot.copy.nlink = 0 ∧ slot.ref = 1 then some (c, ⟨.freeing, held⟩)
      else some (c, ⟨.releasing, held⟩)
  | ⟨.freeing, held⟩ =>
      (c.mount.release sb ip).toOption.map fun mount => ({ c with mount }, ⟨.releasing, held⟩)
  | ⟨.releasing, held⟩ => some ({ c with holder := none }, ⟨.dropping, held⟩)
  | ⟨.dropping, held⟩ =>
      let slot := c.mount.icache ip
      some ({ c with mount := c.mount.setSlot ip { slot with ref := slot.ref - 1 } }, ⟨.idle, held⟩)

abbrev Droppers (ι : Type*) := System (Shared ι) ι Dropper

def dropStart (mount : Mount) (held : ι → Nat) : Droppers ι := ⟨⟨mount, none⟩, fun i => ⟨.idle, held i⟩⟩

def dropStep [DecidableEq ι] (sb : Layout) (ip : Fin ninode) : Droppers ι → ι → Option (Droppers ι) :=
  act (iputProgram sb ip)

/-- When a process looks at `ip->ref`, some reference has not been begun to drop, or no other
process is between `releasesleep` and its decrement. -/
def Unraced (s : Droppers ι) (i : ι) : Prop :=
  (s.place i).phase = .locked →
    (∃ j, 0 < (s.place j).held) ∨ ∀ j, j ≠ i → (s.place j).phase ≠ .dropping

instance [Fintype ι] [DecidableEq ι] (s : Droppers ι) : DecidablePred (Unraced s) :=
  fun _ => inferInstanceAs (Decidable (_ → _ ∨ _))

def Dropper.weight (d : Dropper) : Int := d.held + if d.phase = .idle then 0 else 1

def Dropper.critical (d : Dropper) : Bool :=
  d.phase = .locked || d.phase = .freeing || d.phase = .releasing

variable {sb : Layout} {ip : Fin ninode}

section Moves

def LastTest (ip : Fin ninode) (mount : Mount) : Prop :=
  (mount.icache ip).valid ∧ (mount.icache ip).copy.nlink = 0 ∧ (mount.icache ip).ref = 1

inductive DropMoves (sb : Layout) (ip : Fin ninode) (i : ι) (c : Shared ι) :
    Dropper → Shared ι → Dropper → Prop
  | acquire {held : Nat} (free : c.holder = none) :
      DropMoves sb ip i c ⟨.idle, held + 1⟩ { c with holder := some i } ⟨.locked, held⟩
  | last {held : Nat} (test : LastTest ip c.mount) :
      DropMoves sb ip i c ⟨.locked, held⟩ c ⟨.freeing, held⟩
  | others {held : Nat} (test : ¬LastTest ip c.mount) :
      DropMoves sb ip i c ⟨.locked, held⟩ c ⟨.releasing, held⟩
  | free {held : Nat} {mount : Mount} (released : c.mount.release sb ip = .ok mount) :
      DropMoves sb ip i c ⟨.freeing, held⟩ { c with mount } ⟨.releasing, held⟩
  | unlock {held : Nat} : DropMoves sb ip i c ⟨.releasing, held⟩ { c with holder := none } ⟨.dropping, held⟩
  | drop {held : Nat} :
      DropMoves sb ip i c ⟨.dropping, held⟩
        { c with mount := c.mount.setSlot ip { c.mount.icache ip with ref := (c.mount.icache ip).ref - 1 } }
        ⟨.idle, held⟩

theorem iputProgram_moves {i : ι} {c next : Shared ι} {d d' : Dropper}
    (moved : iputProgram sb ip i c d = some (next, d')) : DropMoves sb ip i c d next d' := by
  obtain ⟨phase, held⟩ := d
  cases phase with
  | idle =>
      cases held with
      | zero => exact nomatch moved
      | succ held =>
          simp only [iputProgram] at moved
          split at moved
          · rename_i free
            obtain ⟨rfl, rfl⟩ := Prod.mk.inj (Option.some.inj moved)
            exact .acquire (Option.isNone_iff_eq_none.mp free)
          · exact nomatch moved
  | locked =>
      simp only [iputProgram] at moved
      split at moved
      · rename_i test
        obtain ⟨rfl, rfl⟩ := Prod.mk.inj (Option.some.inj moved)
        exact .last test
      · rename_i test
        obtain ⟨rfl, rfl⟩ := Prod.mk.inj (Option.some.inj moved)
        exact .others test
  | freeing =>
      simp only [iputProgram] at moved
      obtain ⟨mount, released, same⟩ := Option.map_eq_some_iff.mp moved
      obtain ⟨rfl, rfl⟩ := Prod.mk.inj same
      exact .free (eq_ok_of_toOption released)
  | releasing =>
      obtain ⟨rfl, rfl⟩ := Prod.mk.inj (Option.some.inj moved)
      exact .unlock
  | dropping =>
      obtain ⟨rfl, rfl⟩ := Prod.mk.inj (Option.some.inj moved)
      exact .drop

theorem iput_guards : Guards (ι := ι) (iputProgram sb ip) Dropper.critical Shared.holder where
  enter moved outside inside := by
    cases iputProgram_moves moved <;> first | exact ⟨‹_›, rfl⟩ | simp [Dropper.critical] at outside inside
  leave moved inside outside := by
    cases iputProgram_moves moved <;> first | rfl | simp [Dropper.critical] at outside inside
  keep moved same := by
    cases iputProgram_moves moved <;> first | rfl | simp [Dropper.critical] at same

end Moves

section Counting

variable [Fintype ι] [DecidableEq ι]

theorem weight_nonneg (d : Dropper) : 0 ≤ d.weight := by
  rw [Dropper.weight]
  split <;> omega

theorem weight_eq_zero {d : Dropper} (zero : d.weight = 0) : d.held = 0 ∧ d.phase = .idle := by
  rw [Dropper.weight] at zero
  split at zero
  · rename_i idle
    exact ⟨by omega, idle⟩
  · omega

theorem others_idle {place : ι → Dropper} {i : ι} (busy : (place i).phase ≠ .idle)
    (one : tally Dropper.weight place = 1) :
    (place i).held = 0 ∧ ∀ j, j ≠ i → (place j).held = 0 ∧ (place j).phase = .idle := by
  have own : (place i).weight = (place i).held + 1 := by rw [Dropper.weight, if_neg busy]
  have rest := tally_update Dropper.weight place i ⟨.idle, 0⟩
  have total := tally_nonneg weight_nonneg (update place i ⟨.idle, 0⟩)
  have empty : Dropper.weight ⟨.idle, 0⟩ = 0 := rfl
  refine ⟨by omega, ?_⟩
  intro j differs
  have share := le_tally weight_nonneg (update place i ⟨.idle, 0⟩) j
  have nonneg := weight_nonneg (place j)
  rw [update_of_ne differs] at share
  exact weight_eq_zero (by omega)

end Counting

section Invariant

/-- The inode has not been freed: some reference is still to be looked at, and a process that
is freeing it is alone. -/
structure Unfreed (ip : Fin ninode) (mount : Mount) (s : Droppers ι) : Prop where
  same : ∃ ref, s.shared.mount = mount.setSlot ip { mount.icache ip with ref }
  pending : ∃ j, 0 < (s.place j).held ∨ (s.place j).phase = .locked ∨ (s.place j).phase = .freeing
  alone : ∀ i, (s.place i).phase = .freeing →
    (s.place i).held = 0 ∧ ∀ j, j ≠ i → (s.place j).held = 0 ∧ (s.place j).phase = .idle

structure Freed (sb : Layout) (ip : Fin ninode) (mount : Mount) (s : Droppers ι) : Prop where
  free : (sb.inode s.shared.mount.disk (mount.icache ip).inum).type = 0
  bits : ∀ spot, refOf mount.disk (mount.icache ip).copy spot ≠ 0 →
    sb.used s.shared.mount.disk (refOf mount.disk (mount.icache ip).copy spot) = false
  ended : ∀ j, (s.place j).held = 0 ∧ (s.place j).phase ≠ .locked ∧ (s.place j).phase ≠ .freeing

variable [Fintype ι] [DecidableEq ι]

structure Dropping (sb : Layout) (ip : Fin ninode) (mount : Mount) (s : Droppers ι) : Prop where
  count : ((s.shared.mount.icache ip).ref : Int) = tally Dropper.weight s.place
  exclusive : Exclusive Dropper.critical Shared.holder s
  state : Unfreed ip mount s ∨ Freed sb ip mount s

variable {mount : Mount} {c next : Shared ι} {place : ι → Dropper} {i : ι} {d : Dropper}

omit [Fintype ι] [DecidableEq ι] in
theorem release_ref {s after : Mount} (released : s.release sb ip = .ok after) :
    (after.icache ip).ref = (s.icache ip).ref := by
  rw [Mount.release] at released
  cases freed : itrunc sb (s.icache ip).inum (s.work ip) with
  | error panic =>
      rw [freed] at released
      exact nomatch released
  | ok w =>
      rw [freed, ok_bind] at released
      obtain rfl := Except.ok.inj released
      dsimp only
      rw [Mount.setSlot_self]

theorem Dropping.count_move (count : ((c.mount.icache ip).ref : Int) = tally Dropper.weight place)
    (moves : DropMoves sb ip i c (place i) next d) :
    ((next.mount.icache ip).ref : Int) = tally Dropper.weight (update place i d) := by
  have share := le_tally weight_nonneg place i
  rw [tally_update]
  generalize place i = start at moves share
  cases moves with
  | acquire free => simp [Dropper.weight, count]
  | last test => simp [Dropper.weight, count]
  | others test => simp [Dropper.weight, count]
  | free released => simp [Dropper.weight, release_ref released, count]
  | unlock => simp [Dropper.weight, count]
  | drop =>
      simp [Dropper.weight] at share ⊢
      omega

omit [Fintype ι] in
theorem Freed.move (freed : Freed sb ip mount ⟨c, place⟩) (moves : DropMoves sb ip i c (place i) next d) :
    Freed sb ip mount ⟨next, update place i d⟩ := by
  have mine := freed.ended i
  have rest (held : d.held = 0) (settled : d.phase ≠ .locked ∧ d.phase ≠ .freeing) :
      ∀ j, (update place i d j).held = 0 ∧ (update place i d j).phase ≠ .locked ∧
        (update place i d j).phase ≠ .freeing :=
    (forall_update_iff place fun _ (one : Dropper) =>
      one.held = 0 ∧ one.phase ≠ .locked ∧ one.phase ≠ .freeing).mpr
      ⟨⟨held, settled⟩, fun j _ => freed.ended j⟩
  dsimp only at mine
  generalize place i = start at moves mine
  cases moves with
  | acquire free => exact absurd mine.1 (Nat.succ_ne_zero _)
  | last test => exact absurd rfl mine.2.1
  | others test => exact absurd rfl mine.2.1
  | free released => exact absurd rfl mine.2.2
  | unlock => exact ⟨freed.free, freed.bits, rest mine.1 (by simp)⟩
  | drop => exact ⟨freed.free, freed.bits, rest mine.1 (by simp)⟩

omit [Fintype ι] in
theorem Unfreed.pass (unfreed : Unfreed ip mount ⟨c, place⟩) (started : (place i).phase ≠ .idle)
    (held : d.held = (place i).held) (calm : d.phase ≠ .freeing)
    (same : ∃ ref, next.mount = mount.setSlot ip { mount.icache ip with ref })
    (pending : ∃ j, 0 < (place j).held ∨
      j ≠ i ∧ ((place j).phase = .locked ∨ (place j).phase = .freeing)) :
    Unfreed ip mount ⟨next, update place i d⟩ := by
  refine ⟨same, ?_, ?_⟩
  · obtain ⟨j, waits⟩ := pending
    refine ⟨j, ?_⟩
    dsimp only
    by_cases self : j = i
    · subst self
      rw [update_self, held]
      exact Or.inl (waits.resolve_right fun other => other.1 rfl)
    · rw [update_of_ne self]
      exact waits.imp_right And.right
  · intro k freeing
    dsimp only at freeing
    by_cases self : k = i
    · rw [self, update_self] at freeing
      exact absurd freeing calm
    · rw [update_of_ne self] at freeing
      exact absurd ((unfreed.alone k freeing).2 i (Ne.symm self)).2 started

omit [Fintype ι] [DecidableEq ι] in
theorem Unfreed.pending_elsewhere (unfreed : Unfreed ip mount ⟨c, place⟩)
    (unlocked : (place i).phase ≠ .locked) (calm : (place i).phase ≠ .freeing) :
    ∃ j, 0 < (place j).held ∨ j ≠ i ∧ ((place j).phase = .locked ∨ (place j).phase = .freeing) := by
  obtain ⟨j, more | now⟩ := unfreed.pending
  · exact ⟨j, Or.inl more⟩
  · refine ⟨j, Or.inr ⟨?_, now⟩⟩
    rintro rfl
    exact now.elim unlocked calm

omit [DecidableEq ι] in
theorem Unfreed.unread (valid : (mount.icache ip).valid = true)
    (unlinked : (mount.icache ip).copy.nlink = 0)
    (count : ((c.mount.icache ip).ref : Int) = tally Dropper.weight place)
    (exclusive : Exclusive Dropper.critical Shared.holder ⟨c, place⟩)
    (unfreed : Unfreed ip mount ⟨c, place⟩) (unraced : Unraced ⟨c, place⟩ i)
    (locked : (place i).phase = .locked) (test : ¬LastTest ip c.mount) : ∃ j, 0 < (place j).held := by
  rcases unraced locked with more | undropped
  · exact more
  by_contra none
  have spent (j : ι) : (place j).held = 0 := by
    by_contra some
    exact none ⟨j, Nat.pos_of_ne_zero some⟩
  have mine : c.holder = some i := (exclusive i).mp (by simp [Dropper.critical, locked])
  have idle (j : ι) (differs : j ≠ i) : (place j).phase = .idle := by
    have outside : ¬(place j).critical = true := by
      intro inside
      have theirs : c.holder = some j := (exclusive j).mp inside
      rw [mine] at theirs
      exact differs (Option.some.inj theirs).symm
    have undropping := undropped j differs
    dsimp only at undropping
    cases phase : (place j).phase <;> simp_all [Dropper.critical]
  have one : tally Dropper.weight place = 1 := by
    rw [tally_eq_single i fun j differs => by simp [Dropper.weight, spent j, idle j differs]]
    simp [Dropper.weight, spent i, locked]
  obtain ⟨ref, same⟩ := unfreed.same
  dsimp only at same
  apply test
  rw [LastTest]
  refine ⟨?_, ?_, by omega⟩
  · rw [same, Mount.setSlot_self]
    exact valid
  · rw [same, Mount.setSlot_self]
    exact unlinked

theorem Unfreed.move {base : Nat → Dinode} (busy : Busy sb (mount.icache ip).inum base (mount.work ip))
    (valid : (mount.icache ip).valid = true) (unlinked : (mount.icache ip).copy.nlink = 0)
    (count : ((c.mount.icache ip).ref : Int) = tally Dropper.weight place)
    (exclusive : Exclusive Dropper.critical Shared.holder ⟨c, place⟩)
    (unfreed : Unfreed ip mount ⟨c, place⟩) (unraced : Unraced ⟨c, place⟩ i)
    (moves : DropMoves sb ip i c (place i) next d) :
    Unfreed ip mount ⟨next, update place i d⟩ ∨
      Freed sb ip mount ⟨next, update place i d⟩ := by
  generalize before : place i = start at moves
  cases moves with
  | acquire free =>
      refine Or.inl ⟨unfreed.same, ⟨i, ?_⟩, ?_⟩
      · dsimp only
        rw [update_self]
        exact Or.inr (Or.inl rfl)
      · intro k freeing
        dsimp only at freeing
        by_cases self : k = i
        · rw [self, update_self] at freeing
          exact nomatch freeing
        · rw [update_of_ne self] at freeing
          have none := ((unfreed.alone k freeing).2 i (Ne.symm self)).1
          dsimp only at none
          rw [before] at none
          exact nomatch none
  | last test =>
      have one : tally Dropper.weight place = 1 := by
        rw [← count, test.2.2]
        rfl
      obtain ⟨spent, rest⟩ := others_idle (i := i) (by rw [before]; simp) one
      rw [before] at spent
      refine Or.inl ⟨unfreed.same, ⟨i, ?_⟩, ?_⟩
      · dsimp only
        rw [update_self]
        exact Or.inr (Or.inr rfl)
      · intro k freeing
        dsimp only at freeing ⊢
        by_cases self : k = i
        · subst self
          rw [update_self]
          refine ⟨spent, fun j differs => ?_⟩
          rw [update_of_ne differs]
          exact rest j differs
        · rw [update_of_ne self] at freeing
          exact nomatch freeing.symm.trans (rest k self).2
  | others test =>
      have locked : (place i).phase = .locked := by rw [before]
      obtain ⟨j, more⟩ := unfreed.unread valid unlinked count exclusive unraced locked test
      refine Or.inl (unfreed.pass ?_ ?_ ?_ unfreed.same ⟨j, Or.inl more⟩)
      · simp [before]
      · rw [before]
      · simp
  | free released =>
      obtain ⟨ref, same⟩ := unfreed.same
      dsimp only at same
      have slot : c.mount.icache ip = { mount.icache ip with ref } := by rw [same, Mount.setSlot_self]
      have disk : c.mount.disk = mount.disk := by rw [same, Mount.setSlot_disk]
      have held : Busy sb (c.mount.icache ip).inum base (c.mount.work ip) := by
        rw [Mount.work, slot, disk]
        exact busy
      obtain ⟨record, released⟩ := held.release.of_ok released
      obtain ⟨spent, rest⟩ := unfreed.alone i (by simp only [before])
      dsimp only at spent rest
      rw [before] at spent
      have bits := released.bits
      have saved := released.settled.saved (mount.icache ip).inum busy.bound
      rw [slot] at bits saved
      rw [disk] at bits
      rw [update_self] at saved
      refine Or.inr ⟨?_, bits, ?_⟩
      · dsimp only
        rw [saved]
        exact released.free
      · refine (forall_update_iff place fun _ (one : Dropper) =>
          one.held = 0 ∧ one.phase ≠ .locked ∧ one.phase ≠ .freeing).mpr ⟨⟨spent, by simp⟩, ?_⟩
        intro j differs
        simp [rest j differs]
  | unlock =>
      refine Or.inl (unfreed.pass ?_ ?_ ?_ unfreed.same (unfreed.pending_elsewhere ?_ ?_)) <;> simp [before]
  | drop =>
      refine Or.inl (unfreed.pass ?_ ?_ ?_ ?_ (unfreed.pending_elsewhere ?_ ?_))
      · simp [before]
      · simp [before]
      · simp
      · obtain ⟨ref, same⟩ := unfreed.same
        dsimp only at same
        refine ⟨ref - 1, ?_⟩
        rw [same]
        simp only [Mount.setSlot, update_self, update_idem]
      · simp [before]
      · simp [before]

omit [DecidableEq ι] in
theorem Dropping.start {held : ι → Nat} (referenced : 0 < (mount.icache ip).ref)
    (count : (mount.icache ip).ref = ∑ i, held i) : Dropping sb ip mount (dropStart mount held) := by
  refine ⟨?_, ?_, Or.inl ⟨⟨(mount.icache ip).ref, ?_⟩, ?_, ?_⟩⟩
  · have weights (i : ι) : Dropper.weight ⟨.idle, held i⟩ = held i := by simp [Dropper.weight]
    simp only [dropStart, tally, weights]
    rw [count, Nat.cast_sum]
  · intro i
    simp [dropStart, Dropper.critical]
  · simp only [dropStart, Mount.setSlot, update_eq_self]
  · by_contra none
    have spent (j : ι) : held j = 0 := by
      by_contra some
      exact none ⟨j, Or.inl (Nat.pos_of_ne_zero some)⟩
    rw [count, Finset.sum_eq_zero fun j _ => spent j] at referenced
    exact absurd referenced (lt_irrefl 0)
  · intro i freeing
    cases freeing

theorem Dropping.run {base : Nat → Dinode} {held : ι → Nat} {schedule : List ι} {s : Droppers ι}
    (busy : Busy sb (mount.icache ip).inum base (mount.work ip))
    (valid : (mount.icache ip).valid = true) (unlinked : (mount.icache ip).copy.nlink = 0)
    (referenced : 0 < (mount.icache ip).ref) (count : (mount.icache ip).ref = ∑ i, held i)
    (unraced : Along (dropStep sb ip) (fun _ => Unraced) (dropStart mount held) schedule)
    (reached : Runs.run (dropStep sb ip) (dropStart mount held) schedule = some s) :
    Dropping sb ip mount s := by
  refine run_invariant_along (fun _ => Dropping sb ip mount) (.start referenced count) ?_ schedule s
    unraced reached
  intro _ state i next holds permitted stepped
  have exclusive := act_exclusive iput_guards holds.exclusive stepped
  obtain ⟨shared, place, moved, rfl⟩ := act_eq_some.mp stepped
  have moves := iputProgram_moves moved
  refine ⟨Dropping.count_move holds.count moves, exclusive, ?_⟩
  rcases holds.state with unfreed | freed
  · exact unfreed.move busy valid unlinked holds.count holds.exclusive permitted moves
  · exact Or.inr (freed.move moves)

end Invariant

/-- The last `iput` of an inode without links frees it, when the last process to look at
`ip->ref` finds no decrement pending. The blocks are owned with the copy in memory, which may
have addresses that the record on disk has not. -/
theorem last_iput_frees [Fintype ι] [DecidableEq ι] (sb : Layout) (ip : Fin ninode) (mount : Mount)
    (base : Nat → Dinode) (busy : Busy sb (mount.icache ip).inum base (mount.work ip))
    (valid : (mount.icache ip).valid = true) (unlinked : (mount.icache ip).copy.nlink = 0)
    (held : ι → Nat) (referenced : 0 < (mount.icache ip).ref)
    (count : (mount.icache ip).ref = ∑ i, held i) (schedule : List ι) (s : Droppers ι)
    (unraced : Along (dropStep sb ip) (fun _ => Unraced) (dropStart mount held) schedule)
    (reached : run (dropStep sb ip) (dropStart mount held) schedule = some s)
    (dropped : (s.shared.mount.icache ip).ref = 0) :
    (sb.inode s.shared.mount.disk (mount.icache ip).inum).type = 0 ∧
      ∀ spot, refOf mount.disk (mount.icache ip).copy spot ≠ 0 →
        sb.used s.shared.mount.disk (refOf mount.disk (mount.icache ip).copy spot) = false := by
  have final := Dropping.run busy valid unlinked referenced count unraced reached
  rcases final.state with unfreed | freed
  · obtain ⟨j, waits⟩ := unfreed.pending
    have share := le_tally weight_nonneg s.place j
    rw [← final.count, dropped] at share
    obtain ⟨spent, idle⟩ := weight_eq_zero (le_antisymm share (weight_nonneg _))
    rcases waits with more | now | now
    · omega
    · exact nomatch idle.symm.trans now
    · exact nomatch idle.symm.trans now
  · exact ⟨freed.free, freed.bits⟩

def unlinking : List Call :=
  [.ialloc tFile, .ilock 0, .update 0 0 0 1, .writei 0 (fun _ => 7) 0 600, .idup 0, .update 0 0 0 0]

def twice : Mount := (run (step Layout.mkfs) (Mount.iinit blank) unlinking).get (by decide +kernel)

theorem twice_busy : Busy Layout.mkfs (twice.icache 0).inum (Layout.mkfs.inode twice.disk) (twice.work 0) := by
  have sound : Sound Layout.mkfs twice := sound_run blank_owned blank_noHoles
    (alongCheck_sound _ _ _ _ (by decide +kernel)) (Option.some_get _).symm
  exact (sound.busy (by decide +kernel) (by decide +kernel)).1

theorem last_iput_frees_in_turn : ∃ s,
    run (dropStep Layout.mkfs 0) (dropStart twice fun _ : Fin 2 => 1) [0, 0, 0, 0, 1, 1, 1, 1, 1] = some s ∧
      (s.shared.mount.icache 0).ref = 0 ∧
      (Layout.mkfs.inode s.shared.mount.disk (twice.icache 0).inum).type = 0 := by
  let s := (run (dropStep Layout.mkfs 0) (dropStart twice fun _ : Fin 2 => 1)
    [0, 0, 0, 0, 1, 1, 1, 1, 1]).get (by decide +kernel)
  have dropped : (s.shared.mount.icache 0).ref = 0 := by decide +kernel
  refine ⟨s, (Option.some_get _).symm, dropped, (last_iput_frees Layout.mkfs 0 twice _ twice_busy
    (by decide +kernel) (by decide +kernel) (fun _ => 1) (by decide +kernel) (by decide +kernel) _ s
    (alongCheck_sound _ _ _ _ (by decide +kernel)) (Option.some_get _).symm dropped).1⟩

/-- Each of two processes reads `ip->ref` before the other's decrement and sees 2. -/
theorem both_see_two : ∃ s,
    Busy Layout.mkfs (twice.icache 0).inum (Layout.mkfs.inode twice.disk) (twice.work 0) ∧
      (twice.icache 0).valid = true ∧ (twice.icache 0).copy.nlink = 0 ∧ (twice.icache 0).ref = 2 ∧
      run (dropStep Layout.mkfs 0) (dropStart twice fun _ : Fin 2 => 1) [0, 0, 0, 1, 1, 1, 0, 1] = some s ∧
      (s.shared.mount.icache 0).ref = 0 ∧
      (Layout.mkfs.inode s.shared.mount.disk (twice.icache 0).inum).type ≠ 0 ∧
      refOf twice.disk (twice.icache 0).copy (.addr 0) = 59 ∧
      Layout.mkfs.used s.shared.mount.disk 59 = true := by
  let s := (run (dropStep Layout.mkfs 0) (dropStart twice fun _ : Fin 2 => 1)
    [0, 0, 0, 1, 1, 1, 0, 1]).get (by decide +kernel)
  exact ⟨s, twice_busy, by decide +kernel, by decide +kernel, by decide +kernel,
    (Option.some_get _).symm, by decide +kernel, by decide +kernel, by decide +kernel, by decide +kernel⟩

end OsLabs.Fs
