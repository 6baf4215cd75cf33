import Mathlib.Logic.Relation
import OsLabs.Cache.CacheContents

/-!
The cache as the log sees it. Forgetting the buffers, every step on the cache is a step on
the blocks of one device: a block is locked, modified, written or unlocked, and what a
holder finds in it is `view`.
-/

namespace OsLabs.Cache

open Function OsLabs.Interleaving OsLabs.Runs
open OsLabs.Log (Block Shared)

variable {ι : Type*} {havedisk1 : Bool} {dev : Nat} {p : ι}

/-- The log's picture of the device: contents, disk and the processes that hold a block. -/
structure Sees (dev : Nat) (s : State ι) (shared : Shared ι) : Prop where
  view : shared.store.view = s.shared.contents dev
  disk : shared.store.disk = s.shared.disk (dev % 2)
  holder : ∀ blockno q, shared.holder blockno = some q ↔
    ∃ b ∈ (s.place q).held, (s.shared.bufs b).Caches dev blockno

/-- What a step of process `p` does to that picture. -/
inductive BlockMove (p : ι) (shared : Shared ι) : Shared ι → Prop
  | stay : BlockMove p shared shared
  | acquire {blockno next} (acquired : shared.acquire p blockno = some next) :
      BlockMove p shared next
  | modify {blockno data} (owned : shared.holder blockno = some p) :
      BlockMove p shared { shared with store := shared.store.modify blockno data }
  | bwrite {blockno} (owned : shared.holder blockno = some p) :
      BlockMove p shared { shared with store := shared.store.bwrite blockno }
  | release {blockno} (owned : shared.holder blockno = some p) :
      BlockMove p shared (shared.release blockno)

theorem setBuf_caches {c : Bcache ι} {b : Fin nbuf} {buf : Buf}
    (same : buf.address = (c.bufs b).address) (other : Fin nbuf) (blockno : Nat) :
    ((c.setBuf b buf).bufs other).Caches dev blockno ↔ (c.bufs other).Caches dev blockno := by
  have kept := setBuf_field Buf.address same other
  have device : ((c.setBuf b buf).bufs other).dev = (c.bufs other).dev := congrArg Prod.fst kept
  have block : ((c.setBuf b buf).bufs other).blockno = (c.bufs other).blockno :=
    congrArg Prod.snd kept
  rw [Buf.Caches, Buf.Caches, device, block]

theorem Sound.same_holder [Fintype ι] {s : State ι} (sound : Sound s) (device : dev ≠ 0) {a b : Fin nbuf} {blockno : Nat}
    (here : (s.shared.bufs a).Caches dev blockno) (there : (s.shared.bufs b).Caches dev blockno) :
    a = b := by
  refine sound.unique a b (here.1.symm ▸ device) ?_
  exact Prod.ext (here.1.trans there.1.symm) (here.2.trans there.2.symm)

variable [DecidableEq ι] {s : State ι} {shared after : Shared ι} {proc proc' : Proc}
  {action : Action} {next : Bcache ι}

theorem Sees.keep (sees : Sees dev s shared) (view : after.store.view = next.contents dev)
    (disk : after.store.disk = next.disk (dev % 2)) (holder : after.holder = shared.holder)
    (held : proc'.held = (s.place p).held)
    (caches : ∀ q b blockno, b ∈ (s.place q).held →
      ((next.bufs b).Caches dev blockno ↔ (s.shared.bufs b).Caches dev blockno)) :
    Sees dev ⟨next, update s.place p proc'⟩ after := by
  refine ⟨view, disk, ?_⟩
  intro blockno q
  have same : (update s.place p proc' q).held = (s.place q).held := by
    rw [update_apply]
    split
    next self => rw [self, held]
    next => rfl
  rw [holder, sees.holder, same]
  refine exists_congr fun b => and_congr_right fun holds => ?_
  exact (caches q b blockno holds).symm

variable [Fintype ι]

theorem Sees.take (device : dev ≠ 0) (sound : Sound s) (sees : Sees dev s shared) {b : Fin nbuf}
    {held : Finset (Fin nbuf)} (here : s.place p = ⟨.reading b, held⟩)
    (contents : next.contents dev = s.shared.contents dev)
    (disk : next.disk (dev % 2) = s.shared.disk (dev % 2))
    (caches : ∀ other blockno,
      (next.bufs other).Caches dev blockno ↔ (s.shared.bufs other).Caches dev blockno) :
    ∃ after, BlockMove p shared after ∧
      Sees dev ⟨next, update s.place p ⟨.idle, insert b held⟩⟩ after := by
  have held_iff : ∀ q other, other ∈ (update s.place p ⟨.idle, insert b held⟩ q).held ↔
      q = p ∧ other = b ∨ other ∈ (s.place q).held := by
    intro q other
    rw [update_apply]
    split
    next self => simp [self, here]
    next different => simp [different]
  by_cases mine : (s.shared.bufs b).dev = dev
  · have cached : (s.shared.bufs b).Caches dev (s.shared.bufs b).blockno := ⟨mine, rfl⟩
    have unheld : shared.holder (s.shared.bufs b).blockno = none := by
      by_contra locked
      obtain ⟨q, owned⟩ := Option.ne_none_iff_exists'.mp locked
      obtain ⟨other, holds, also⟩ := (sees.holder _ q).mp owned
      rw [sound.same_holder device also cached] at holds
      have owner := (sound.owners b q).mpr (Or.inl holds)
      rw [(sound.owners b p).mpr (Or.inr (by rw [here])), Option.some.injEq] at owner
      subst owner
      exact sound.apart b p (by rw [here]) holds
    have acquired : shared.acquire p (s.shared.bufs b).blockno = some
        { shared with
          holder := update shared.holder (s.shared.bufs b).blockno (some p) } := by
      simp [Shared.acquire, unheld]
    refine ⟨_, .acquire acquired, ?_⟩
    refine ⟨sees.view.trans contents.symm, sees.disk.trans disk.symm, ?_⟩
    intro blockno q
    dsimp only
    simp only [held_iff, caches]
    rw [update_apply]
    have before := sees.holder blockno q
    split
    next same =>
      subst same
      rw [unheld] at before
      constructor
      · intro owner
        exact ⟨b, Or.inl ⟨(Option.some.inj owner).symm, rfl⟩, cached⟩
      · rintro ⟨other, ⟨rfl, _⟩ | old, also⟩
        · rfl
        · exact absurd (before.mpr ⟨other, old, also⟩) (by simp)
    next different =>
      rw [before]
      constructor
      · rintro ⟨other, old, also⟩
        exact ⟨other, Or.inr old, also⟩
      · rintro ⟨other, ⟨_, rfl⟩ | old, also⟩
        · exact absurd also.2.symm different
        · exact ⟨other, old, also⟩
  · refine ⟨shared, .stay, sees.view.trans contents.symm, sees.disk.trans disk.symm, ?_⟩
    intro blockno q
    dsimp only
    simp only [held_iff, caches]
    rw [sees.holder]
    constructor
    · rintro ⟨other, old, also⟩
      exact ⟨other, Or.inr old, also⟩
    · rintro ⟨other, ⟨_, rfl⟩ | old, also⟩
      · exact absurd also.1 mine
      · exact ⟨other, old, also⟩

theorem Sees.give (device : dev ≠ 0) (sound : Sound s) (sees : Sees dev s shared) {b : Fin nbuf}
    {held : Finset (Fin nbuf)} (here : s.place p = ⟨.idle, held⟩)
    (owned : s.shared.holder b = some p) :
    ∃ after, BlockMove p shared after ∧
      Sees dev ⟨{ s.shared with holder := update s.shared.holder b none },
        update s.place p ⟨.dropping b, held.erase b⟩⟩ after := by
  have holds := ((sound.owners b p).mp owned).resolve_right (by simp [here])
  have held_iff : ∀ q other, other ∈ (update s.place p ⟨.dropping b, held.erase b⟩ q).held ↔
      other ≠ b ∧ other ∈ (s.place q).held := by
    intro q other
    rw [update_apply]
    split
    next self => simp [self, here]
    next different =>
      refine (and_iff_right_of_imp fun old => ?_).symm
      rintro rfl
      have owner := (sound.owners other q).mpr (Or.inl old)
      rw [owned, Option.some.injEq] at owner
      exact different owner.symm
  by_cases mine : (s.shared.bufs b).dev = dev
  · have cached : (s.shared.bufs b).Caches dev (s.shared.bufs b).blockno := ⟨mine, rfl⟩
    refine ⟨_, .release ((sees.holder _ p).mpr ⟨b, holds, cached⟩), sees.view, sees.disk, ?_⟩
    intro blockno q
    simp only [held_iff, Shared.release]
    rw [update_apply]
    split
    next same =>
      subst same
      refine iff_of_false (by simp) ?_
      rintro ⟨other, ⟨different, _⟩, also⟩
      exact different (sound.same_holder device also cached)
    next different =>
      rw [sees.holder]
      refine exists_congr fun other => ⟨fun ⟨old, also⟩ => ⟨⟨?_, old⟩, also⟩, fun ⟨old, also⟩ => ⟨old.2, also⟩⟩
      rintro rfl
      exact different also.2.symm
  · refine ⟨shared, .stay, sees.view, sees.disk, ?_⟩
    intro blockno q
    simp only [held_iff]
    rw [sees.holder]
    refine exists_congr fun other => ⟨fun ⟨old, also⟩ => ⟨⟨?_, old⟩, also⟩, fun ⟨old, also⟩ => ⟨old.2, also⟩⟩
    rintro rfl
    exact mine also.1

theorem cache_simulates (device : dev ≠ 0) (sound : Sound s) (transparent : Transparent dev s.shared)
    (sees : Sees dev s shared) (here : s.place p = proc)
    (moves : Moves havedisk1 p s.shared proc action next proc') :
    ∃ after, BlockMove p shared after ∧ Sees dev ⟨next, update s.place p proc'⟩ after := by
  have held : ∀ {phase : Phase} {held : Finset (Fin nbuf)}, s.place p = ⟨phase, held⟩ →
      held = (s.place p).held := fun same => by rw [same]
  cases moves with
  | hit cached =>
      refine ⟨shared, .stay, sees.keep sees.view sees.disk rfl (held here) ?_⟩
      intro q other blockno _
      exact setBuf_caches (by rfl) other blockno
  | @recycle device blockno b held absent free clean =>
      refine ⟨shared, .stay, sees.keep sees.view sees.disk rfl (by rw [here]) ?_⟩
      intro q other blockno holds
      have referred := sound.referred (share_pos (Or.inl holds))
      have different : other ≠ b := by
        rintro rfl
        omega
      rw [recycle_bufs, if_neg different]
  | @modify b _ data holds =>
      have caches : ∀ q other blockno, other ∈ (s.place q).held →
          (((s.shared.modify b data).bufs other).Caches dev blockno ↔
            (s.shared.bufs other).Caches dev blockno) :=
        fun q other blockno _ => setBuf_caches (by rfl) other blockno
      by_cases mine : (s.shared.bufs b).dev = dev
      · have owned : shared.holder (s.shared.bufs b).blockno = some p :=
          (sees.holder _ p).mpr ⟨b, by rwa [here], mine, rfl⟩
        have view : update shared.store.view (s.shared.bufs b).blockno data =
            (s.shared.modify b data).contents dev := by
          funext blockno
          rw [modify_contents, update_apply, sees.view]
          simp [Buf.Caches, mine, eq_comm]
        exact ⟨_, .modify owned, sees.keep view sees.disk rfl (held here) caches⟩
      · have view : shared.store.view = (s.shared.modify b data).contents dev := by
          funext blockno
          rw [modify_contents, sees.view, if_neg fun cached => mine cached.1]
        exact ⟨shared, .stay, sees.keep view sees.disk rfl (held here) caches⟩
  | logWrite =>
      refine ⟨shared, .stay, sees.keep sees.view sees.disk rfl (held here) ?_⟩
      intro q other blockno _
      exact setBuf_caches (by rfl) other blockno
  | @bwrite b _ owned =>
      have holds := ((sound.owners b p).mp owned).resolve_right (by simp [here])
      have caches : ∀ q other blockno, other ∈ (s.place q).held →
          (((s.shared.setBuf b { s.shared.bufs b with valid := true, dirty := false }).bufs
            other).Caches dev blockno ↔ (s.shared.bufs other).Caches dev blockno) :=
        fun q other blockno _ => setBuf_caches (by rfl) other blockno
      by_cases mine : (s.shared.bufs b).dev = dev
      · have locked : shared.holder (s.shared.bufs b).blockno = some p :=
          (sees.holder _ p).mpr ⟨b, holds, mine, rfl⟩
        have data := transparent.seen b _ ⟨mine, rfl⟩ (sound.loaded b p holds)
        have disk : (shared.store.bwrite (s.shared.bufs b).blockno).disk =
            update s.shared.disk ((s.shared.bufs b).dev % 2)
              (update (s.shared.disk ((s.shared.bufs b).dev % 2)) (s.shared.bufs b).blockno
                (s.shared.bufs b).data) (dev % 2) := by
          rw [mine, update_self, data, Log.Store.bwrite, sees.disk, sees.view]
        exact ⟨_, .bwrite locked, sees.keep sees.view disk rfl (held here) caches⟩
      · have drive : (s.shared.bufs b).dev % 2 ≠ dev % 2 := fun same =>
          mine (transparent.drive b (sound.referred_of_owned owned) same)
        refine ⟨shared, .stay, sees.keep sees.view ?_ rfl (held here) caches⟩
        dsimp only
        rw [update_of_ne (Ne.symm drive)]
        exact sees.disk
  | brelse owned => exact sees.give device sound here owned
  | lock =>
      exact ⟨shared, .stay,
        sees.keep sees.view sees.disk rfl (held here) fun _ _ _ _ => Iff.rfl⟩
  | found => exact sees.take device sound here rfl rfl fun _ _ => Iff.rfl
  | @fill b _ next invalid done =>
      rcases iderw_cases done with ⟨dirty, _⟩ | ⟨_, rfl⟩
      · simp [sound.clean b invalid] at dirty
      · exact sees.take device sound here rfl rfl fun other blockno =>
          setBuf_caches (by rfl) other blockno
  | @drop b _ =>
      obtain ⟨_, disk, contents, _⟩ := drop_rest s.shared b
      refine ⟨shared, .stay, sees.keep ?_ ?_ rfl (held here) ?_⟩
      · rw [contents, sees.view]
      · rw [disk, sees.disk]
      · intro q other blockno _
        rw [drop_buf]
        exact setBuf_caches (by rfl) other blockno

/-- Every run of the cache is, for the log, a run of moves on blocks from the state in which
the machine boots, and a holder of a block finds in its buffer what the log calls `view`. -/
theorem cache_refines_blocks {disk : Nat → Nat → Block} {events : List (ι × Action)}
    {final : State ι} (device : dev ≠ 0) (own : ∀ event ∈ events, OwnDrive dev event)
    (passes : Along (step havedisk1) (fun _ => Passes dev) (start disk) events)
    (reached : run (step havedisk1) (start disk) events = some final) (p : ι) :
    ∃ shared, Relation.ReflTransGen (fun before after => ∃ q, BlockMove q before after)
        (Log.boot (disk (dev % 2)) [] p).shared shared ∧ Sees dev final shared ∧
      ∀ q b, b ∈ (final.place q).held → (final.shared.bufs b).dev = dev →
        (final.shared.bufs b).data = shared.store.view (final.shared.bufs b).blockno := by
  have alone : Along (step havedisk1) (fun _ _ => OwnDrive dev) (start disk) events :=
    fun before event after state split _ => own event (by simp [split])
  have simulated : Transparent dev final.shared ∧ ∃ shared,
      Relation.ReflTransGen (fun before after => ∃ q, BlockMove q before after)
        (Log.boot (disk (dev % 2)) [] p).shared shared ∧ Sees dev final shared := by
    refine run_invariant_reached (fun _ s => Transparent dev s.shared ∧ ∃ shared,
      Relation.ReflTransGen (fun before after => ∃ q, BlockMove q before after)
        (Log.boot (disk (dev % 2)) [] p).shared shared ∧ Sees dev s shared)
      ⟨transparent_binit disk, _, .refl, ?_⟩ ?_ events final (alone.and passes) reached
    · exact ⟨rfl, rfl, by simp [Log.boot, start]⟩
    · rintro history s event next before ⟨transparent, shared, moved, sees⟩ permitted stepped
      have sound := sound_run before
      obtain ⟨cache, place, acted, rfl⟩ := act_eq_some.mp stepped
      have moves := program_moves sound.whole acted
      obtain ⟨after, move, seen⟩ := cache_simulates device sound transparent sees rfl moves
      exact ⟨transparent_moves device sound transparent rfl moves permitted.1 permitted.2,
        after, moved.tail ⟨event.1, move⟩, seen⟩
  obtain ⟨transparent, shared, moved, sees⟩ := simulated
  refine ⟨shared, moved, sees, ?_⟩
  intro q b holds here
  rw [sees.view]
  exact transparent.seen b _ ⟨here, rfl⟩ ((sound_run reached).loaded b q holds)

theorem cache_refines_blocks_passed : ∃ (s : State (Fin 2)) (shared : Shared (Fin 2)),
    run (step true) (start blankDisks) passedOn = some s ∧ Sees 1 s shared ∧ shared.holder 5 = some 1 ∧
      (s.shared.bufs 0).data = shared.store.view 5 := by
  let s := (run (step true) (start blankDisks) passedOn).get (by decide +kernel)
  have reached : run (step true) (start blankDisks) passedOn = some s := (Option.some_get _).symm
  have holds : 0 ∈ (s.place 1).held := by decide +kernel
  have dev : (s.shared.bufs 0).dev = 1 := by decide +kernel
  have block : (s.shared.bufs 0).blockno = 5 := by decide +kernel
  have own : ∀ event ∈ passedOn, OwnDrive 1 event := by decide
  have passes : Along (step true) (fun _ => Passes 1) (start blankDisks) passedOn :=
    alongCheck_sound _ _ _ _ (by decide +kernel)
  obtain ⟨shared, -, sees, finds⟩ := cache_refines_blocks Nat.one_ne_zero own passes reached 0
  refine ⟨s, shared, reached, sees, (sees.holder 5 1).mpr ⟨0, holds, dev, block⟩, ?_⟩
  rw [finds 1 0 holds dev, block]

end OsLabs.Cache
