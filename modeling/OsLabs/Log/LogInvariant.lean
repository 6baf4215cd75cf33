import OsLabs.Log.LogLocks
import OsLabs.Log.LogScripts

/-!
The locks and brackets keep everything still while `commit` or `recover_from_log` runs, so
that the whole machine is always in a recoverable state.
-/

namespace OsLabs.Log

open Function OsLabs.Interleaving OsLabs.Scripts

variable {ι : Type*} {area : Area} {base : Nat → Block} {floor : List (List Update)}

theorem Running.counted {store : Store} (running : Running area base store) (outstanding : Nat)
    (committing : Bool) : Running area base { store with outstanding, committing } :=
  ⟨running.booted, running.nodup, running.short, running.homes, running.names, running.settled,
    running.seen⟩

theorem Running.modify {store : Store} (running : Running area base store) (block : Nat)
    (data : Block) :
    Running area base
      { store with
        view := update store.view block data
        unsaved := insert block store.unsaved } := by
  refine ⟨running.booted, running.nodup, running.short, running.homes, running.names,
    running.settled, ?_⟩
  intro other home saved
  rw [Finset.mem_insert, not_or] at saved
  exact (update_of_ne saved.1 _ _).trans (running.seen other home saved.2)

theorem Running.append {store next : Store} {block : Nat} (running : Running area base store)
    (appended : store.logAppend block = some next) (home : area.Home block) : Running area base next := by
  obtain ⟨lh, rfl, grown⟩ := logAppend_eq_some appended
  have seen : ∀ other, area.Home other → other ∉ store.unsaved.erase block →
      store.view other = apply (store.pending ++ [(block, store.view block)])
        (replay store.committed base) other := by
    intro other otherHome saved
    rw [apply_concat, update_apply]
    split
    next same => rw [same]
    next different =>
      exact running.seen other otherHome fun dirty => saved (Finset.mem_erase.mpr ⟨different, dirty⟩)
  rcases grown with ⟨present, rfl⟩ | ⟨absent, short, rfl⟩
  · refine ⟨running.booted, running.nodup, running.short, running.homes, ?_, running.settled, seen⟩
    intro other
    have names := running.names other
    simp only [List.map_append, List.map_cons, List.map_nil, List.mem_append, List.mem_singleton,
      names, or_iff_left_iff_imp]
    rintro rfl
    exact present
  · refine ⟨running.booted, ?_, ?_, ?_, ?_, running.settled, seen⟩
    · exact List.nodup_append.mpr ⟨running.nodup, List.nodup_singleton _, fun a member b last same => absent
        (List.mem_singleton.mp last ▸ same ▸ member)⟩
    · dsimp only
      rw [List.length_append, List.length_singleton]
      exact short
    · intro other member
      rcases List.mem_append.mp member with before | last
      · exact running.homes other before
      · rwa [List.mem_singleton.mp last]
    · intro other
      simp [running.names other]

/-- In a full log every buffer is that of a logged block, so that `write_log` finds none for its
first copy. -/
theorem full_stuck {s : Shared ι} {block : Nat} (limited : Limited s) (nodup : s.store.lh.Nodup)
    (pinned : ∀ block ∈ s.store.lh, block ∈ s.buffers.dirty) (full : nbuf ≤ s.store.lh.length)
    (other : block ∉ s.store.lh) : ¬s.buffers.Finds block := by
  have logged : s.store.lh.toFinset ⊆ s.buffers.referenced ∪ s.buffers.dirty := fun block member =>
    Finset.mem_union_right _ (pinned block (List.mem_toFinset.mp member))
  have count : (s.store.lh.toFinset).card = s.store.lh.length := List.toFinset_card_of_nodup nodup
  have all := Finset.eq_of_subset_of_card_le logged (by rw [count]; exact limited.few.trans full)
  rintro (present | room)
  · rw [← all, List.mem_toFinset] at present
    exact other present
  · rw [← all, count] at room
    omega

inductive Phase (area : Area) (base : Nat → Block) (floor : List (List Update)) (s : State ι) : Prop
  | running (quiet : ∀ q, (s.place q).script = []) (idle : s.shared.store.committing = false)
      (running : Running area base s.shared.store)
      (pinned : ∀ block ∈ s.shared.store.lh, block ∈ s.shared.buffers.dirty)
  | stuck (p : ι)
      (waits : ∃ instr ∈ (s.place p).script.head?, instr = .writeLog 0 ∨ instr = .bread 0 (.slot 0))
      (others : ∀ q, q ≠ p → (s.place q).script = []) (outside : ∀ q, (s.place q).inOp = false)
      (shut : s.shared.store.committing = true) (running : Running area base s.shared.store)
      (pinned : ∀ block ∈ s.shared.store.lh, block ∈ s.shared.buffers.dirty)
      (full : nbuf ≤ s.shared.store.lh.length)
  | scripted (p : ι) (some : (s.place p).script ≠ [])
      (others : ∀ q, q ≠ p → (s.place q).script = []) (outside : ∀ q, (s.place q).inOp = false)
      (safe : SafeLog area base floor (fun state => Calm area base state.1) (s.place p).script
        s.shared.store (s.place p).regs)

theorem Phase.recoverable {s : State ι} (phase : Phase area base floor s) :
    Recoverable area base s.shared.store := by
  cases phase with
  | running _ _ running | stuck _ _ _ _ _ running => exact running.recoverable
  | scripted p some _ _ safe =>
      obtain ⟨instr, rest, script⟩ := List.exists_cons_of_ne_nil some
      rw [script] at safe
      exact safe.holds.recoverable

theorem Phase.outside {s : State ι} {p : ι} (phase : Phase area base floor s)
    (scripted : (s.place p).script ≠ []) (q : ι) : (s.place q).inOp = false := by
  cases phase with
  | running quiet => exact absurd (quiet p) scripted
  | stuck _ _ _ outside | scripted _ _ _ outside => exact outside q

theorem phase_rest [DecidableEq ι] {s : State ι} {p : ι} {store : Store} {holder : Nat → Option ι}
    {buffers : Buffers} {regs : Regs} {script : List Instr} {moved : Proc} (others : ∀ q, q ≠ p → (s.place q).script = [])
    (outside : ∀ q, (s.place q).inOp = false)
    (later : SafeLog area base floor (fun state => Calm area base state.1) script store regs)
    (left : moved.script = script) (loaded : moved.regs = regs) (out : moved.inOp = false) :
    Phase area base floor ⟨⟨store, holder, buffers⟩, update s.place p moved⟩ := by
  cases script with
  | nil =>
      refine .running (all_quiet left others) later.finished.idle later.finished.running ?_
      intro block member
      have empty : store.lh = [] := later.finished.lh
      simp [empty] at member
  | cons first rest =>
      refine .scripted p ?_ (others_quiet others) (all_outside out fun q _ => outside q) ?_
      · dsimp only
        simp [left]
      · dsimp only
        rw [update_self, left, loaded]
        exact later

theorem place_boot [DecidableEq ι] (disk : Nat → Block) (committed : List (List Update)) (p q : ι) :
    (boot disk committed p).place q =
      if q = p then { Proc.fresh with script := recoverFromLog } else Proc.fresh := by
  simp only [boot, update_apply]

theorem outside_boot [DecidableEq ι] (disk : Nat → Block) (committed : List (List Update)) (p q : ι) :
    ((boot disk committed p).place q).inOp = false := by
  rw [place_boot]
  split <;> rfl

variable [Fintype ι]

structure Kept (area : Area) (base : Nat → Block) (floor : List (List Update)) (s : State ι) :
    Prop where
  held : Held s.shared.holder fun q => (s.place q).regs
  logging : ∀ q block, (s.place q).appending = some block →
    s.shared.holder block = some q ∧ (s.place q).inOp = true ∧ area.Home block
  limited : Limited s.shared
  modifying : ∀ block ∈ s.shared.store.unsaved,
    ∃ q, s.shared.holder block = some q ∧ (s.place q).inOp = true
  count : (s.shared.store.outstanding : Int) = tally inside s.place
  phase : Phase area base floor s

variable {s : State ι} {p : ι} {action : Action} {next : Shared ι} {proc : Proc}

variable [DecidableEq ι]

theorem Kept.boot {disk : Nat → Block} {committed : List (List Update)} (p : ι)
    {lh : List Nat} (logged : Logged area (replay committed base) disk lh) :
    Kept area base committed (boot disk committed p) := by
  have regs : ∀ q, ((Log.boot disk committed p).place q).regs = fun _ => none := by
    intro q
    rw [place_boot]
    split <;> rfl
  have appending : ∀ q, ((Log.boot disk committed p).place q).appending = none := by
    intro q
    rw [place_boot]
    split <;> rfl
  have outside := outside_boot disk committed p
  have script : ((Log.boot disk committed p).place p).script = recoverFromLog := by
    rw [place_boot, if_pos rfl]
  refine ⟨⟨?_, ?_⟩, ?_, ⟨?_, ?_⟩, ?_, ?_, ?_⟩
  · intro q r block named
    simp [regs] at named
  · intro q r r' block named
    simp [regs] at named
  · intro q block passed
    simp [appending] at passed
  · exact Nat.zero_le _
  · intro block q owned
    simp [Log.boot] at owned
  · intro block unsaved
    simp [Log.boot] at unsaved
  · rw [tally_eq_zero]
    · rfl
    · intro q
      simp [inside, outside]
  · refine .scripted p (by simp [script, recoverFromLog]) ?_ outside ?_
    · intro q other
      rw [place_boot, if_neg other]
      rfl
    · rw [script]
      exact recover_safe rfl rfl rfl rfl rfl rfl ⟨lh, logged⟩ rfl

section Step

variable (kept : Kept area base floor s)

include kept

theorem phase_commit (large : logSize ≤ area.size) (bracketed : Bracketed area s (.call p .endOp))
    (quiet : ∀ q, (s.place q).script = []) (last : s.shared.store.outstanding - 1 = 0)
    (running : Running area base s.shared.store)
    (pinned : ∀ block ∈ s.shared.store.lh, block ∈ s.shared.buffers.dirty) :
    Phase area base floor
      ⟨{ s.shared with store := { s.shared.store with outstanding := 0, committing := true } },
        update s.place p { s.place p with inOp := false, script := commit s.shared.store.lh }⟩ := by
  have outside : ∀ q, q ≠ p → (s.place q).inOp = false := fun q =>
    alone_of_last kept.count bracketed.1 last
  have others : ∀ q, q ≠ p → (s.place q).script = [] := fun q _ => quiet q
  by_cases room : s.shared.store.lh.length < area.size
  · have saved : s.shared.store.unsaved = ∅ := by
      refine Finset.eq_empty_of_forall_notMem fun block unsaved => ?_
      obtain ⟨q, owned, inOp⟩ := kept.modifying block unsaved
      by_cases self : q = p
      · subst self
        exact bracketed.2 block unsaved owned
      · simp [outside q self] at inOp
    refine .scripted p ?_ (others_quiet others) (all_outside rfl outside) ?_
    · simp [commit]
    · dsimp only
      rw [update_self]
      refine commit_safe (running.counted 0 true) room ⟨Or.inl rfl, ?_⟩ rfl saved
      intro down
      simp [running.booted] at down
  · have full : nbuf ≤ s.shared.store.lh.length := by
      simp only [nbuf, logSize] at *
      omega
    have some : 0 < s.shared.store.lh.length := lt_of_lt_of_le (by decide) full
    refine .stuck p ⟨.writeLog 0, ?_, Or.inl rfl⟩ (others_quiet others) (all_outside rfl outside) rfl
      (running.counted 0 true) pinned full
    simp [commit, some]

variable (moves : Moves area p s.shared (s.place p) action next proc)

include moves

theorem held_step : Held next.holder fun q => (update s.place p proc q).regs := by
  have moved := kept.held.move (p := p) (moves_locks moves)
  have regs : (fun q => (update s.place p proc q).regs) =
      update (fun q => (s.place q).regs) p proc.regs := by
    funext q
    exact Function.apply_update (fun _ proc => proc.regs) s.place p proc q
  rw [regs]
  exact moved

theorem logging_step (bracketed : Bracketed area s (action.event p)) (q : ι) (block : Nat)
    (passed : (update s.place p proc q).appending = some block) :
    next.holder block = some q ∧ (update s.place p proc q).inOp = true ∧
      area.Home block := by
  by_cases self : q = p
  · subst self
    rw [update_self] at passed ⊢
    cases moves with
    | logWrite ready holds room inside =>
        cases passed
        exact ⟨kept.held.locked q _ _ holds, bracketed.1, bracketed.2 _ holds⟩
    | append _ appended => simp at passed
    | bread ready | modify ready | brelse ready | beginOp ready | endOp ready | commit ready =>
        simp [ready.appending] at passed
    | instr ready => simp [ready] at passed
  · rw [update_of_ne self] at passed ⊢
    obtain ⟨owned, inOp, home⟩ := kept.logging q block passed
    exact ⟨(moves_locks moves).kept kept.held self owned, inOp, home⟩

theorem modifying_kept
    (old : ∀ block ∈ next.store.unsaved,
      block ∈ s.shared.store.unsaved ∨ next.holder block = some p ∧ proc.inOp = true)
    (mine : ∀ block, s.shared.holder block = some p → block ∈ s.shared.store.unsaved →
      (s.place p).inOp = true → next.holder block = some p ∧ proc.inOp = true)
    (block : Nat) (unsaved : block ∈ next.store.unsaved) :
    ∃ q, next.holder block = some q ∧ (update s.place p proc q).inOp = true := by
  rcases old block unsaved with before | here
  · obtain ⟨q, owned, inOp⟩ := kept.modifying block before
    refine ⟨q, ?_⟩
    by_cases self : q = p
    · subst self
      rw [update_self]
      exact mine block owned before inOp
    · rw [update_of_ne self]
      exact ⟨(moves_locks moves).kept kept.held self owned, inOp⟩
  · exact ⟨p, by rwa [update_self]⟩

theorem modifying_step (bracketed : Bracketed area s (action.event p)) (block : Nat)
    (unsaved : block ∈ next.store.unsaved) :
    ∃ q, next.holder block = some q ∧ (update s.place p proc q).inOp = true := by
  have whole := moves
  cases moves with
  | bread ready found unlocked =>
      refine modifying_kept kept whole (fun _ => Or.inl) ?_ block unsaved
      intro other owned _ inOp
      refine ⟨(update_of_ne ?_ _ _).trans owned, inOp⟩
      rintro rfl
      simp [unlocked] at owned
  | modify ready holds =>
      refine modifying_kept kept whole ?_ (fun _ owned _ inOp => ⟨owned, inOp⟩) block unsaved
      intro other dirty
      rcases Finset.mem_insert.mp dirty with rfl | before
      · exact Or.inr ⟨kept.held.locked p _ _ holds, bracketed.2.1⟩
      · exact Or.inl before
  | logWrite | beginOp =>
      refine modifying_kept kept whole (fun _ => Or.inl) ?_ block unsaved
      intro other owned _ inOp
      simp [owned, inOp]
  | brelse ready holds =>
      refine modifying_kept kept whole (fun _ => Or.inl) ?_ block unsaved
      intro other owned dirty inOp
      refine ⟨(update_of_ne ?_ _ _).trans owned, inOp⟩
      rintro rfl
      exact bracketed.2 _ holds dirty
  | endOp | commit =>
      refine modifying_kept kept whole (fun _ => Or.inl) ?_ block unsaved
      intro other owned dirty _
      exact absurd owned (bracketed.2 other dirty)
  | append passed appended =>
      refine modifying_kept kept whole ?_ (fun _ owned _ inOp => ⟨owned, inOp⟩) block unsaved
      intro other dirty
      obtain ⟨lh, rfl, _⟩ := logAppend_eq_some appended
      exact Or.inl (Finset.mem_of_mem_erase dirty)
  | instr ready script lock executed =>
      have outside := kept.phase.outside (p := p) (by simp [script])
      refine modifying_kept kept whole ?_ (fun _ _ _ inOp => by simp [outside] at inOp) block unsaved
      intro other dirty
      rw [(exec_frame executed).2, locked_store lock] at dirty
      exact Or.inl dirty

theorem phase_running (large : logSize ≤ area.size) (bracketed : Bracketed area s (action.event p))
    (quiet : ∀ q, (s.place q).script = []) (idle : s.shared.store.committing = false)
    (running : Running area base s.shared.store)
    (pinned : ∀ block ∈ s.shared.store.lh, block ∈ s.shared.buffers.dirty) :
    Phase area base floor ⟨next, update s.place p proc⟩ := by
  have silent : ∀ {store : Store} {holder : Nat → Option ι} {buffers : Buffers} {moved : Proc},
      moved.script = [] → store.committing = false → Running area base store →
        (∀ block ∈ store.lh, block ∈ buffers.dirty) →
          Phase area base floor ⟨⟨store, holder, buffers⟩, update s.place p moved⟩ := by
    intro store holder buffers moved empty calm still logged
    exact .running (all_quiet empty fun q _ => quiet q) calm still logged
  cases moves with
  | bread | logWrite | brelse => exact silent (quiet p) idle running pinned
  | modify => exact silent (quiet p) idle (running.modify _ _) pinned
  | beginOp => exact silent (quiet p) idle (running.counted _ _) pinned
  | endOp => exact silent rfl idle (running.counted _ _) pinned
  | append passed appended =>
      obtain ⟨lh, same, grown⟩ := logAppend_eq_some appended
      refine silent (quiet p) (by rw [same]; exact idle) ?_ ?_
      · exact running.append appended (kept.logging p _ passed).2.2
      · intro block member
        rw [same] at member
        refine Finset.mem_insert.mpr ?_
        rcases grown with ⟨-, rfl⟩ | ⟨-, -, rfl⟩
        · exact Or.inr (pinned block member)
        · rcases List.mem_append.mp member with before | last
          · exact Or.inr (pinned block before)
          · exact Or.inl (List.mem_singleton.mp last)
  | instr ready script => simp [quiet p] at script
  | commit ready idle last => exact phase_commit kept large bracketed quiet last running pinned

theorem phase_stuck (large : logSize ≤ area.size) (bracketed : Bracketed area s (action.event p)) {runner : ι}
    (waits : ∃ instr ∈ (s.place runner).script.head?, instr = .writeLog 0 ∨ instr = .bread 0 (.slot 0))
    (others : ∀ q, q ≠ runner → (s.place q).script = []) (outside : ∀ q, (s.place q).inOp = false)
    (shut : s.shared.store.committing = true) (running : Running area base s.shared.store)
    (pinned : ∀ block ∈ s.shared.store.lh, block ∈ s.shared.buffers.dirty)
    (full : nbuf ≤ s.shared.store.lh.length) :
    Phase area base floor ⟨next, update s.place p proc⟩ := by
  have still : ∀ {holder : Nat → Option ι} {buffers : Buffers} {moved : Proc}, (s.place p).script = [] →
      buffers.dirty = s.shared.buffers.dirty → moved.script = [] → moved.inOp = false →
        Phase area base floor ⟨⟨s.shared.store, holder, buffers⟩, update s.place p moved⟩ := by
    intro holder buffers moved empty same script out
    have other : runner ≠ p := by
      rintro rfl
      simp [empty] at waits
    obtain ⟨away, none⟩ := asleep (p := p) others outside script out
    refine .stuck runner ?_ away none shut running ?_ full
    · dsimp only
      rwa [update_of_ne other]
    · dsimp only
      rwa [same]
  cases moves with
  | bread ready | brelse ready => exact still ready.script rfl ready.script (outside p)
  | modify => exact absurd bracketed.2.1 (by simp [outside p])
  | logWrite | endOp | commit => exact absurd bracketed.1 (by simp [Action.event, Nested, outside p])
  | beginOp ready idle => simp [idle] at shut
  | append passed =>
      have within := (kept.logging p _ passed).2.1
      simp [outside p] at within
  | instr ready mine lock executed =>
      have self : p = runner := by
        by_contra other
        simp [others p other] at mine
      subst self
      rw [mine] at waits
      obtain ⟨_, head, which⟩ := waits
      obtain rfl := Option.some.inj head
      rcases which with rfl | rfl
      · have some : 0 < s.shared.store.lh.length := lt_of_lt_of_le (by decide) full
        obtain rfl := Option.some.inj lock
        simp only [exec, some, if_true, Option.some.injEq, Prod.mk.injEq] at executed
        obtain ⟨rfl, rfl⟩ := executed
        refine .stuck p ⟨.bread 0 (.slot 0), ?_, Or.inr rfl⟩ ?_ ?_ shut running pinned full
        · simp
        · exact others_quiet others
        · exact all_outside (outside p) fun q _ => outside q
      · simp only [Shared.locked, Place.block, Option.bind_some, bget_eq_some] at lock
        refine absurd lock.1.1 (full_stuck kept.limited running.nodup pinned full ?_)
        intro member
        have second : 0 + 1 < area.size := lt_of_lt_of_le (by decide) large
        exact home_ne_slot (running.homes _ member) second rfl

theorem phase_scripted (bracketed : Bracketed area s (action.event p)) {runner : ι}
    (some : (s.place runner).script ≠ []) (others : ∀ q, q ≠ runner → (s.place q).script = [])
    (outside : ∀ q, (s.place q).inOp = false)
    (safe : SafeLog area base floor (fun state => Calm area base state.1) (s.place runner).script
        s.shared.store (s.place runner).regs) :
    Phase area base floor ⟨next, update s.place p proc⟩ := by
  obtain ⟨instr, rest, script⟩ := List.exists_cons_of_ne_nil some
  have still : ∀ {holder : Nat → Option ι} {buffers : Buffers} {moved : Proc}, (s.place p).script = [] →
      moved.script = [] → moved.inOp = false →
        Phase area base floor ⟨⟨s.shared.store, holder, buffers⟩, update s.place p moved⟩ := by
    intro holder buffers moved empty script out
    have other : runner ≠ p := by
      rintro rfl
      exact some empty
    obtain ⟨away, none⟩ := asleep (p := p) others outside script out
    refine .scripted runner ?_ away none ?_ <;> dsimp only <;> rwa [update_of_ne other]
  cases moves with
  | bread ready | brelse ready => exact still ready.script ready.script (outside p)
  | modify => exact absurd bracketed.2.1 (by simp [outside p])
  | logWrite | endOp | commit => exact absurd bracketed.1 (by simp [Action.event, Nested, outside p])
  | beginOp ready idle =>
      rw [script] at safe
      have closed := safe.holds.shut.1
      simp [idle, ready.booted] at closed
  | append passed =>
      have within := (kept.logging p _ passed).2.1
      simp [outside p] at within
  | instr ready mine lock executed =>
      have self : p = runner := by
        by_contra other
        simp [others p other] at mine
      subst self
      rw [mine] at safe
      rw [locked_store lock] at executed
      exact phase_rest others outside (safe.step executed) rfl rfl (outside p)

end Step

theorem kept_moves (large : logSize ≤ area.size) (kept : Kept area base floor s)
    (moves : Moves area p s.shared (s.place p) action next proc)
    (bracketed : Bracketed area s (action.event p)) :
    Kept area base floor ⟨next, update s.place p proc⟩ := by
  refine ⟨held_step kept moves, logging_step kept moves bracketed,
    kept.limited.moves (fun block passed => ⟨p, (kept.logging p block passed).1⟩) moves,
    modifying_step kept moves bracketed, count_step kept.count moves bracketed.1, ?_⟩
  cases kept.phase with
  | running quiet idle running pinned =>
      exact phase_running kept moves large bracketed quiet idle running pinned
  | stuck runner waits others outside shut running pinned full =>
      exact phase_stuck kept moves large bracketed waits others outside shut running pinned full
  | scripted runner some others outside safe =>
      exact phase_scripted kept moves bracketed some others outside safe

theorem kept_crash (kept : Kept area base floor s) (p : ι) :
    Kept area base s.shared.store.committed
      (boot s.shared.store.disk s.shared.store.committed p) := by
  obtain ⟨lh, logged⟩ := kept.phase.recoverable
  exact .boot p logged

theorem kept_step (large : logSize ≤ area.size) {event : Event ι} {next : State ι}
    (kept : ∃ floor, Kept area base floor s) (bracketed : Bracketed area s event)
    (stepped : step area s event = some next) : ∃ floor, Kept area base floor next := by
  obtain ⟨floor, kept⟩ := kept
  obtain ⟨p, rfl, rfl⟩ | ⟨p, action, shared, proc, rfl, moves, rfl⟩ := step_cases stepped
  · exact ⟨_, kept_crash kept p⟩
  · exact ⟨floor, kept_moves large kept moves bracketed⟩

end OsLabs.Log
