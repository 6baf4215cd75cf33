import OsLabs.Log.LogInvariant
import OsLabs.Log.LogRecovery

/-!
Crash atomicity: whatever the crash and however often recovery is torn itself, the recovery
that completes leaves the transactions committed before the crash and nothing else.
-/

namespace OsLabs.Log

open OsLabs.Interleaving OsLabs.Runs OsLabs.Scripts

variable {ι : Type*} {area : Area} {base : Nat → Block}

/-- Only a header written to the disk commits, and only the end of recovery boots. -/
theorem exec_commits {instr : Instr} {store : Store} {regs : Regs} {state : Store × Regs}
    {more : List Instr} (executed : exec area instr (store, regs) = some (state, more)) :
    (state.1.committed = store.committed ∨ state.1.booted = store.booted) ∧
      (store.committing = false → state.1.committing = false) := by
  cases instr with
  | writeLog tail | installTrans tail =>
      simp only [exec] at executed
      split at executed <;> simp only [Option.some.injEq, Prod.mk.injEq] at executed <;>
        rw [← executed.1] <;> exact ⟨Or.inl rfl, id⟩
  | bread r place | bwrite r | putHead r | loadHead r =>
      simp only [exec, Option.map_eq_some_iff, Prod.mk.injEq] at executed
      obtain ⟨_, _, rfl, _⟩ := executed
      exact ⟨Or.inl rfl, id⟩
  | copy target source =>
      simp only [exec, Option.bind_eq_some_iff, Option.map_eq_some_iff, Prod.mk.injEq] at executed
      obtain ⟨_, _, _, _, rfl, _⟩ := executed
      exact ⟨Or.inl rfl, id⟩
  | bwriteHead r =>
      simp only [exec, Option.map_eq_some_iff, Prod.mk.injEq] at executed
      obtain ⟨_, _, rfl, _⟩ := executed
      rw [Store.commitPoint]
      split <;> exact ⟨Or.inr rfl, id⟩
  | brelse r | writeHead | clearHead | endBoot =>
      simp only [exec, Option.some.injEq, Prod.mk.injEq] at executed
      rw [← executed.1]
      exact ⟨Or.inl rfl, id⟩
  | endCommit =>
      simp only [exec, Option.some.injEq, Prod.mk.injEq] at executed
      rw [← executed.1]
      exact ⟨Or.inl rfl, fun _ => rfl⟩

/-- The events of a recovery: steps of the recovering process, and crashes. -/
def Event.Recovers : Event ι → Prop
  | .call _ _ => False
  | .go _ | .crash _ => True

theorem Phase.down {floor : List (List Update)} {s : State ι} {p : ι} (phase : Phase area base floor s)
    (some : (s.place p).script ≠ []) (idle : s.shared.store.committing = false) :
    s.shared.store.booted = false ∧ s.shared.store.committed = floor := by
  cases phase with
  | running quiet => exact absurd (quiet p) some
  | stuck _ _ _ _ shut => simp [idle] at shut
  | scripted q some _ _ safe =>
      obtain ⟨instr, rest, script⟩ := List.exists_cons_of_ne_nil some
      rw [script] at safe
      obtain ⟨closed, kept⟩ := safe.holds.shut
      have down := closed.resolve_left (by simp [idle])
      exact ⟨down, kept down⟩

variable [Fintype ι]

structure Recovering (area : Area) (base : Nat → Block) (floor : List (List Update)) (s : State ι) :
    Prop where
  kept : Kept area base floor s
  outside : ∀ q, (s.place q).inOp = false
  idle : s.shared.store.committing = false
  same : s.shared.store.committed = floor

variable {floor : List (List Update)} {s : State ι}

theorem Recovering.finished (recovering : Recovering area base floor s)
    (booted : s.shared.store.booted = true) {block : Nat} (home : area.Home block) :
    s.shared.store.disk block = replay floor base block := by
  cases recovering.kept.phase with
  | running _ _ running =>
      rw [running.settled.home block home, recovering.same]
  | stuck _ _ _ _ shut => simp [recovering.idle] at shut
  | scripted p some _ _ safe =>
      obtain ⟨instr, rest, script⟩ := List.exists_cons_of_ne_nil some
      rw [script] at safe
      have closed := safe.holds.shut.1
      simp [recovering.idle, booted] at closed

variable [DecidableEq ι]

theorem Recovering.crash (kept : Kept area base floor s) (p : ι) :
    Recovering area base s.shared.store.committed
      (boot s.shared.store.disk s.shared.store.committed p) :=
  ⟨kept_crash kept p, outside_boot _ _ p, rfl, rfl⟩

theorem recovering_step (large : logSize ≤ area.size) {event : Event ι} {next : State ι}
    (recovering : Recovering area base floor s) (recovers : event.Recovers)
    (stepped : step area s event = some next) : Recovering area base floor next := by
  obtain ⟨p, rfl, rfl⟩ | ⟨p, action, shared, proc, rfl, moves, rfl⟩ := step_cases stepped
  · have torn := Recovering.crash recovering.kept p
    rwa [recovering.same] at torn ⊢
  · cases action with
    | call c => exact recovers.elim
    | go =>
        cases moves with
        | append passed =>
            have within := (recovering.kept.logging p _ passed).2.1
            simp [recovering.outside p] at within
        | instr ready script lock executed =>
            have kept := kept_moves large recovering.kept (.instr ready script lock executed)
              ⟨trivial, trivial⟩
            have alone := locked_store lock
            rw [alone] at executed
            obtain ⟨commits, still⟩ := exec_commits executed
            have down := recovering.kept.phase.down (p := p) (by simp [script]) recovering.idle
            refine ⟨kept, all_outside (recovering.outside p) fun q _ => recovering.outside q,
              still recovering.idle, ?_⟩
            rcases commits with same | unbooted
            · exact same.trans recovering.same
            · cases kept.phase with
              | running _ _ running =>
                  have booted := unbooted.symm.trans running.booted
                  simp [down.1] at booted
              | stuck _ _ _ _ shut => simp [still recovering.idle] at shut
              | scripted q some => exact (kept.phase.down some (still recovering.idle)).2

theorem kept_run (large : logSize ≤ area.size) {disk : Nat → Block} (empty : decodeHead (disk area.start) = []) {start : ι}
    {events : List (Event ι)} {final : State ι}
    (rules : Along (step area) (fun _ => Bracketed area) (boot disk [] start) events)
    (reached : run (step area) (boot disk [] start) events = some final) :
    ∃ floor, Kept area disk floor final := by
  have settled : Settled area (replay [] disk) disk := ⟨empty, fun _ _ => rfl⟩
  refine run_invariant_along (fun _ s => ∃ floor, Kept area disk floor s)
    ⟨[], .boot start settled.logged⟩ ?_ events final rules reached
  intro _ s event next kept permitted stepped
  exact kept_step large kept permitted stepped

theorem recovering_run (large : logSize ≤ area.size) {events : List (Event ι)} {final : State ι}
    (recovering : Recovering area base floor s) (recovers : ∀ event ∈ events, event.Recovers)
    (reached : run (step area) s events = some final) : Recovering area base floor final := by
  have along : Along (step area) (fun _ _ event => event.Recovers) s events :=
    fun before event after state split _ => recovers event (by simp [split])
  refine run_invariant_along (fun _ s => Recovering area base floor s) recovering ?_ events final
    along reached
  intro _ s event next recovering recovers stepped
  exact recovering_step large recovering recovers stepped

/-- Crash atomicity, for a log with the blocks that `mkfs` gives it. The crash comes after any
events; recovery may be torn by further crashes, and completes when it is not. -/
theorem crash_atomic (area : Area) (large : logSize ≤ area.size) (disk : Nat → Block)
    (empty : decodeHead (disk area.start) = []) (start : ι) (before : List (Event ι)) (crashed : State ι)
    (rules : Along (step area) (fun _ => Bracketed area) (boot disk [] start) before)
    (reached : run (step area) (boot disk [] start) before = some crashed) (p : ι) :
    (∀ (during : List (Event ι)) (final : State ι), (∀ event ∈ during, event.Recovers) →
      run (step area) crashed (.crash p :: during) = some final →
      final.shared.store.booted = true →
      ∀ block, area.Home block →
        final.shared.store.disk block = replay crashed.shared.store.committed disk block) ∧
    ∃ count final,
      run (step area) crashed (.crash p :: List.replicate count (.go p)) = some final ∧
        final.shared.store.booted = true := by
  obtain ⟨floor, kept⟩ := kept_run large empty rules reached
  constructor
  · intro during final recovers recovered booted block home
    rw [run_cons, step, Option.bind_some] at recovered
    exact (recovering_run large (.crash kept p) recovers recovered).finished booted home
  · obtain ⟨lh, logged⟩ := kept.phase.recoverable
    exact recovery_completes logged p

def committing : List (Event (Fin 1)) :=
  List.replicate 11 (.go 0) ++ .call 0 .beginOp :: updateBlock 0 100 ++ .call 0 .endOp ::
    List.replicate 12 (.go 0)

/-- The header is on the disk and the block is not: recovery installs it. -/
theorem crash_atomic_committed : ∃ crashed final,
    run (step Area.mkfs) (boot blank [] 0) committing = some crashed ∧
      crashed.shared.store.disk 100 0 = 0 ∧ crashed.shared.store.committed.length = 1 ∧
      (∃ count, run (step Area.mkfs) crashed (.crash 0 :: List.replicate count (.go 0)) = some final) ∧
      final.shared.store.disk 100 = replay crashed.shared.store.committed blank 100 := by
  let crashed := (run (step Area.mkfs) (boot blank [] 0) committing).get (by decide +kernel)
  have reached : run (step Area.mkfs) (boot blank [] 0) committing = some crashed :=
    (Option.some_get _).symm
  obtain ⟨atomic, count, final, recovered, booted⟩ := crash_atomic Area.mkfs le_rfl blank (by decide) 0
    committing crashed (alongCheck_sound _ _ _ _ (by decide +kernel)) reached 0
  refine ⟨crashed, final, reached, by decide +kernel, by decide +kernel, ⟨count, recovered⟩, ?_⟩
  refine atomic _ final ?_ recovered booted 100 (by decide)
  intro event member
  rw [List.eq_of_mem_replicate member]
  trivial

end OsLabs.Log
