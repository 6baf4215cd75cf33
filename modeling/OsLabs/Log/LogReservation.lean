import Mathlib.Algebra.BigOperators.Ring.Finset
import OsLabs.Log.LogSteps

/-!
The reservation of `begin_op` against the test of `log_write`. Every process inside an
operation keeps a budget of the blocks it may still log; the log is short enough as long as
the blocks in it and the budgets together are.
-/

namespace OsLabs.Log

open Function OsLabs.Interleaving OsLabs.Runs

variable {ι : Type*}

/-- The machine after recovery, with nothing in the log and no operation begun. -/
def started (disk : Nat → Block) : State ι where
  shared :=
    { store :=
        { disk
          view := disk
          outstanding := 0
          committing := false
          lh := []
          booted := true
          unsaved := ∅
          pending := []
          committed := [] }
      holder := fun _ => none
      buffers := ⟨∅, ∅⟩ }
  place := fun _ => Proc.fresh

/-- An operation logs at most `MAXOPBLOCKS` distinct blocks. -/
def Modest (s : State ι) : Event ι → Prop
  | .call p (.logWrite r) => ∀ block, (s.place p).regs r = some block →
      block ∈ (s.place p).written ∨ (s.place p).written.length < maxOpBlocks
  | _ => True

def Event.Runs : Event ι → Prop
  | .crash _ => False
  | .call _ _ | .go _ => True

def Operates (s : State ι) (event : Event ι) : Prop :=
  event.Runs ∧ Nested s event ∧ Modest s event

/-- `begin_op` lets an operation in only when two blocks less than `LOGSIZE` are enough. -/
def RoomReserved (s : State ι) : Event ι → Prop
  | .call _ .beginOp =>
      s.shared.store.lh.length + (s.shared.store.outstanding + 1) * maxOpBlocks ≤ logSize - 2
  | _ => True

instance (event : Event ι) : Decidable event.Runs :=
  match event with
  | .crash _ => isFalse id
  | .call _ _ | .go _ => isTrue trivial

instance (s : State ι) : DecidablePred (Modest s)
  | .call _ (.logWrite _) => inferInstanceAs (Decidable (∀ _, _ → _))
  | .call _ (.bread _ _) | .call _ (.modify _ _) | .call _ (.brelse _) | .call _ .beginOp
  | .call _ .endOp | .go _ | .crash _ => inferInstanceAs (Decidable True)

instance (s : State ι) : DecidablePred (Operates s) :=
  fun _ => inferInstanceAs (Decidable (_ ∧ _ ∧ _))

instance (s : State ι) : DecidablePred (RoomReserved s)
  | .call _ .beginOp => inferInstanceAs (Decidable (_ ≤ _))
  | .call _ (.bread _ _) | .call _ (.modify _ _) | .call _ (.brelse _) | .call _ (.logWrite _)
  | .call _ .endOp | .go _ | .crash _ => inferInstanceAs (Decidable True)

def budget (proc : Proc) : Int := if proc.inOp then maxOpBlocks - proc.written.length else 0

def Instr.Commits : Instr → Prop
  | .loadHead _ | .endCommit | .endBoot => False
  | _ => True

theorem exec_commit {area : Area} {instr : Instr} {store : Store} {regs : Regs}
    {state : Store × Regs} {more : List Instr} (commits : instr.Commits)
    (executed : exec area instr (store, regs) = some (state, more)) :
    state.1.committing = store.committing ∧ state.1.lh.length ≤ store.lh.length ∧
      ∀ next ∈ more, next.Commits := by
  cases instr with
  | loadHead | endCommit | endBoot => exact commits.elim
  | writeLog tail | installTrans tail =>
      simp only [exec] at executed
      split at executed <;> simp only [Option.some.injEq, Prod.mk.injEq] at executed <;>
        rw [← executed.1, ← executed.2] <;> simp [Instr.Commits]
  | bread r place | bwrite r | putHead r =>
      simp only [exec, Option.map_eq_some_iff, Prod.mk.injEq] at executed
      obtain ⟨_, _, rfl, rfl⟩ := executed
      exact ⟨rfl, le_rfl, by simp⟩
  | copy target source =>
      simp only [exec, Option.bind_eq_some_iff, Option.map_eq_some_iff, Prod.mk.injEq] at executed
      obtain ⟨_, _, _, _, rfl, rfl⟩ := executed
      exact ⟨rfl, le_rfl, by simp⟩
  | bwriteHead r =>
      simp only [exec, Option.map_eq_some_iff, Prod.mk.injEq] at executed
      obtain ⟨_, _, rfl, rfl⟩ := executed
      rw [Store.commitPoint]
      split <;> exact ⟨rfl, le_rfl, by simp⟩
  | brelse r | writeHead =>
      simp only [exec, Option.some.injEq, Prod.mk.injEq] at executed
      rw [← executed.1, ← executed.2]
      exact ⟨rfl, le_rfl, by simp [Instr.Commits]⟩
  | clearHead =>
      simp only [exec, Option.some.injEq, Prod.mk.injEq] at executed
      rw [← executed.1, ← executed.2]
      exact ⟨rfl, Nat.zero_le _, by simp⟩

theorem commit_body (lh : List Nat) :
    ∃ body, commit lh = body ++ [.endCommit] ∧ ∀ instr ∈ body, instr.Commits := by
  refine ⟨_, rfl, ?_⟩
  split <;> simp [Instr.Commits]

structure InCommit (s : State ι) (p : ι) (body : List Instr) : Prop where
  script : (s.place p).script = body ++ [.endCommit]
  commits : ∀ instr ∈ body, instr.Commits
  others : ∀ q, q ≠ p → (s.place q).script = []
  committing : s.shared.store.committing = true
  outside : ∀ q, (s.place q).inOp = false

theorem InCommit.head {s : State ι} {p : ι} {body rest : List Instr} {instr : Instr}
    (commit : InCommit s p body) (script : (s.place p).script = instr :: rest) :
    instr = .endCommit ∧ rest = [] ∨
      ∃ left, body = instr :: left ∧ rest = left ++ [.endCommit] := by
  rw [commit.script] at script
  cases body with
  | nil =>
      rw [List.nil_append, List.cons.injEq] at script
      exact Or.inl ⟨script.1.symm, script.2.symm⟩
  | cons first left =>
      rw [List.cons_append, List.cons.injEq] at script
      exact Or.inr ⟨left, by rw [script.1], script.2.symm⟩

structure Within (s : Store) (proc : Proc) : Prop where
  logged : proc.inOp = true → ∀ block ∈ proc.written, block ∈ s.lh
  modest : proc.written.length ≤ maxOpBlocks
  passed : ∀ block, proc.appending = some block →
    proc.inOp = true ∧ (block ∈ proc.written ∨ proc.written.length < maxOpBlocks)

variable [Fintype ι]

structure Reserved (s : State ι) : Prop where
  count : (s.shared.store.outstanding : Int) = tally inside s.place
  room : s.shared.store.lh.length + tally budget s.place ≤ (logSize - 2 : Nat)
  within : ∀ q, Within s.shared.store (s.place q)
  phase : (∀ q, (s.place q).script = []) ∨ ∃ p body, InCommit s p body

theorem budget_nonneg {store : Store} {proc : Proc} (within : Within store proc) : 0 ≤ budget proc := by
  have modest := within.modest
  rw [budget]
  split <;> omega

theorem tally_budget (place : ι → Proc) : tally budget place ≤ maxOpBlocks * tally inside place := by
  rw [tally, tally, Finset.mul_sum]
  refine Finset.sum_le_sum fun q _ => ?_
  simp only [budget, inside]
  split <;> omega

theorem Within.mono {store store' : Store} {proc : Proc} (within : Within store proc)
    (grown : proc.inOp = true → ∀ block ∈ store.lh, block ∈ store'.lh) : Within store' proc where
  logged inOp block member := grown inOp block (within.logged inOp block member)
  modest := within.modest
  passed := within.passed

theorem Reserved.idle {s : State ι} {p : ι} (reserved : Reserved s)
    (some : (s.place p).script ≠ []) : ∃ body, InCommit s p body := by
  rcases reserved.phase with quiet | ⟨q, body, commit⟩
  · exact absurd (quiet p) some
  · by_cases self : p = q
    · subst self
      exact ⟨body, commit⟩
    · exact absurd (commit.others p self) some

theorem reserved_started (disk : Nat → Block) : Reserved (started disk : State ι) where
  count := by
    have nobody : tally inside (started disk : State ι).place = 0 := tally_eq_zero fun _ => rfl
    rw [nobody]
    rfl
  room := by
    have nothing : tally budget (started disk : State ι).place = 0 := tally_eq_zero fun _ => rfl
    rw [nothing]
    exact Int.natCast_nonneg (logSize - 2)
  within _ := ⟨by simp [started, Proc.fresh], Nat.zero_le _, by simp [started, Proc.fresh]⟩
  phase := Or.inl fun _ => rfl

variable [DecidableEq ι]

section Step

variable {area : Area} {s : State ι} {p : ι} {action : Action} {next : Shared ι} {proc : Proc}
  (reserved : Reserved s) (moves : Moves area p s.shared (s.place p) action next proc)

include reserved

theorem room_kept
    (spent : next.store.lh.length + budget proc ≤ s.shared.store.lh.length + budget (s.place p)) :
    next.store.lh.length + tally budget (update s.place p proc) ≤ (logSize - 2 : Nat) := by
  have room := reserved.room
  rw [tally_update]
  omega

include moves

theorem room_step (nested : Nested s (action.event p)) (room : RoomReserved s (action.event p)) :
    next.store.lh.length + tally budget (update s.place p proc) ≤ (logSize - 2 : Nat) := by
  have within := reserved.within p
  have mine := budget_nonneg within
  cases moves with
  | bread | modify | logWrite | brelse => exact room_kept reserved le_rfl
  | beginOp ready idle enough =>
      have others := tally_budget s.place
      rw [← reserved.count] at others
      have before : budget (s.place p) = 0 := by
        rw [budget, if_neg]
        exact Bool.not_eq_true _ ▸ nested
      have room : s.shared.store.lh.length + (s.shared.store.outstanding + 1) * maxOpBlocks ≤
        logSize - 2 := room
      rw [tally_update, before, budget, if_pos rfl]
      simp only [maxOpBlocks, logSize, List.length_nil] at others room ⊢
      omega
  | endOp | commit =>
      refine room_kept reserved ?_
      simpa [budget] using mine
  | @append block store passed appended =>
      obtain ⟨inOp, modest⟩ := within.passed _ passed
      obtain ⟨lh, rfl, grown⟩ := logAppend_eq_some appended
      refine room_kept reserved ?_
      simp only [budget, inOp, if_true]
      rcases grown with ⟨present, rfl⟩ | ⟨absent, _, rfl⟩
      · have longer : (s.place p).written.length ≤ ((s.place p).written.insert block).length :=
          List.length_le_length_insert
        omega
      · have unlogged : block ∉ (s.place p).written := fun member => absent (within.logged inOp _ member)
        rw [List.length_insert_of_not_mem unlogged, List.length_append, List.length_singleton]
        push_cast
        omega
  | instr ready script lock executed =>
      obtain ⟨body, commit⟩ := reserved.idle (p := p) (by simp [script])
      rw [locked_store lock] at executed
      refine room_kept reserved (Int.add_le_add_right ?_ _)
      rcases commit.head script with ⟨rfl, _⟩ | ⟨left, rfl, _⟩
      · rw [← (Prod.mk.inj (Option.some.inj executed)).1]
      · have commits := commit.commits _ List.mem_cons_self
        exact Int.ofNat_le.mpr (exec_commit commits executed).2.1

theorem within_step (modest : Modest s (action.event p)) (nested : Nested s (action.event p)) (q : ι) :
    Within next.store (update s.place p proc q) := by
  revert q
  have mine := reserved.within p
  have same : next.store.lh = s.shared.store.lh → Within next.store proc →
      ∀ q, Within next.store (update s.place p proc q) := by
    intro kept here
    refine (forall_update_iff s.place fun _ other => Within next.store other).mpr ⟨here, ?_⟩
    intro q _
    exact (reserved.within q).mono fun _ block member => by rwa [kept]
  cases moves with
  | bread ready | modify ready | brelse ready => exact same rfl ⟨mine.logged, mine.modest, mine.passed⟩
  | logWrite ready holds room inside =>
      refine same rfl ⟨mine.logged, mine.modest, ?_⟩
      intro block passed
      cases passed
      exact ⟨nested, modest _ holds⟩
  | beginOp ready =>
      refine same rfl ⟨by simp, Nat.zero_le _, ?_⟩
      intro block passed
      simp [ready.appending] at passed
  | endOp ready | commit ready =>
      refine same rfl ⟨by simp, mine.modest, ?_⟩
      intro block passed
      simp [ready.appending] at passed
  | @append block store passed appended =>
      obtain ⟨inOp, modest⟩ := mine.passed _ passed
      obtain ⟨lh, rfl, grown⟩ := logAppend_eq_some appended
      have kept : ∀ other ∈ s.shared.store.lh, other ∈ lh := by
        intro other member
        rcases grown with ⟨_, rfl⟩ | ⟨_, _, rfl⟩
        · exact member
        · exact List.mem_append_left _ member
      have added : block ∈ lh := by
        rcases grown with ⟨present, rfl⟩ | ⟨_, _, rfl⟩
        · exact present
        · exact List.mem_append_right _ (List.mem_singleton_self _)
      refine (forall_update_iff s.place fun _ other => Within _ other).mpr ⟨?_, ?_⟩
      · refine ⟨?_, ?_, by simp⟩
        · intro _ other member
          rcases List.mem_insert_iff.mp member with rfl | before
          · exact added
          · exact kept other (mine.logged inOp other before)
        · by_cases known : block ∈ (s.place p).written
          · exact (List.insert_of_mem known).symm ▸ mine.modest
          · rw [List.length_insert_of_not_mem known]
            exact modest.resolve_left known
      · intro q _
        exact (reserved.within q).mono fun _ => kept
  | instr ready script lock executed =>
      obtain ⟨body, commit⟩ := reserved.idle (p := p) (by simp [script])
      have outside : ∀ {q}, (s.place q).inOp ≠ true := fun {q} => by simp [commit.outside q]
      refine (forall_update_iff s.place fun _ other => Within _ other).mpr ⟨?_, ?_⟩
      · exact ⟨fun inOp => absurd inOp outside, mine.modest, by simp [ready]⟩
      · intro q _
        exact (reserved.within q).mono fun inOp => absurd inOp outside

theorem phase_reserved (nested : Nested s (action.event p)) :
    (∀ q, (update s.place p proc q).script = []) ∨
      ∃ q body, InCommit ⟨next, update s.place p proc⟩ q body := by
  rcases reserved.phase with quiet | ⟨q, body, commit⟩
  · have others : ∀ q, q ≠ p → (s.place q).script = [] := fun q _ => quiet q
    cases moves with
    | bread | modify | logWrite | brelse | beginOp | append => exact Or.inl (all_quiet (quiet p) others)
    | endOp => exact Or.inl (all_quiet rfl others)
    | instr ready script => simp [quiet p] at script
    | commit ready idle last =>
        obtain ⟨body, script, commits⟩ := commit_body s.shared.store.lh
        refine Or.inr ⟨p, body, ?_, commits, others_quiet others, rfl, ?_⟩
        · exact (congrArg Proc.script (update_self _ _ _)).trans script
        · exact all_outside rfl fun q => alone_of_last reserved.count nested last
  · have outside := commit.outside p
    have still : ∀ {store : Store} {holder : Nat → Option ι} {buffers : Buffers} {moved : Proc},
        (s.place p).script = [] → store.committing = s.shared.store.committing →
        moved.script = [] → moved.inOp = false →
          InCommit ⟨⟨store, holder, buffers⟩, update s.place p moved⟩ q body := by
      intro store holder buffers moved empty same quiet out
      have other : q ≠ p := by
        rintro rfl
        simp [commit.script] at empty
      obtain ⟨away, none⟩ := asleep (p := p) commit.others commit.outside quiet out
      refine ⟨?_, commit.commits, away, same.trans commit.committing, none⟩
      exact (congrArg Proc.script (update_of_ne other _ _)).trans commit.script
    cases moves with
    | bread ready | modify ready | brelse ready =>
        exact Or.inr ⟨q, body, still ready.script rfl ready.script outside⟩
    | logWrite | endOp | commit =>
        exact absurd nested (by simp [Action.event, Nested, outside])
    | beginOp ready idle => simp [commit.committing] at idle
    | append passed =>
        exact absurd ((reserved.within p).passed _ passed).1 (by simp [outside])
    | @instr instr rest locked state more ready script lock executed =>
        have self : p = q := by
          by_contra other
          simp [commit.others p other] at script
        subst self
        rw [locked_store lock] at executed
        rcases commit.head script with ⟨rfl, rfl⟩ | ⟨left, rfl, rfl⟩
        · refine Or.inl (all_quiet ?_ commit.others)
          rw [← (Prod.mk.inj (Option.some.inj executed)).2]
          rfl
        · have commits := commit.commits
          rw [List.forall_mem_cons] at commits
          obtain ⟨same, _, added⟩ := exec_commit commits.1 executed
          refine Or.inr ⟨p, more ++ left, ?_, ?_, others_quiet commit.others, same.trans commit.committing,
            all_outside outside fun r _ => commit.outside r⟩
          · refine (congrArg Proc.script (update_self _ _ _)).trans ?_
            exact (List.append_assoc _ _ _).symm
          · exact List.forall_mem_append.mpr ⟨added, commits.2⟩

end Step

theorem reserved_step {area : Area} {s next : State ι} {event : Event ι} (reserved : Reserved s)
    (operates : Operates s event) (room : RoomReserved s event)
    (stepped : step area s event = some next) : Reserved next := by
  obtain ⟨goes, nested, modest⟩ := operates
  obtain ⟨p, rfl, rfl⟩ | ⟨p, action, shared, proc, rfl, moves, rfl⟩ := step_cases stepped
  · exact goes.elim
  · exact ⟨count_step reserved.count moves nested, room_step reserved moves nested room,
      within_step reserved moves modest nested, phase_reserved reserved moves nested⟩

/-- On the log of `mkfs`, when `begin_op` keeps two blocks in reserve, `log_write` never finds
the transaction too big. -/
theorem reservation_sufficient (disk : Nat → Block) (events : List (Event ι)) (final : State ι)
    (reached : run (step Area.mkfs) (started disk) events = some final)
    (operates : Along (step Area.mkfs) (fun _ => Operates) (started disk) events)
    (room : Along (step Area.mkfs) (fun _ => RoomReserved) (started disk) events) :
    ¬final.shared.store.TooBig Area.mkfs := by
  have reserved : Reserved final := by
    refine run_invariant_along (fun _ s => Reserved s) (reserved_started disk) ?_ events final
      (operates.and room) reached
    intro _ s event next reserved permitted stepped
    exact reserved_step reserved permitted.1 permitted.2 stepped
  have enough := reserved.room
  have spare : 0 ≤ tally budget final.place :=
    Finset.sum_nonneg fun q _ => budget_nonneg (reserved.within q)
  rw [Store.TooBig, not_or, not_le, not_le]
  simp only [Area.mkfs, logSize, maxOpBlocks] at enough ⊢
  omega

/-- Three operations of ten blocks each, up to the last `log_write`. -/
def crowded (first second third : ι) : List (Event ι) :=
  [.call first .beginOp, .call second .beginOp, .call third .beginOp] ++
    (List.range 10).flatMap (fun i => updateBlock first (100 + i)) ++
    (List.range 10).flatMap (fun i => updateBlock second (110 + i)) ++
    (List.range 9).flatMap (fun i => updateBlock third (120 + i)) ++
    [.call third (.bread 0 129), .call third (.modify 0 fun _ => 1)]

/-- The thirtieth block panics, although each operation keeps to its ten blocks. -/
theorem thirtieth_block_panics : ∃ s,
    run (step Area.mkfs) (started blank) (crowded (0 : Fin 3) 1 2) = some s ∧
      Along (step Area.mkfs) (fun _ => Operates) (started blank) (crowded (0 : Fin 3) 1 2) ∧
      Operates s (.call 2 (.logWrite 0)) ∧ (s.place 2).regs 0 = some 129 ∧
      s.shared.store.TooBig Area.mkfs := by
  let s := (run (step Area.mkfs) (started blank) (crowded (0 : Fin 3) 1 2)).get (by decide +kernel)
  exact ⟨s, (Option.some_get _).symm, alongCheck_sound _ _ _ _ (by decide +kernel),
    by decide +kernel, by decide +kernel, by decide +kernel⟩

def paired (first second : ι) : List (Event ι) :=
  [.call first .beginOp, .call second .beginOp] ++
    (List.range 10).flatMap (fun i => updateBlock first (100 + i)) ++
    (List.range 10).flatMap (fun i => updateBlock second (110 + i))

theorem reservation_sufficient_paired : ∃ s,
    run (step Area.mkfs) (started blank) (paired (0 : Fin 2) 1) = some s ∧ s.shared.store.lh.length = 20 ∧
      ¬s.shared.store.TooBig Area.mkfs := by
  let s := (run (step Area.mkfs) (started blank) (paired (0 : Fin 2) 1)).get (by decide +kernel)
  have reached : run (step Area.mkfs) (started blank) (paired (0 : Fin 2) 1) = some s := (Option.some_get _).symm
  refine ⟨s, reached, by decide +kernel, ?_⟩
  exact reservation_sufficient blank (paired 0 1) s reached (alongCheck_sound _ _ _ _ (by decide +kernel))
    (alongCheck_sound _ _ _ _ (by decide +kernel))

end OsLabs.Log
