import OsLabs.Proc.ProcTree

/-!
Whom `kill` hits. The pid of a slot is cleared when `wait` frees it and stays when `fork` fails, and
`kill` looks at the pids of all slots, so it matters what a slot holds while it is `UNUSED`.
-/

namespace OsLabs.Proc

open Function Runs

variable {C L K : Type*} {m next : Machine C L K}

/-- What `kill` returns. -/
def Machine.killReturns (m : Machine C L K) (pid : BitVec 32) : Int :=
  match (List.finRange nproc).find? fun q => m.pid q = pid with
  | some _ => 0
  | none => -1

def Machine.Stale (m : Machine C L K) (pid : BitVec 32) : Prop := ∃ q, m.state q = .unused ∧ m.pid q = pid

instance (pid : BitVec 32) : Decidable (m.Stale pid) :=
  inferInstanceAs (Decidable (∃ q, m.state q = .unused ∧ m.pid q = pid))

/-- The slot that `fork` gives back when it fails here. -/
def Pc.givesBack : Pc L K → Option Slot
  | .forkStack np | .forkCopy np => some np
  | _ => none

/-- `kill` is called with no stale pid, and no `fork` fails whose child has been killed. -/
def Machine.Spares (m : Machine C L K) : C × Action L K → Prop
  | (_, .kill pid) => ¬ m.Stale pid
  | (c, .go false) => ∀ np, (m.proc c).bind (fun p => (m.pc p).givesBack) = some np → m.killed np = false
  | _ => True

def Machine.Cleared (m : Machine C L K) : Prop := ∀ q, m.state q = .unused → m.killed q = false

theorem Fails.gives_back {pc : Pc L K} {np : Slot} (fails : Fails pc np) : pc.givesBack = some np := by
  cases fails <;> rfl

theorem kill_hits {pid : BitVec 32} {q : Slot}
    (found : ((List.finRange nproc).find? fun q => m.pid q = pid) = some q) :
    m.pid q = pid ∧ m.killReturns pid = 0 ∧ (m.kill pid).killed = update m.killed q true := by
  refine ⟨by simpa using List.find?_some found, ?_, ?_⟩
  · rw [Machine.killReturns, found]
  · rw [Machine.kill, found]

theorem kill_misses {pid : BitVec 32} (missing : ((List.finRange nproc).find? fun q => m.pid q = pid) = none) :
    (∀ q, m.pid q ≠ pid) ∧ m.killReturns pid = -1 ∧ m.kill pid = m := by
  refine ⟨fun q => by simpa using List.find?_eq_none.mp missing q (List.mem_finRange q), ?_, ?_⟩
  · rw [Machine.killReturns, missing]
  · rw [Machine.kill, missing]

theorem Machine.Cleared.kill (cleared : m.Cleared) {pid : BitVec 32} (fresh : ¬ m.Stale pid) : (m.kill pid).Cleared := by
  intro q unused
  have before := ((kill_woken pid).eq_iff (by simp) (by simp)).mp unused
  cases found : (List.finRange nproc).find? fun q => m.pid q = pid with
  | none =>
      rw [(kill_misses found).2.2]
      exact cleared q before
  | some target =>
      obtain ⟨same, -, killed⟩ := kill_hits found
      have apart : q ≠ target := by
        rintro rfl
        exact fresh ⟨q, before, same⟩
      rw [killed, update_of_ne apart]
      exact cleared q before

variable [DecidableEq C] [DecidableEq L] [DecidableEq K] {c : C} {action : Action L K}

theorem killed_step (moves : Moves m c action next) :
    next.killed = m.killed ∨ (∃ pid, action = .kill pid ∧ next = m.kill pid) ∨
      ∃ q, next.state = update m.state q .unused ∧ next.killed = update m.killed q false := by
  cases moves with
  | kill => exact Or.inr (Or.inl ⟨_, rfl, rfl⟩)
  | @reap p q => exact Or.inr (Or.inr ⟨q, rfl, rfl⟩)
  | exit _ _ other => exact Or.inl (by rw [Machine.goto, (exit_exits other).frame])
  | _ => exact Or.inl rfl

omit [DecidableEq C] [DecidableEq L] [DecidableEq K] in
theorem unused_of_update {q np : Slot} {state : ProcState} (unused : update m.state np state q = .unused) :
    q = np ∧ state = .unused ∨ m.state q = .unused := by
  by_cases same : q = np
  · rw [same, update_self] at unused
    exact Or.inl ⟨same, unused⟩
  · rw [update_of_ne same] at unused
    exact Or.inr unused

theorem unused_step (moves : Moves m c action next) (wf : Wf m) {q : Slot} (unused : next.state q = .unused) :
    m.state q = .unused ∨ (action = .go false ∧ (m.proc c).bind (fun p => (m.pc p).givesBack) = some q) ∨
      next.killed q = false := by
  rcases quiet_or_turns moves wf with quiet | turns
  · exact Or.inl ((quiet.in_use q .unused (by simp)).mp unused)
  · cases turns with
    | fork =>
        rcases unused_of_update unused with ⟨-, born⟩ | before
        · simp at born
        · exact Or.inl before
    | fail runs fails =>
        rcases unused_of_update unused with ⟨rfl, -⟩ | before
        · exact Or.inr (Or.inl ⟨rfl, by rw [runs, Option.bind_some, fails.gives_back]⟩)
        · exact Or.inl before
    | adopt => exact Or.inl unused
    | ready =>
        rcases unused_of_update unused with ⟨-, born⟩ | before
        · simp at born
        · exact Or.inl before
    | exit runs user other unlocked =>
        have exits := exit_exits (m := { m with lock := update m.lock none (some c) }) other
        exact Or.inl ((exits.state_iff (wf.on_running runs (by simp [unlocked])) q (Or.inl rfl)).mp unused)
    | reap =>
        rcases unused_of_update unused with ⟨rfl, -⟩ | before
        · exact Or.inr (Or.inr (by simp [Machine.reap, Machine.goto]))
        · exact Or.inl before

theorem Machine.Cleared.step (cleared : m.Cleared) (wf : Wf m) (moves : Moves m c action next)
    (spares : m.Spares (c, action)) : next.Cleared := by
  rcases killed_step moves with same | ⟨pid, rfl, rfl⟩ | ⟨child, states, killed⟩
  · intro q unused
    rcases unused_step moves wf unused with before | ⟨rfl, back⟩ | free
    · rw [same]
      exact cleared q before
    · rw [same]
      exact spares q back
    · exact free
  · exact cleared.kill spares
  · intro q unused
    by_cases this : q = child
    · rw [killed, this, update_self]
    · rw [states, update_of_ne this] at unused
      rw [killed, update_of_ne this]
      exact cleared q unused

variable [Fintype L] {events : List (C × Action L K)}

theorem cleared_run (spared : Along step (fun _ => Machine.Spares) boot events)
    (reached : run step boot events = some m) : m.Cleared := by
  refine (run_invariant_along (fun _ m => Lawful m ∧ m.Cleared) ⟨lawful_run (run_nil step boot), fun q _ => rfl⟩ ?_
    events m spared reached).2
  intro _ before event after both spares stepped
  exact ⟨both.1.step stepped, both.2.step both.1.wf (moves_of_step stepped) spares⟩

/-- In every run in which no stale pid is killed, and no `fork` fails for a child that has been killed, a
`kill` with a pid that is not stale marks the one process in use with that pid, or fails and changes
nothing, and the slot that `allocproc` takes is not marked. -/
theorem kill_hits_target (reached : run step boot events = some m)
    (spared : Along step (fun _ => Machine.Spares) boot events) (few : m.created < 2 ^ 31) :
    (∀ pid, ¬ m.Stale pid →
      (∃! q, m.state q ≠ .unused ∧ m.pid q = pid) ∧ m.killReturns pid = 0 ∧
          (∀ q, m.state q ≠ .unused → m.pid q = pid →
            (m.kill pid).killed = update m.killed q true) ∨
        (∀ q, m.state q ≠ .unused → m.pid q ≠ pid) ∧ m.killReturns pid = -1 ∧ m.kill pid = m) ∧
    ∀ np forked, m.allocproc = some (np, forked) → forked.killed np = false := by
  have distinct := fun {p q} => ((lawful_run reached).pids few).distinct (p := p) (q := q)
  constructor
  · intro pid fresh
    cases found : (List.finRange nproc).find? fun q => m.pid q = pid with
    | none =>
        obtain ⟨missing, returns, same⟩ := kill_misses found
        exact Or.inr ⟨fun q _ => missing q, returns, same⟩
    | some target =>
        obtain ⟨same, returns, killed⟩ := kill_hits found
        have used : m.state target ≠ .unused := fun unused => fresh ⟨target, unused, same⟩
        have only (q : Slot) (inUse : m.state q ≠ .unused) (equal : m.pid q = pid) : q = target :=
          distinct inUse used (equal.trans same.symm)
        refine Or.inl ⟨⟨target, ⟨used, same⟩, fun q both => only q both.1 both.2⟩, returns, ?_⟩
        intro q inUse equal
        rw [only q inUse equal, killed]
  · intro np forked taken
    obtain ⟨q, found, result⟩ := Option.map_eq_some_iff.mp taken
    obtain ⟨rfl, rfl⟩ := Prod.mk.inj result
    exact cleared_run spared reached q (by simpa using List.find?_some found)

instance (m : Machine C L K) : DecidablePred m.Spares := fun event =>
  match event with
  | (_, .kill pid) => inferInstanceAs (Decidable (¬ m.Stale pid))
  | (c, .go false) => inferInstanceAs (Decidable
      (∀ np, (m.proc c).bind (fun p => (m.pc p).givesBack) = some np → m.killed np = false))
  | (_, .go true) | (_, .preempt) | (_, .acquire _) | (_, .release _) | (_, .wakeup _) | (_, .lockTable)
  | (_, .unlockTable) | (_, .wakeup1 _) | (_, .sleepTable _) | (_, .sleep _ _) | (_, .fork) | (_, .exit)
  | (_, .wait) => .isTrue trivial

/-- `init` forks and kills its child. -/
def initKills : List (Bool × Action Unit Unit) :=
  [(false, .go true), (false, .go true), (false, .go true), (false, .fork), (false, .go true),
    (false, .go true), (false, .go true), (false, .go true), (false, .kill 2)]

theorem kill_hits_target_child : ∃ m, run step boot initKills = some m ∧ m.killReturns 2 = 0 ∧
    ∀ np forked, m.allocproc = some (np, forked) → forked.killed np = false := by
  let m := (run step boot initKills).get (by decide +kernel)
  have reached : run step boot initKills = some m := (Option.some_get _).symm
  obtain ⟨hits, clean⟩ := kill_hits_target reached (alongCheck_sound _ _ _ _ (by decide +kernel))
    (by decide +kernel)
  refine ⟨m, reached, ?_, clean⟩
  rcases hits 2 (by decide +kernel) with ⟨-, returns, -⟩ | ⟨missing, -, -⟩
  · exact returns
  · exact absurd (by decide +kernel) (missing firstChild (by decide +kernel))

/-- `init` calls `kill(0)`. -/
def killsZero : List (Bool × Action Unit Unit) :=
  [(false, .go true), (false, .go true), (false, .go true), (false, .kill 0)]

/-- `kill(0)` reports success and marks a slot that is not in use, and the next child starts marked. -/
theorem kill_hits_unused : ∃ m last forked, run step boot (killsZero.take 3) = some m ∧
    (∀ q, m.state q ≠ .unused → m.pid q ≠ 0) ∧ m.killReturns 0 = 0 ∧
    run step boot killsZero = some last ∧ last.state firstChild = .unused ∧ last.killed firstChild = true ∧
    last.allocproc = some (firstChild, forked) ∧ forked.killed firstChild = true := by
  let m := (run step boot (killsZero.take 3)).get (by decide +kernel)
  let last := (run step boot killsZero).get (by decide +kernel)
  have taken : (last.allocproc).map (fun r => decide (r.1 = firstChild ∧ r.2.killed firstChild = true)) =
      some true := by decide +kernel
  obtain ⟨⟨np, forked⟩, found, both⟩ := Option.map_eq_some_iff.mp taken
  obtain ⟨rfl, marked⟩ := of_decide_eq_true both
  exact ⟨m, last, forked, (Option.some_get _).symm, by decide +kernel, by decide +kernel,
    (Option.some_get _).symm, by decide +kernel, by decide +kernel, found, marked⟩

end OsLabs.Proc
