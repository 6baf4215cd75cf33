import OsLabs.Proc.ProcTree

/-!
`proc.c` does not panic. Code that calls it holds no spin lock but the one it passes to `sleep`;
then a CPU inside it takes its next step or waits for a lock.
-/

namespace OsLabs.Proc

open Function (update update_of_ne update_self)
open Runs

variable {C L K : Type*}

/-- The locks besides `ptable.lock` that may be held at a place that leads to `sched`. -/
def Pc.limit : Pc L K → Option (Option L)
  | .sleepEnter _ l | .sleepRelease _ l => some (some l)
  | .exitSched | .waitScan | .sleepMark _ _ | .sleepSched _ | .sleepBack _ | .yieldSched _ => some none
  | _ => none

namespace Machine

variable (m : Machine C L K) (c : C)

def limit : Option (Option L) :=
  match m.proc c with
  | some p => (m.pc p).limit
  | none => (m.scan c).map fun _ => none

/-- CPU `c` holds no spin lock but `ptable.lock` and `limit`. -/
def Holds (limit : Option L) : Prop := ∀ l, m.lock (some l) = some c → limit = some l

/-- The callers of `sleep`, `wait` and `exit` hold no other spin lock, nor does a CPU that enters its scheduler. -/
def Keeps : C × Action L K → Prop
  | (c, .sleep _ l) => m.Holds c (some l)
  | (c, .sleepTable _) | (c, .wait) | (c, .exit) => m.Holds c none
  | (c, .go _) => m.proc c = none → m.scan c = none → m.Holds c none
  | _ => True

instance decidableHolds [DecidableEq C] [DecidableEq L] [Fintype L] (limit : Option L) : Decidable (m.Holds c limit) :=
  inferInstanceAs (Decidable (∀ l, m.lock (some l) = some c → limit = some l))

instance decidableKeeps [DecidableEq C] [DecidableEq L] [Fintype L] : ∀ event, Decidable (m.Keeps event)
  | (c, .sleep _ l) => inferInstanceAs (Decidable (m.Holds c (some l)))
  | (c, .sleepTable _) | (c, .wait) | (c, .exit) => inferInstanceAs (Decidable (m.Holds c none))
  | (c, .go _) => inferInstanceAs (Decidable (m.proc c = none → m.scan c = none → m.Holds c none))
  | (_, .preempt) | (_, .acquire _) | (_, .release _) | (_, .wakeup _) | (_, .lockTable) | (_, .unlockTable)
  | (_, .wakeup1 _) | (_, .kill _) | (_, .fork) => inferInstanceAs (Decidable True)

structure Tidy : Prop where
  holds : ∀ limit, m.limit c = some limit → m.Holds c limit
  present : ∀ p, m.proc c = some p → m.pc p ≠ .gone

end Machine

def Action.limit : Action L K → Option (Option L)
  | .sleep _ l => some (some l)
  | .sleepTable _ | .wait | .exit => some none
  | _ => none

section Places

variable {lock : Option L → Option C} {c : C} {p : Slot} {action : Action L K} {pc pc' : Pc L K} {limit : Option L}

structure Leads (action : Action L K) (pc pc' : Pc L K) : Prop where
  present : pc' ≠ .gone
  limit : ∀ limit, pc'.limit = some limit → pc.limit = some limit ∨ action.limit = some limit

theorem Leads.free (present : pc' ≠ .gone) (free : pc'.limit = none) : Leads action pc pc' := by
  refine ⟨present, fun limit some => ?_⟩
  rw [free] at some
  cases some

theorem Pc.limit_of_interruptible (on : pc.interruptible = true) : pc.limit = none ∧ pc ≠ .gone := by
  cases pc <;> simp_all [Pc.interruptible, Pc.limit]

theorem Pc.limit_of_resumes (waits : pc.resumes = true) :
    pc ≠ .gone ∧ ∀ limit, pc.limit = some limit → limit = none := by
  cases pc <;> simp_all [Pc.resumes, Pc.limit]

theorem Enters.leads (enters : Enters action pc pc') : Leads action pc pc' := by
  cases enters <;> exact ⟨by simp, by simp [Pc.limit, Action.limit]⟩

theorem Leaves.leads (leaves : Leaves action pc pc') (proper : pc.proper = true) : Leads action pc pc' := by
  cases leaves with
  | yield =>
      obtain ⟨free, present⟩ := Pc.limit_of_interruptible proper
      exact .free present free
  | _ => exact .free (by simp) rfl

theorem Shifts.leads (shifts : Shifts action pc pc') : Leads action pc pc' := by
  cases shifts <;> exact ⟨by simp, by simp [Pc.limit]⟩

theorem Calls.leads (calls : Calls lock c p action pc pc') : Leads action pc pc' := by
  cases calls <;> exact ⟨by simp, by simp [Pc.limit, Action.limit]⟩

end Places

variable {m next : Machine C L K} {c c' : C} {p : Slot} {action : Action L K} {limit : Option L}

theorem Machine.Keeps.holds (keeps : m.Keeps (c, action)) (some : action.limit = some limit) : m.Holds c limit := by
  cases action <;> cases some <;> exact keeps

theorem limit_of_interruptible (on : m.interruptible c = true) : m.limit c = none := by
  cases runs : m.proc c with
  | some p =>
      rw [Machine.interruptible, runs] at on
      rw [Machine.limit, runs]
      exact (Pc.limit_of_interruptible on).1
  | none =>
      rw [Machine.interruptible, runs] at on
      rw [Machine.limit, runs, Option.isNone_iff_eq_none.mp on]
      rfl

namespace Machine

theorem Holds.kept (holds : m.Holds c limit) (lock : ∀ l, next.lock (some l) = some c → m.lock (some l) = some c) :
    next.Holds c limit :=
  fun l held => holds l (lock l held)

theorem Tidy.self (tidy : m.Tidy c) (runs : m.proc c = some p) (some : (m.pc p).limit = some limit) : m.Holds c limit :=
  tidy.holds limit (by rw [Machine.limit, runs]; exact some)

theorem Tidy.on {pc : Pc L K} (runs : next.proc c = some p) (here : next.pc p = pc) (present : pc ≠ .gone)
    (holds : ∀ limit, pc.limit = some limit → next.Holds c limit) : next.Tidy c := by
  subst here
  refine ⟨fun limit some => holds limit ?_, fun q there => ?_⟩
  · rwa [Machine.limit, runs] at some
  · rwa [← Option.some.inj (runs.symm.trans there)]

theorem Tidy.moved {pc : Pc L K} (tidy : m.Tidy c) (keeps : m.Keeps (c, action)) (runs : m.proc c = some p)
    (proc : next.proc c = some p) (here : next.pc p = pc) (leads : Leads action (m.pc p) pc)
    (lock : ∀ l, next.lock (some l) = some c → m.lock (some l) = some c) : next.Tidy c := by
  refine .on proc here leads.present fun limit some => Holds.kept ?_ lock
  rcases leads.limit limit some with before | asked
  · exact tidy.self runs before
  · exact keeps.holds asked

end Machine

section Steps

variable [DecidableEq C] [DecidableEq L] [DecidableEq K]

omit [DecidableEq C] [DecidableEq K] in
theorem lock_kept {lk : Option L} {holder : Option C} (lock : next.lock = update m.lock lk holder)
    (differs : lk = none ∨ holder ≠ some c') (l : L) (held : next.lock (some l) = some c') :
    m.lock (some l) = some c' := by
  rw [lock] at held
  by_cases same : some l = lk
  · rw [same, update_self] at held
    rcases differs with table | other
    · simp [table] at same
    · exact absurd held other
  · rwa [update_of_ne same] at held

theorem moves_elsewhere (moves : Moves m c action next) (other : c' ≠ c) :
    next.proc c' = m.proc c' ∧ next.scan c' = m.scan c' ∧
      ∀ l, next.lock (some l) = some c' → m.lock (some l) = some c' := by
  have mine : some c ≠ some c' := fun same => other (Option.some.inj same).symm
  have nobody : none ≠ some c' := (Option.some_ne_none c').symm
  cases moves with
  | kill =>
      rw [kill_frame]
      exact ⟨rfl, rfl, fun _ => id⟩
  | exit _ _ init =>
      have exits := exit_exits (m := { m with lock := update m.lock none (some c) }) init
      exact ⟨by rw [Machine.goto, exits.frame], by rw [Machine.goto, exits.frame],
        lock_kept (by rw [Machine.goto, exits.frame]) (Or.inl rfl)⟩
  | enter | leave | reap | preempt => exact ⟨rfl, rfl, lock_kept rfl (Or.inl rfl)⟩
  | acquire | sleepAcquire => exact ⟨rfl, rfl, lock_kept rfl (Or.inr mine)⟩
  | release | sleepRelease => exact ⟨rfl, rfl, lock_kept rfl (Or.inr nobody)⟩
  | startScan | endScan => exact ⟨rfl, update_of_ne other _ _, lock_kept rfl (Or.inl rfl)⟩
  | pick | sched => exact ⟨update_of_ne other _ _, update_of_ne other _ _, fun _ => id⟩
  | _ => exact ⟨rfl, rfl, fun _ => id⟩

theorem Machine.Tidy.elsewhere (tidy : m.Tidy c') (wf : Wf m) (moves : Moves m c action next) (other : c' ≠ c) :
    next.Tidy c' := by
  obtain ⟨proc, scan, lock⟩ := moves_elsewhere moves other
  cases runs : m.proc c' with
  | none =>
      refine ⟨fun limit some => (tidy.holds limit ?_).kept lock, fun p there => ?_⟩
      · rw [Machine.limit, proc, scan, runs] at some
        rw [Machine.limit, runs]
        exact some
      · simp [proc, runs] at there
  | some p =>
      have off : m.proc c ≠ some p := fun here => other (wf.single runs here)
      have same : next.pc p = m.pc p := by
        rcases (bystander_step moves wf off).pc with same | ⟨embryo, -⟩
        · exact same
        · exact absurd embryo (wf.on_ne_embryo runs)
      exact .on (proc.trans runs) same (tidy.present p runs) fun limit some => (tidy.self runs some).kept lock

theorem Machine.Tidy.own (tidy : m.Tidy c) (wf : Wf m) (keeps : m.Keeps (c, action)) (moves : Moves m c action next) :
    next.Tidy c := by
  cases moves with
  | acquire open' | release open' | wakeup open' =>
      refine ⟨fun limit some => ?_, tidy.present⟩
      have free := (limit_of_interruptible open').symm.trans some
      cases free
  | startScan idle outside =>
      refine ⟨fun limit some => ?_, fun p runs => ?_⟩
      · simp only [Machine.limit, idle, update_self, Option.map_some, Option.some.injEq] at some
        subst some
        exact (keeps idle outside).kept (lock_kept rfl (Or.inl rfl))
      · simp [idle] at runs
  | pick idle inside ready =>
      have locked : m.lock none = some c := by
        rw [wf.table, Machine.inTable, idle, inside]
        rfl
      obtain ⟨present, none⟩ := Pc.limit_of_resumes (wf.resumes_of_ready idle locked ready)
      refine .on (update_self _ _ _) rfl present fun limit some => ?_
      rw [none limit some]
      exact tidy.holds .none (by rw [Machine.limit, idle, inside]; rfl)
  | endScan idle =>
      refine ⟨fun limit some => ?_, fun p runs => ?_⟩
      · simp [Machine.limit, idle] at some
      · simp [idle] at runs
  | enter runs enters =>
      exact tidy.moved keeps runs runs (update_self _ _ _) enters.leads (lock_kept rfl (Or.inl rfl))
  | leave runs leaves =>
      exact tidy.moved keeps runs runs (update_self _ _ _) (leaves.leads (wf.proper _)) (lock_kept rfl (Or.inl rfl))
  | shift runs shifts => exact tidy.moved keeps runs runs (update_self _ _ _) shifts.leads fun _ => id
  | call runs calls => exact tidy.moved keeps runs runs (update_self _ _ _) calls.leads fun _ => id
  | wakeup1 => exact ⟨tidy.holds, tidy.present⟩
  | forkFull => exact tidy
  | kill =>
      rw [kill_frame]
      exact ⟨tidy.holds, tidy.present⟩
  | fork runs | forkStack runs | forkFail runs | forkParent runs | forkReady runs =>
      exact tidy.moved keeps runs runs (update_self _ _ _) (.free (by simp) rfl) fun _ => id
  | reap runs => exact tidy.moved keeps runs runs (update_self _ _ _) (.free (by simp) rfl) (lock_kept rfl (Or.inl rfl))
  | exit runs user init =>
      have exits := exit_exits (m := { m with lock := update m.lock none (some c) }) init
      refine tidy.moved keeps runs ?_ (update_self _ _ _) ⟨by simp, fun limit some => Or.inr some⟩
        (lock_kept (by rw [Machine.goto, exits.frame]) (Or.inl rfl))
      rw [Machine.goto, exits.frame]
      exact runs
  | sched runs returns locked only =>
      refine ⟨fun limit some l held => absurd held (only l), fun p there => ?_⟩
      simp at there
  | sleepRelease runs here locked =>
      refine .on runs (update_self _ _ _) (by simp) fun limit some l held => ?_
      have kept := lock_kept rfl (Or.inr (Option.some_ne_none c).symm) l held
      have only := tidy.self runs (by rw [here]; rfl) l kept
      simp [Option.some.inj only] at held
  | sleepMark runs here =>
      exact tidy.moved keeps runs runs (update_self _ _ _) ⟨by simp, fun limit some => Or.inl (by rw [here]; exact some)⟩
        fun _ => id
  | sleepAcquire runs => exact .on runs (update_self _ _ _) (by simp) fun limit some => by cases some
  | preempt runs open' none =>
      refine .on runs (update_self _ _ _) (by simp) fun limit some l held => ?_
      exact absurd (lock_kept rfl (Or.inl rfl) l held) (none _)

theorem tidy_step (tidy : ∀ c, m.Tidy c) (wf : Wf m) (keeps : m.Keeps (c, action))
    (moves : Moves m c action next) (c' : C) : next.Tidy c' := by
  by_cases self : c' = c
  · subst self
    exact (tidy c').own wf keeps moves
  · exact (tidy c').elsewhere wf moves self

variable [Fintype L]

end Steps

end OsLabs.Proc
