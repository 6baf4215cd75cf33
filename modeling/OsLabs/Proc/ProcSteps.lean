import OsLabs.Proc.ProcCore

/-!
What a step of the process table can do, one case for each kind of step.
-/

namespace OsLabs.Proc

open Function

variable {C L K : Type*}

def Pc.inTable : Pc L K → Bool
  | .table | .forkret | .exitSched | .waitScan | .sleepRelease _ _ | .sleepMark _ _ | .sleepSched _
  | .sleepBack _ | .yieldSched _ | .yieldBack _ => true
  | _ => false

def Pc.runsAs : Pc L K → ProcState
  | .exitSched => .zombie
  | .sleepSched _ => .sleeping
  | .yieldSched _ => .runnable
  | _ => .running

def Pc.returns : Pc L K → Option (Pc L K)
  | .exitSched => some .gone
  | .sleepSched back => some (.sleepBack back)
  | .yieldSched interrupted => some (.yieldBack interrupted)
  | _ => none

def Pc.resumes : Pc L K → Bool
  | .forkret | .sleepBack _ | .yieldBack _ => true
  | _ => false

def Pc.needs : Pc L K → Option L
  | .sleepEnter _ l | .sleepRelease _ l => some l
  | _ => none

def Pc.forks : Pc L K → Option Slot
  | .forkStack np | .forkCopy np | .forkParent np | .forkReady np => some np
  | .yieldSched interrupted | .yieldBack interrupted => interrupted.forks
  | _ => none

inductive Enters : Action L K → Pc L K → Pc L K → Prop
  | table : Enters .lockTable .user .table
  | wait : Enters .wait .user .waitScan
  | sleep {ok chan l} : Enters (.go ok) (.sleepEnter chan l) (.sleepRelease chan l)

inductive Leaves : Action L K → Pc L K → Pc L K → Prop
  | table : Leaves .unlockTable .table .user
  | forkret {ok} : Leaves (.go ok) .forkret .user
  | wait {ok} : Leaves (.go ok) .waitScan .user
  | sleep {ok l} : Leaves (.go ok) (.sleepBack (.relock l)) (.sleepAcquire l)
  | yield {ok interrupted} : Leaves (.go ok) (.yieldBack interrupted) interrupted

inductive Shifts : Action L K → Pc L K → Pc L K → Prop
  | forkCopy {np} : Shifts (.go true) (.forkCopy np) (.forkParent np)
  | sleepTable {ok} : Shifts (.go ok) (.sleepBack .table) .table
  | sleepWait {ok} : Shifts (.go ok) (.sleepBack .wait) .waitScan

inductive Calls (lock : Option L → Option C) (c : C) (p : Slot) : Action L K → Pc L K → Pc L K → Prop
  | table {chan} : Calls lock c p (.sleepTable chan) .table (.sleepMark chan .table)
  | wait {ok} : Calls lock c p (.go ok) .waitScan (.sleepMark (.proc p) .wait)
  | lock {chan l} (held : lock (some l) = some c) :
      Calls lock c p (.sleep chan l) .user (.sleepEnter chan l)

inductive Fails : Pc L K → Slot → Prop
  | stack {np} : Fails (.forkStack np) np
  | copy {np} : Fails (.forkCopy np) np

@[simp] theorem setState_state (m : Machine C L K) (p : Slot) (state : ProcState) :
    (m.setState p state).state = update m.state p state := rfl

@[simp] theorem goto_pc (m : Machine C L K) (p : Slot) (pc : Pc L K) :
    (m.goto p pc).pc = update m.pc p pc := rfl

section Waking

def Woken (before after : Slot → ProcState) : Prop :=
  ∀ q, after q = before q ∨ before q = .sleeping ∧ after q = .runnable

theorem Woken.trans {before middle after : Slot → ProcState} (first : Woken before middle)
    (second : Woken middle after) : Woken before after := by
  intro q
  rcases first q with same | woke <;> rcases second q with same' | woke'
  · exact Or.inl (same'.trans same)
  · exact Or.inr ⟨same ▸ woke'.1, woke'.2⟩
  · exact Or.inr ⟨woke.1, same'.trans woke.2⟩
  · simp [woke'.1] at woke

theorem Woken.eq_iff {before after : Slot → ProcState} (woken : Woken before after) {q : Slot}
    {state : ProcState} (awake : state ≠ .sleeping) (waiting : state ≠ .runnable) :
    after q = state ↔ before q = state := by
  rcases woken q with same | ⟨slept, runs⟩
  · rw [same]
  · rw [slept, runs]
    exact ⟨fun equal => absurd equal.symm waiting, fun equal => absurd equal.symm awake⟩

theorem Woken.not_sleeping {before after : Slot → ProcState} (woken : Woken before after) {q : Slot}
    (awake : before q ≠ .sleeping) : after q ≠ .sleeping := by
  rcases woken q with same | ⟨slept, -⟩
  · rwa [same]
  · exact absurd slept awake

variable [DecidableEq K] {m next last : Machine C L K} {p q : Slot}

theorem wakeup1_woken (chan : Chan K) : Woken m.state (m.wakeup1 chan).state := by
  intro q
  by_cases sleeps : m.state q = .sleeping ∧ m.chan q = some chan
  · exact Or.inr ⟨sleeps.1, if_pos sleeps⟩
  · exact Or.inl (if_neg sleeps)

theorem wakeup1_wakes {chan : Chan K} (waits : m.chan q = some chan) :
    (m.wakeup1 chan).state q ≠ .sleeping := by
  by_cases sleeps : m.state q = .sleeping
  · simp [Machine.wakeup1, sleeps, waits]
  · simp [Machine.wakeup1, sleeps]

omit [DecidableEq K] in
theorem kill_woken (pid : BitVec 32) : Woken m.state (m.kill pid).state := by
  intro q
  rw [Machine.kill]
  split
  · rename_i target found
    dsimp only
    split
    · rename_i sleeps
      by_cases self : q = target
      · subst self
        exact Or.inr ⟨sleeps, update_self _ _ _⟩
      · exact Or.inl (update_of_ne self _ _)
    · exact Or.inl rfl
  · exact Or.inl rfl

omit [DecidableEq K] in
theorem kill_frame (pid : BitVec 32) :
    m.kill pid = { m with killed := (m.kill pid).killed, state := (m.kill pid).state } := by
  rw [Machine.kill]
  split <;> rfl

structure Abandons (m : Machine C L K) (p : Slot) (slots : List Slot) (next : Machine C L K) : Prop where
  frame : next = { m with parent := next.parent, state := next.state }
  parent : ∀ q, next.parent q = if q ∈ slots ∧ m.parent q = some p then some initproc else m.parent q
  woken : Woken m.state next.state
  orphans : ∀ z ∈ slots, m.parent z = some p → m.state z = .zombie →
    ∀ q, m.chan q = some (.proc initproc) → next.state q ≠ .sleeping

theorem abandon_abandons (q : Slot) : Abandons m p [q] (m.abandon p q) := by
  by_cases child : m.parent q = some p
  · have parents (r : Slot) : update m.parent q (some initproc) r =
        if r ∈ [q] ∧ m.parent r = some p then some initproc else m.parent r := by
      by_cases same : r = q
      · subst same
        simp [child]
      · simp [same]
    by_cases dead : m.state q = .zombie
    · simp only [Machine.abandon, child, dead, if_pos]
      refine ⟨rfl, parents, wakeup1_woken _, ?_⟩
      intro z _ _ _ r waits
      exact wakeup1_wakes waits
    · simp only [Machine.abandon, child, dead, if_pos, if_false]
      refine ⟨rfl, parents, fun r => Or.inl rfl, ?_⟩
      intro z inside _ zombie
      rw [List.mem_singleton.mp inside] at zombie
      exact absurd zombie dead
  · simp only [Machine.abandon, child, if_false]
    refine ⟨rfl, ?_, fun r => Or.inl rfl, ?_⟩
    · intro r
      split
      · rename_i both
        rw [List.mem_singleton.mp both.1] at both
        exact absurd both.2 child
      · rfl
    · intro z inside parent
      rw [List.mem_singleton.mp inside] at parent
      exact absurd parent child

omit [DecidableEq K] in
theorem Abandons.trans {first second : List Slot} (other : p ≠ initproc)
    (early : Abandons m p first next) (late : Abandons next p second last) :
    Abandons m p (first ++ second) last := by
  refine ⟨?_, ?_, early.woken.trans late.woken, ?_⟩
  · rw [late.frame, early.frame]
  · intro q
    rw [late.parent, early.parent]
    by_cases child : m.parent q = some p <;> by_cases seen : q ∈ first <;>
      simp [child, seen, Ne.symm other]
  · intro z inside parent dead q waits
    rcases List.mem_append.mp inside with before | after
    · exact late.woken.not_sleeping (early.orphans z before parent dead q waits)
    · by_cases seen : z ∈ first
      · exact late.woken.not_sleeping (early.orphans z seen parent dead q waits)
      · refine late.orphans z after ?_ ?_ q ?_
        · rw [early.parent, if_neg fun both => seen both.1, parent]
        · exact (early.woken.eq_iff (by simp) (by simp)).mpr dead
        · rw [early.frame]
          exact waits

theorem foldl_abandons (other : p ≠ initproc) (slots : List Slot) :
    Abandons m p slots (slots.foldl (fun m q => m.abandon p q) m) := by
  induction slots generalizing m with
  | nil => exact ⟨rfl, fun q => by simp, fun q => Or.inl rfl, by simp⟩
  | cons q rest ih => exact (abandon_abandons q).trans other ih

structure Exits (m : Machine C L K) (p : Slot) (next : Machine C L K) : Prop where
  frame : next = { m with parent := next.parent, state := next.state }
  parent : ∀ q, next.parent q = if m.parent q = some p then some initproc else m.parent q
  zombie : next.state p = .zombie
  woken : ∀ q, q ≠ p → next.state q = m.state q ∨ m.state q = .sleeping ∧ next.state q = .runnable
  waiting : ∀ parent q, m.parent p = some parent → m.chan q = some (.proc parent) →
    next.state q ≠ .sleeping
  orphans : ∀ z, m.parent z = some p → m.state z = .zombie →
    ∀ q, m.chan q = some (.proc initproc) → next.state q ≠ .sleeping

theorem exit_start (m : Machine C L K) (p : Slot) : ∃ start,
    m.exit p = ((List.finRange nproc).foldl (fun m q => m.abandon p q) start).setState p .zombie ∧
      (m.parent p = none ∧ start = m ∨ ∃ parent, m.parent p = some parent ∧ start = m.wakeup1 (.proc parent)) := by
  cases child : m.parent p with
  | none => exact ⟨m, by rw [Machine.exit, child], Or.inl ⟨rfl, rfl⟩⟩
  | some parent => exact ⟨m.wakeup1 (.proc parent), by rw [Machine.exit, child], Or.inr ⟨parent, rfl, rfl⟩⟩

theorem exit_exits (other : p ≠ initproc) : Exits m p (m.exit p) := by
  obtain ⟨start, exited, begins⟩ := exit_start m p
  have frame : start = { m with state := start.state } := by
    rcases begins with ⟨-, rfl⟩ | ⟨parent, -, rfl⟩ <;> rfl
  have parents : start.parent = m.parent := by rw [frame]
  have chans : start.chan = m.chan := by rw [frame]
  have wakes : Woken m.state start.state := by
    rcases begins with ⟨-, rfl⟩ | ⟨parent, -, rfl⟩
    · exact fun q => Or.inl rfl
    · exact wakeup1_woken _
  have calls (parent q : Slot) (child : m.parent p = some parent) (waits : m.chan q = some (.proc parent)) :
      start.state q ≠ .sleeping := by
    rcases begins with ⟨none, -⟩ | ⟨parent', child', rfl⟩
    · simp [child] at none
    · obtain rfl := Option.some.inj (child.symm.trans child')
      exact wakeup1_wakes waits
  have abandons := foldl_abandons (m := start) other (List.finRange nproc)
  generalize (List.finRange nproc).foldl (fun m q => m.abandon p q) start = loop at exited abandons
  have zombie (q : Slot) (slept : loop.state q ≠ .sleeping) : (m.exit p).state q ≠ .sleeping := by
    rw [exited, setState_state]
    by_cases self : q = p
    · subst self
      simp
    · rwa [update_of_ne self]
  refine ⟨?_, ?_, ?_, ?_, ?_, ?_⟩
  · rw [exited, abandons.frame, frame]
    rfl
  · intro q
    have same : (m.exit p).parent q = loop.parent q := by
      rw [exited]
      rfl
    rw [same, abandons.parent, parents]
    simp
  · rw [exited]
    exact update_self _ _ _
  · intro q differs
    have same : (m.exit p).state q = loop.state q := by
      rw [exited]
      exact update_of_ne differs _ _
    rw [same]
    exact wakes.trans abandons.woken q
  · intro parent q child waits
    exact zombie q (abandons.woken.not_sleeping (calls parent q child waits))
  · intro z child dead q waits
    refine zombie q (abandons.orphans z (List.mem_finRange z) (by rw [parents, child]) ?_ q
      (by rw [chans, waits]))
    exact (wakes.eq_iff (by simp) (by simp)).mpr dead

end Waking

variable [DecidableEq C] [DecidableEq L] [DecidableEq K]

def Pc.chanAfter (pc : Pc L K) (chan : Option (Chan K)) : Option (Chan K) :=
  match pc with
  | .sleepBack _ => none
  | _ => chan

inductive Moves (m : Machine C L K) (c : C) : Action L K → Machine C L K → Prop
  | acquire {l} (open' : m.interruptible c = true) (unlocked : m.lock (some l) = none) :
      Moves m c (.acquire l) { m with lock := update m.lock (some l) (some c) }
  | release {l} (open' : m.interruptible c = true) (locked : m.lock (some l) = some c) :
      Moves m c (.release l) { m with lock := update m.lock (some l) none }
  | wakeup {chan} (open' : m.interruptible c = true) (unlocked : m.lock none = none) :
      Moves m c (.wakeup chan) (m.wakeup1 chan)
  | startScan {ok} (idle : m.proc c = none) (outside : m.scan c = none) (unlocked : m.lock none = none) :
      Moves m c (.go ok) { m with
        lock := update m.lock none (some c)
        scan := update m.scan c (some 0) }
  | pick {ok start q} (idle : m.proc c = none) (inside : m.scan c = some start)
      (ready : m.state q = .runnable) :
      Moves m c (.go ok) { m.setState q .running with
        proc := update m.proc c (some q)
        scan := update m.scan c none }
  | endScan {ok start} (idle : m.proc c = none) (inside : m.scan c = some start)
      (locked : m.lock none = some c) :
      Moves m c (.go ok) { m with
        lock := update m.lock none none
        scan := update m.scan c none }
  | enter {p action pc} (runs : m.proc c = some p) (enters : Enters action (m.pc p) pc)
      (unlocked : m.lock none = none) :
      Moves m c action { m.goto p pc with lock := update m.lock none (some c) }
  | leave {p action pc} (runs : m.proc c = some p) (leaves : Leaves action (m.pc p) pc)
      (locked : m.lock none = some c) (childless : m.pc p = .waitScan → m.zombieChild p = none) :
      Moves m c action { m.goto p pc with
        chan := update m.chan p ((m.pc p).chanAfter (m.chan p))
        lock := update m.lock none none }
  | shift {p action pc} (runs : m.proc c = some p) (shifts : Shifts action (m.pc p) pc) :
      Moves m c action { m.goto p pc with
        chan := update m.chan p ((m.pc p).chanAfter (m.chan p)) }
  | call {p action pc} (runs : m.proc c = some p) (calls : Calls m.lock c p action (m.pc p) pc)
      (childless : m.pc p = .waitScan → m.zombieChild p = none) :
      Moves m c action { m.goto p pc with calls := update m.calls p (m.calls p + 1) }
  | wakeup1 {p chan} (runs : m.proc c = some p) (table : m.pc p = .table) :
      Moves m c (.wakeup1 chan) (m.wakeup1 chan)
  | kill {p pid} (runs : m.proc c = some p) (user : m.pc p = .user) (unlocked : m.lock none = none) :
      Moves m c (.kill pid) (m.kill pid)
  | fork {p np} (runs : m.proc c = some p) (user : m.pc p = .user) (unlocked : m.lock none = none)
      (found : m.state np = .unused) :
      Moves m c .fork { (m.setState np .embryo).goto p (.forkStack np) with
        pid := update m.pid np m.nextpid
        nextpid := m.nextpid + 1
        created := m.created + 1 }
  | forkFull {p} (runs : m.proc c = some p) (user : m.pc p = .user) (unlocked : m.lock none = none) :
      Moves m c .fork m
  | forkStack {p np} (runs : m.proc c = some p) (here : m.pc p = .forkStack np) :
      Moves m c (.go true) ((m.goto np .forkret).goto p (.forkCopy np))
  | forkFail {p np} (runs : m.proc c = some p) (fails : Fails (m.pc p) np) :
      Moves m c (.go false) ((m.setState np .unused).goto p .user)
  | forkParent {p np ok} (runs : m.proc c = some p) (here : m.pc p = .forkParent np) :
      Moves m c (.go ok)
        { m.goto p (.forkReady np) with parent := update m.parent np (some p) }
  | forkReady {p np ok} (runs : m.proc c = some p) (here : m.pc p = .forkReady np)
      (unlocked : m.lock none = none) :
      Moves m c (.go ok) ((m.setState np .runnable).goto p .user)
  | exit {p} (runs : m.proc c = some p) (user : m.pc p = .user) (other : p ≠ initproc)
      (unlocked : m.lock none = none) :
      Moves m c .exit
        (({ m with lock := update m.lock none (some c) }.exit p).goto p .exitSched)
  | sched {p ok back} (runs : m.proc c = some p) (returns : (m.pc p).returns = some back)
      (locked : m.lock none = some c) (only : ∀ l, m.lock (some l) ≠ some c) :
      Moves m c (.go ok) { m.goto p back with
        proc := update m.proc c none
        scan := update m.scan c (some (p + 1)) }
  | reap {p q ok} (runs : m.proc c = some p) (here : m.pc p = .waitScan)
      (found : m.zombieChild p = some q) (locked : m.lock none = some c) :
      Moves m c (.go ok) { (m.reap q).goto p .user with lock := update m.lock none none }
  | sleepRelease {p chan l ok} (runs : m.proc c = some p) (here : m.pc p = .sleepRelease chan l)
      (locked : m.lock (some l) = some c) :
      Moves m c (.go ok) { m.goto p (.sleepMark chan (.relock l)) with
        lock := update m.lock (some l) none }
  | sleepMark {p chan back ok} (runs : m.proc c = some p) (here : m.pc p = .sleepMark chan back) :
      Moves m c (.go ok) { (m.setState p .sleeping).goto p (.sleepSched back) with
        chan := update m.chan p (some chan) }
  | sleepAcquire {p l ok} (runs : m.proc c = some p) (here : m.pc p = .sleepAcquire l)
      (unlocked : m.lock (some l) = none) :
      Moves m c (.go ok) { m.goto p .user with lock := update m.lock (some l) (some c) }
  | preempt {p} (runs : m.proc c = some p) (open' : (m.pc p).interruptible = true)
      (none : ∀ lk, m.lock lk ≠ some c) (unlocked : m.lock Option.none = Option.none) :
      Moves m c .preempt { (m.setState p .runnable).goto p (.yieldSched (m.pc p)) with
        lock := update m.lock Option.none (some c) }

section Inversion

variable {m next : Machine C L K} {c : C} {p : Slot}

omit [DecidableEq C] [DecidableEq K] in
theorem acquire_eq_some {lk : Option L} (taken : m.acquire c lk = some next) :
    m.lock lk = none ∧ next = { m with lock := update m.lock lk (some c) } := by
  rw [Machine.acquire] at taken
  split at taken
  · rename_i unlocked
    exact ⟨unlocked, (Option.some.inj taken).symm⟩
  · simp at taken

omit [DecidableEq K] in
theorem release_eq_some {lk : Option L} (given : m.release c lk = some next) :
    m.lock lk = some c ∧ next = { m with lock := update m.lock lk none } := by
  rw [Machine.release] at given
  split at given
  · rename_i locked
    exact ⟨locked, (Option.some.inj given).symm⟩
  · simp at given

theorem scheduler_moves {ok : Bool} (idle : m.proc c = none) (stepped : m.scheduler c = some next) :
    Moves m c (.go ok) next := by
  rw [Machine.scheduler] at stepped
  split at stepped
  · rename_i outside
    obtain ⟨middle, taken, rfl⟩ := Option.map_eq_some_iff.mp stepped
    obtain ⟨unlocked, rfl⟩ := acquire_eq_some taken
    exact .startScan idle outside unlocked
  · rename_i start inside
    split at stepped
    · rename_i q found
      obtain rfl := Option.some.inj stepped
      have ready := List.find?_some found
      simp only [decide_eq_true_eq] at ready
      exact .pick idle inside ready.2
    · obtain ⟨middle, given, rfl⟩ := Option.map_eq_some_iff.mp stepped
      obtain ⟨locked, rfl⟩ := release_eq_some given
      exact .endScan idle inside locked

theorem leave_moves {action : Action L K} {pc pc' : Pc L K} {middle : Machine C L K}
    (runs : m.proc c = some p) (here : m.pc p = pc) (leaves : Leaves action (m.pc p) pc')
    (keeps : pc.chanAfter (m.chan p) = m.chan p) (scans : pc ≠ .waitScan)
    (given : m.release c none = some middle) : Moves m c action (middle.goto p pc') := by
  obtain ⟨locked, rfl⟩ := release_eq_some given
  have moved := Moves.leave runs leaves locked fun scan => absurd (here.symm.trans scan) scans
  rw [here, keeps, update_eq_self] at moved
  exact moved

theorem wait_moves {ok : Bool} (runs : m.proc c = some p) (here : m.pc p = .waitScan)
    (stepped : m.wait c p = some next) : Moves m c (.go ok) next := by
  rw [Machine.wait] at stepped
  split at stepped
  · rename_i q found
    obtain ⟨middle, given, rfl⟩ := Option.map_eq_some_iff.mp stepped
    obtain ⟨locked, rfl⟩ := release_eq_some given
    exact .reap runs here found locked
  · rename_i childless
    split at stepped
    · obtain ⟨middle, given, rfl⟩ := Option.map_eq_some_iff.mp stepped
      obtain ⟨locked, rfl⟩ := release_eq_some given
      have leaves : Leaves (.go ok) (m.pc p) .user := by
        rw [here]
        exact .wait
      have keeps : (Pc.waitScan : Pc L K).chanAfter (m.chan p) = m.chan p := rfl
      have moved := Moves.leave runs leaves locked fun _ => childless
      rw [here, keeps, update_eq_self] at moved
      exact moved
    · obtain rfl := Option.some.inj stepped
      exact .call runs (by rw [here]; exact .wait) fun _ => childless

theorem sched_moves [Fintype L] {ok : Bool} {back : Pc L K} (runs : m.proc c = some p)
    (returns : (m.pc p).returns = some back) (stepped : m.sched c p back = some next) :
    Moves m c (.go ok) next := by
  rw [Machine.sched] at stepped
  split at stepped
  · rename_i guard
    obtain rfl := Option.some.inj stepped
    exact .sched runs returns guard.1 guard.2.1
  · simp at stepped

theorem sleepReturn_moves {back : Back L} {ok : Bool} (runs : m.proc c = some p)
    (here : m.pc p = .sleepBack back)
    (stepped : m.sleepReturn c p back = some next) : Moves m c (.go ok) next := by
  cases back with
  | table =>
      obtain rfl := Option.some.inj stepped
      have shifts : Shifts (.go ok) (m.pc p) .table := by
        rw [here]
        exact .sleepTable
      have moved := Moves.shift runs shifts
      rwa [here] at moved
  | wait =>
      obtain rfl := Option.some.inj stepped
      have shifts : Shifts (.go ok) (m.pc p) .waitScan := by
        rw [here]
        exact .sleepWait
      have moved := Moves.shift runs shifts
      rwa [here] at moved
  | relock l =>
      obtain ⟨middle, given, rfl⟩ := Option.map_eq_some_iff.mp stepped
      obtain ⟨locked, rfl⟩ := release_eq_some given
      have leaves : Leaves (.go ok) (m.pc p) (.sleepAcquire l) := by
        rw [here]
        exact .sleep
      have moved := Moves.leave runs leaves locked fun wait => by simp [here] at wait
      rwa [here] at moved

theorem go_moves [Fintype L] {ok : Bool} (runs : m.proc c = some p) (stepped : m.go c p ok = some next) :
    Moves m c (.go ok) next := by
  cases here : m.pc p with
  | user | table | gone => simp [Machine.go, here] at stepped
  | forkStack np =>
      simp only [Machine.go, here] at stepped
      cases ok with
      | true =>
          obtain rfl := Option.some.inj stepped
          exact .forkStack runs here
      | false =>
          obtain rfl := Option.some.inj stepped
          exact .forkFail runs (by rw [here]; exact .stack)
  | forkCopy np =>
      simp only [Machine.go, here] at stepped
      cases ok with
      | true =>
          obtain rfl := Option.some.inj stepped
          have shifts : Shifts (.go true) (m.pc p) (.forkParent np) := by
            rw [here]
            exact .forkCopy
          have keeps : (Pc.forkCopy np : Pc L K).chanAfter (m.chan p) = m.chan p := rfl
          have moved := Moves.shift runs shifts
          rw [here, keeps, update_eq_self] at moved
          exact moved
      | false =>
          obtain rfl := Option.some.inj stepped
          exact .forkFail runs (by rw [here]; exact .copy)
  | forkParent np =>
      simp only [Machine.go, here, Option.some.injEq] at stepped
      subst stepped
      exact .forkParent runs here
  | forkReady np =>
      simp only [Machine.go, here] at stepped
      split at stepped
      · rename_i unlocked
        obtain rfl := Option.some.inj stepped
        exact .forkReady runs here unlocked
      · simp at stepped
  | forkret =>
      simp only [Machine.go, here] at stepped
      obtain ⟨middle, given, rfl⟩ := Option.map_eq_some_iff.mp stepped
      exact leave_moves runs here (by rw [here]; exact .forkret) rfl (by simp) given
  | exitSched =>
      simp only [Machine.go, here] at stepped
      exact sched_moves runs (by rw [here]; rfl) stepped
  | waitScan =>
      simp only [Machine.go, here] at stepped
      exact wait_moves runs here stepped
  | sleepEnter chan l =>
      simp only [Machine.go, here] at stepped
      obtain ⟨middle, taken, rfl⟩ := Option.map_eq_some_iff.mp stepped
      obtain ⟨unlocked, rfl⟩ := acquire_eq_some taken
      exact .enter runs (by rw [here]; exact .sleep) unlocked
  | sleepRelease chan l =>
      simp only [Machine.go, here] at stepped
      obtain ⟨middle, given, rfl⟩ := Option.map_eq_some_iff.mp stepped
      obtain ⟨locked, rfl⟩ := release_eq_some given
      exact .sleepRelease runs here locked
  | sleepMark chan back =>
      simp only [Machine.go, here, Option.some.injEq] at stepped
      subst stepped
      exact .sleepMark runs here
  | sleepSched back =>
      simp only [Machine.go, here] at stepped
      exact sched_moves runs (by rw [here]; rfl) stepped
  | sleepBack back =>
      simp only [Machine.go, here] at stepped
      exact sleepReturn_moves runs here stepped
  | sleepAcquire l =>
      simp only [Machine.go, here] at stepped
      obtain ⟨middle, taken, rfl⟩ := Option.map_eq_some_iff.mp stepped
      obtain ⟨unlocked, rfl⟩ := acquire_eq_some taken
      exact .sleepAcquire runs here unlocked
  | yieldSched interrupted =>
      simp only [Machine.go, here] at stepped
      exact sched_moves runs (by rw [here]; rfl) stepped
  | yieldBack interrupted =>
      simp only [Machine.go, here] at stepped
      obtain ⟨middle, given, rfl⟩ := Option.map_eq_some_iff.mp stepped
      exact leave_moves runs here (by rw [here]; exact .yield) rfl (by simp) given

theorem call_moves [Fintype L] {action : Action L K} (runs : m.proc c = some p)
    (stepped : m.call c p action = some next) : Moves m c action next := by
  cases action with
  | go ok => exact go_moves runs stepped
  | acquire l | release l | wakeup chan => simp [Machine.call] at stepped
  | preempt =>
      simp only [Machine.call] at stepped
      split at stepped
      · rename_i guard
        obtain ⟨middle, taken, rfl⟩ := Option.map_eq_some_iff.mp stepped
        obtain ⟨unlocked, rfl⟩ := acquire_eq_some taken
        exact .preempt runs guard.1 guard.2 unlocked
      · simp at stepped
  | lockTable =>
      simp only [Machine.call] at stepped
      split at stepped
      · rename_i user
        obtain ⟨middle, taken, rfl⟩ := Option.map_eq_some_iff.mp stepped
        obtain ⟨unlocked, rfl⟩ := acquire_eq_some taken
        exact .enter runs (by rw [user]; exact .table) unlocked
      · simp at stepped
  | unlockTable =>
      simp only [Machine.call] at stepped
      split at stepped
      · rename_i table
        obtain ⟨middle, given, rfl⟩ := Option.map_eq_some_iff.mp stepped
        exact leave_moves runs table (by rw [table]; exact .table) rfl (by simp) given
      · simp at stepped
  | wakeup1 chan =>
      simp only [Machine.call] at stepped
      split at stepped
      · rename_i table
        obtain rfl := Option.some.inj stepped
        exact .wakeup1 runs table
      · simp at stepped
  | sleepTable chan =>
      simp only [Machine.call] at stepped
      split at stepped
      · rename_i table
        obtain rfl := Option.some.inj stepped
        exact .call runs (by rw [table]; exact .table) fun wait => by simp [table] at wait
      · simp at stepped
  | sleep chan l =>
      simp only [Machine.call] at stepped
      split at stepped
      · rename_i guard
        obtain rfl := Option.some.inj stepped
        exact .call runs (by rw [guard.1]; exact .lock guard.2) fun wait => by simp [guard.1] at wait
      · simp at stepped
  | kill pid =>
      simp only [Machine.call] at stepped
      split at stepped
      · rename_i guard
        obtain rfl := Option.some.inj stepped
        exact .kill runs guard.1 guard.2
      · simp at stepped
  | fork =>
      simp only [Machine.call] at stepped
      split at stepped
      · rename_i guard
        split at stepped
        · rename_i np allocated found
          obtain rfl := Option.some.inj stepped
          obtain ⟨np', search, same⟩ := Option.map_eq_some_iff.mp found
          obtain ⟨rfl, rfl⟩ := Prod.mk.inj same
          have unused := List.find?_some search
          simp only [decide_eq_true_eq] at unused
          exact .fork runs guard.1 guard.2 unused
        · obtain rfl := Option.some.inj stepped
          exact .forkFull runs guard.1 guard.2
      · simp at stepped
  | exit =>
      simp only [Machine.call] at stepped
      split at stepped
      · rename_i guard
        obtain ⟨middle, taken, rfl⟩ := Option.map_eq_some_iff.mp stepped
        obtain ⟨unlocked, rfl⟩ := acquire_eq_some taken
        exact .exit runs guard.1 guard.2 unlocked
      · simp at stepped
  | wait =>
      simp only [Machine.call] at stepped
      split at stepped
      · rename_i user
        obtain ⟨middle, taken, rfl⟩ := Option.map_eq_some_iff.mp stepped
        obtain ⟨unlocked, rfl⟩ := acquire_eq_some taken
        exact .enter runs (by rw [user]; exact .wait) unlocked
      · simp at stepped

theorem moves_of_step [Fintype L] {event : C × Action L K} (stepped : step m event = some next) :
    Moves m event.1 event.2 next := by
  obtain ⟨c, action⟩ := event
  cases action with
  | acquire l =>
      simp only [step] at stepped
      split at stepped
      · rename_i allowed
        obtain ⟨unlocked, rfl⟩ := acquire_eq_some stepped
        exact .acquire allowed unlocked
      · simp at stepped
  | release l =>
      simp only [step] at stepped
      split at stepped
      · rename_i allowed
        obtain ⟨locked, rfl⟩ := release_eq_some stepped
        exact .release allowed locked
      · simp at stepped
  | wakeup chan =>
      simp only [step] at stepped
      split at stepped
      · rename_i allowed
        obtain rfl := Option.some.inj stepped
        exact .wakeup allowed.1 allowed.2
      · simp at stepped
  | go ok =>
      cases runs : m.proc c with
      | some p =>
          simp only [step, runs] at stepped
          exact call_moves runs stepped
      | none =>
          simp only [step, runs] at stepped
          exact scheduler_moves runs stepped
  | _ =>
      cases runs : m.proc c with
      | some p =>
          simp only [step, runs] at stepped
          exact call_moves runs stepped
      | none => simp [step, runs] at stepped

end Inversion

end OsLabs.Proc
