import OsLabs.Proc.ProcSleep

/-!
The life cycle of processes: who is whose parent, which pids are in use, and how a process that has
exited is waited for.
-/

namespace OsLabs.Proc

open Function (update update_of_ne update_self)
open Runs

variable {C L K : Type*}

def Pc.stage : Pc L K → Option (Slot × Bool)
  | .forkStack np | .forkCopy np | .forkParent np => some (np, false)
  | .forkReady np => some (np, true)
  | .yieldSched interrupted | .yieldBack interrupted => interrupted.stage
  | _ => none

/-- Inside the `sleep` of `wait`, from the mark on. -/
def Pc.waiting : Pc L K → Bool
  | .sleepSched .wait | .sleepBack .wait => true
  | _ => false

def Machine.alive (m : Machine C L K) (p : Slot) : Prop :=
  m.state p = .sleeping ∨ m.state p = .runnable ∨ m.state p = .running

def Machine.Childless (m : Machine C L K) (p : Slot) : Prop :=
  ∀ q, m.parent q = some p → m.state q ≠ .zombie

section Places

variable {action : Action L K} {pc pc' : Pc L K} {c : C} {p : Slot} {lock : Option L → Option C}

theorem Pc.forks_of_stage {np : Slot} {set : Bool} (stage : pc.stage = some (np, set)) :
    pc.forks = some np := by
  induction pc with
  | yieldSched interrupted ih | yieldBack interrupted ih => exact ih stage
  | forkStack _ | forkCopy _ | forkParent _ | forkReady _ => simp_all [Pc.stage, Pc.forks]
  | _ => simp [Pc.stage] at stage

theorem Enters.stage_eq (enters : Enters action pc pc') : pc'.stage = pc.stage := by
  cases enters <;> rfl

theorem Leaves.stage_eq (leaves : Leaves action pc pc') : pc'.stage = pc.stage := by
  cases leaves <;> rfl

theorem Shifts.stage_eq (shifts : Shifts action pc pc') : pc'.stage = pc.stage := by
  cases shifts <;> rfl

theorem Calls.stage_eq (calls : Calls lock c p action pc pc') : pc'.stage = pc.stage := by
  cases calls <;> rfl

theorem Enters.not_waiting (enters : Enters action pc pc') :
    (∀ chan, pc' ≠ .sleepMark chan .wait) ∧ pc'.waiting = false := by
  cases enters <;> simp [Pc.waiting]

theorem Leaves.not_waiting (leaves : Leaves action pc pc') (proper : pc.proper = true) :
    (∀ chan, pc' ≠ .sleepMark chan .wait) ∧ pc'.waiting = false := by
  cases leaves with
  | yield => cases pc' <;> simp_all [Pc.waiting, Pc.proper, Pc.interruptible]
  | _ => simp [Pc.waiting]

theorem Shifts.not_waiting (shifts : Shifts action pc pc') :
    (∀ chan, pc' ≠ .sleepMark chan .wait) ∧ pc'.waiting = false := by
  cases shifts <;> simp [Pc.waiting]

theorem Calls.marks_wait {chan : Chan K} (calls : Calls lock c p action pc (.sleepMark chan .wait)) :
    pc = .waitScan ∧ chan = .proc p := by
  cases calls
  exact ⟨rfl, rfl⟩

theorem Pc.returns_waiting {back : Pc L K} (returns : pc.returns = some back) :
    (∀ chan, back ≠ .sleepMark chan .wait) ∧ (back.waiting = true → pc.waiting = true) := by
  cases pc <;> simp only [Pc.returns, Option.some.injEq, reduceCtorEq] at returns <;> subst returns <;>
    simp [Pc.waiting]
  rename_i returning
  cases returning <;> simp

theorem Fails.stage_eq {np : Slot} (fails : Fails pc np) : pc.stage = some (np, false) := by
  cases fails <;> rfl

theorem Pc.returns_stage {back : Pc L K} (returns : pc.returns = some back) : back.stage = pc.stage := by
  cases pc <;> simp only [Pc.returns, Option.some.injEq, reduceCtorEq] at returns <;> subst returns <;> rfl

end Places

section Kinds

variable {m next : Machine C L K} {c : C} {action : Action L K}

structure Quiet (m next : Machine C L K) : Prop where
  parent : next.parent = m.parent
  pid : next.pid = m.pid
  nextpid : next.nextpid = m.nextpid
  created : next.created = m.created
  waited : next.waited = m.waited
  life : ∀ q, next.state q = m.state q ∨ m.alive q ∧ next.alive q
  stage : ∀ q, (next.pc q).stage = (m.pc q).stage ∨ (next.pc q).stage = none

theorem life_of_woken (woken : Woken m.state next.state) (q : Slot) :
    next.state q = m.state q ∨ m.alive q ∧ next.alive q := by
  rcases woken q with same | ⟨slept, runs⟩
  · exact Or.inl same
  · exact Or.inr ⟨Or.inl slept, Or.inr (Or.inl runs)⟩

theorem life_of_update {p : Slot} {state : ProcState} (states : next.state = update m.state p state)
    (before : m.alive p) (after : state = .sleeping ∨ state = .runnable ∨ state = .running) (q : Slot) :
    next.state q = m.state q ∨ m.alive q ∧ next.alive q := by
  by_cases same : q = p
  · subst same
    refine Or.inr ⟨before, ?_⟩
    rw [Machine.alive, states, update_self]
    exact after
  · rw [states, update_of_ne same]
    exact Or.inl rfl

theorem stage_of_update {p : Slot} {pc : Pc L K} (pcs : next.pc = update m.pc p pc)
    (kept : pc.stage = (m.pc p).stage) (q : Slot) :
    (next.pc q).stage = (m.pc q).stage ∨ (next.pc q).stage = none := by
  by_cases same : q = p
  · subst same
    rw [pcs, update_self]
    exact Or.inl kept
  · rw [pcs, update_of_ne same]
    exact Or.inl rfl

theorem Wf.on_alive (wf : Wf m) {p : Slot} (runs : m.proc c = some p) (stays : m.pc p ≠ .exitSched) : m.alive p := by
  rw [Machine.alive, wf.onCpu runs]
  cases here : m.pc p <;> simp_all [Pc.runsAs]

variable [DecidableEq L] [DecidableEq K]

inductive Turns (m : Machine C L K) (c : C) : Action L K → Machine C L K → Prop
  | fork {p np} (runs : m.proc c = some p) (found : m.state np = .unused) :
      Turns m c .fork { (m.setState np .embryo).goto p (.forkStack np) with
        pid := update m.pid np m.nextpid
        nextpid := m.nextpid + 1
        created := m.created + 1 }
  | fail {p np} (runs : m.proc c = some p) (fails : Fails (m.pc p) np) :
      Turns m c (.go false) ((m.setState np .unused).goto p .user)
  | adopt {p np ok} (runs : m.proc c = some p) (here : m.pc p = .forkParent np) :
      Turns m c (.go ok) { m.goto p (.forkReady np) with parent := update m.parent np (some p) }
  | ready {p np ok} (runs : m.proc c = some p) (here : m.pc p = .forkReady np) :
      Turns m c (.go ok) ((m.setState np .runnable).goto p .user)
  | exit {p} (runs : m.proc c = some p) (user : m.pc p = .user) (other : p ≠ initproc)
      (unlocked : m.lock none = none) :
      Turns m c .exit (({ m with lock := update m.lock none (some c) }.exit p).goto p .exitSched)
  | reap {p q ok} (runs : m.proc c = some p) (here : m.pc p = .waitScan) (found : m.zombieChild p = some q) :
      Turns m c (.go ok) { (m.reap q).goto p .user with lock := update m.lock none none }

theorem quiet_or_turns [DecidableEq C] (moves : Moves m c action next) (wf : Wf m) :
    Quiet m next ∨ Turns m c action next := by
  cases moves with
  | acquire | release | startScan | endScan | forkFull =>
      exact Or.inl ⟨rfl, rfl, rfl, rfl, rfl, fun _ => Or.inl rfl, fun _ => Or.inl rfl⟩
  | wakeup | wakeup1 =>
      exact Or.inl ⟨rfl, rfl, rfl, rfl, rfl, life_of_woken (wakeup1_woken _), fun _ => Or.inl rfl⟩
  | kill =>
      refine Or.inl ⟨?_, ?_, ?_, ?_, ?_, life_of_woken (kill_woken _), fun _ => Or.inl ?_⟩ <;> rw [kill_frame]
  | pick _ _ ready =>
      exact Or.inl ⟨rfl, rfl, rfl, rfl, rfl, life_of_update rfl (Or.inr (Or.inl ready)) (by simp),
        fun _ => Or.inl rfl⟩
  | enter _ enters =>
      exact Or.inl ⟨rfl, rfl, rfl, rfl, rfl, fun _ => Or.inl rfl, stage_of_update rfl enters.stage_eq⟩
  | leave _ leaves =>
      exact Or.inl ⟨rfl, rfl, rfl, rfl, rfl, fun _ => Or.inl rfl, stage_of_update rfl leaves.stage_eq⟩
  | shift _ shifts =>
      exact Or.inl ⟨rfl, rfl, rfl, rfl, rfl, fun _ => Or.inl rfl, stage_of_update rfl shifts.stage_eq⟩
  | call _ calls =>
      exact Or.inl ⟨rfl, rfl, rfl, rfl, rfl, fun _ => Or.inl rfl, stage_of_update rfl calls.stage_eq⟩
  | sched _ returns =>
      exact Or.inl ⟨rfl, rfl, rfl, rfl, rfl, fun _ => Or.inl rfl,
        stage_of_update rfl (Pc.returns_stage returns)⟩
  | sleepRelease _ here | sleepAcquire _ here =>
      exact Or.inl ⟨rfl, rfl, rfl, rfl, rfl, fun _ => Or.inl rfl, stage_of_update rfl (by rw [here]; rfl)⟩
  | sleepMark runs here =>
      exact Or.inl ⟨rfl, rfl, rfl, rfl, rfl, life_of_update rfl (wf.on_alive runs (by simp [here])) (by simp),
        stage_of_update rfl (by rw [here]; rfl)⟩
  | preempt runs open' =>
      refine Or.inl ⟨rfl, rfl, rfl, rfl, rfl, life_of_update rfl (wf.on_alive runs fun here => ?_) (by simp),
        stage_of_update rfl rfl⟩
      simp [here, Pc.interruptible] at open'
  | @forkStack p np runs here =>
      refine Or.inl ⟨rfl, rfl, rfl, rfl, rfl, fun _ => Or.inl rfl, fun q => ?_⟩
      by_cases self : q = p
      · subst self
        refine Or.inl ?_
        rw [goto_pc, update_self, here]
        rfl
      · rw [goto_pc, update_of_ne self, goto_pc]
        by_cases child : q = np
        · subst child
          rw [update_self]
          exact Or.inr rfl
        · rw [update_of_ne child]
          exact Or.inl rfl
  | fork runs _ _ found => exact Or.inr (.fork runs found)
  | forkFail runs fails => exact Or.inr (.fail runs fails)
  | forkParent runs here => exact Or.inr (.adopt runs here)
  | forkReady runs here => exact Or.inr (.ready runs here)
  | exit runs user other unlocked => exact Or.inr (.exit runs user other unlocked)
  | reap runs here found => exact Or.inr (.reap runs here found)

end Kinds

section Families

variable {m next : Machine C L K} {c : C} {action : Action L K} {p q : Slot}

structure Family (m : Machine C L K) : Prop where
  init : m.alive initproc
  root : m.parent initproc = none
  used : ∀ {p q}, m.parent p = some q → m.state p ≠ .unused
  parent : ∀ {p q}, m.parent p = some q → m.alive q ∧ p ≠ q
  child : ∀ {p}, m.state p ≠ .unused → m.state p ≠ .embryo → p ≠ initproc → ∃ q, m.parent p = some q
  stage : ∀ {p np set}, (m.pc p).stage = some (np, set) → m.parent np = if set then some p else none

theorem boot_family : Family (boot : Machine C L K) := by
  refine ⟨Or.inr (Or.inl rfl), rfl, by simp [boot], by simp [boot], ?_, ?_⟩
  · intro p used _ other
    simp [boot, other] at used
  · intro p np set stage
    by_cases init : p = initproc <;> simp [boot, init, Pc.stage] at stage

theorem Machine.alive.in_use (alive : m.alive p) :
    m.state p ≠ .unused ∧ m.state p ≠ .embryo ∧ m.state p ≠ .zombie := by
  rcases alive with state | state | state <;> simp [state]

theorem Quiet.in_use (quiet : Quiet m next) (q : Slot) (state : ProcState)
    (ends : state = .unused ∨ state = .embryo ∨ state = .zombie) :
    next.state q = state ↔ m.state q = state := by
  rcases quiet.life q with same | ⟨before, after⟩
  · rw [same]
  · have first := before.in_use
    have second := after.in_use
    rcases ends with rfl | rfl | rfl
    · exact iff_of_false second.1 first.1
    · exact iff_of_false second.2.1 first.2.1
    · exact iff_of_false second.2.2 first.2.2

theorem Quiet.alive_iff (quiet : Quiet m next) (q : Slot) (alive : m.alive q) : next.alive q := by
  rcases quiet.life q with same | ⟨-, after⟩
  · rw [Machine.alive, same]
    exact alive
  · exact after

theorem Family.quiet (family : Family m) (quiet : Quiet m next) : Family next := by
  refine ⟨quiet.alive_iff _ family.init, by rw [quiet.parent, family.root], ?_, ?_, ?_, ?_⟩
  · intro p q child
    rw [quiet.parent] at child
    exact fun unused => family.used child ((quiet.in_use p .unused (by simp)).mp unused)
  · intro p q child
    rw [quiet.parent] at child
    exact ⟨quiet.alive_iff q (family.parent child).1, (family.parent child).2⟩
  · intro p used born other
    rw [quiet.parent]
    exact family.child (fun unused => used ((quiet.in_use p .unused (by simp)).mpr unused))
      (fun embryo => born ((quiet.in_use p .embryo (by simp)).mpr embryo)) other
  · intro p np set stage
    rcases quiet.stage p with kept | none
    · rw [quiet.parent]
      exact family.stage (kept ▸ stage)
    · simp [none] at stage

theorem Wf.stage_other (wf : Wf m) {np np' : Slot} {set set' : Bool} (stage : (m.pc p).stage = some (np, set))
    (differs : q ≠ p) (other : (m.pc q).stage = some (np', set')) : np' ≠ np := by
  rintro rfl
  exact differs (wf.owner (Pc.forks_of_stage other) (Pc.forks_of_stage stage))

theorem Family.congr (family : Family m) (parent : next.parent = m.parent) (state : next.state = m.state)
    (pc : next.pc = m.pc) : Family next := by
  cases m
  cases next
  dsimp only at parent state pc
  subst parent state pc
  exact ⟨family.init, family.root, family.used, family.parent, family.child, family.stage⟩

theorem Family.goto (family : Family m) (p : Slot) (pc : Pc L K)
    (stage : ∀ np set, pc.stage = some (np, set) → m.parent np = if set then some p else none) :
    Family (m.goto p pc) := by
  refine ⟨family.init, family.root, family.used, family.parent, family.child, ?_⟩
  intro q np set creates
  rw [goto_pc] at creates
  by_cases self : q = p
  · subst self
    rw [update_self] at creates
    exact stage np set creates
  · rw [update_of_ne self] at creates
    exact family.stage creates

theorem Family.setState (family : Family m) (state : ProcState) (dead : ¬ m.alive q)
    (freed : state = .unused → m.parent q = none)
    (begins : state ≠ .unused → state ≠ .embryo → ∃ p, m.parent q = some p) :
    Family (m.setState q state) := by
  have kept (p : Slot) (alive : m.alive p) : (m.setState q state).alive p := by
    have apart : p ≠ q := by
      rintro rfl
      exact dead alive
    rw [Machine.alive, setState_state, update_of_ne apart]
    exact alive
  refine ⟨kept _ family.init, family.root, ?_, ?_, ?_, family.stage⟩
  · intro p parent child
    rw [setState_state]
    by_cases self : p = q
    · subst self
      rw [update_self]
      intro unused
      have orphan : m.parent p = none := freed unused
      exact absurd (orphan.symm.trans child) (by simp)
    · rw [update_of_ne self]
      exact family.used child
  · intro p parent child
    exact ⟨kept parent (family.parent child).1, (family.parent child).2⟩
  · intro p used born other
    rw [setState_state] at used born
    by_cases self : p = q
    · subst self
      rw [update_self] at used born
      exact begins used born
    · rw [update_of_ne self] at used born
      exact family.child used born other

theorem Family.adopt (family : Family m) (wf : Wf m) {np : Slot} (runs : m.proc c = some p)
    (here : m.pc p = .forkParent np) (state : next.state = m.state)
    (pc : next.pc = update m.pc p (.forkReady np))
    (parent : next.parent = update m.parent np (some p)) : Family next := by
  have stage : (m.pc p).stage = some (np, false) := by rw [here]; rfl
  have embryo : m.state np = .embryo := wf.newborn (Pc.forks_of_stage stage)
  have alive : m.alive p := wf.on_alive runs (by simp [here])
  have apart : np ≠ p := by
    rintro rfl
    exact alive.in_use.2.1 embryo
  have self : next.parent np = some p := by rw [parent, update_self]
  have others (q : Slot) (differs : q ≠ np) : next.parent q = m.parent q := by
    rw [parent, update_of_ne differs]
  refine ⟨by rw [Machine.alive, state]; exact family.init, ?_, ?_, ?_, ?_, ?_⟩
  · rw [others initproc, family.root]
    rintro rfl
    exact family.init.in_use.2.1 embryo
  · intro q r child
    rw [state]
    by_cases same : q = np
    · simp [same, embryo]
    · exact family.used ((others q same).symm.trans child)
  · intro q r child
    rw [Machine.alive, state]
    by_cases same : q = np
    · rw [same, self, Option.some.injEq] at child
      subst same child
      exact ⟨alive, apart⟩
    · exact family.parent ((others q same).symm.trans child)
  · intro q used born other
    rw [state] at used born
    by_cases same : q = np
    · exact ⟨p, same ▸ self⟩
    · rw [others q same]
      exact family.child used born other
  · intro q np' set creates
    rw [pc] at creates
    by_cases same : q = p
    · subst same
      rw [update_self] at creates
      simp only [Pc.stage, Option.some.injEq, Prod.mk.injEq] at creates
      obtain ⟨rfl, rfl⟩ := creates
      rw [self, if_pos rfl]
    · rw [update_of_ne same] at creates
      rw [others np' (wf.stage_other stage same creates)]
      exact family.stage creates

theorem Exits.state_iff (exits : Exits m p next) (running : m.state p = .running) (q : Slot)
    {state : ProcState} (ends : state = .unused ∨ state = .embryo) :
    next.state q = state ↔ m.state q = state := by
  by_cases self : q = p
  · rw [self, exits.zombie, running]
    rcases ends with rfl | rfl <;> simp
  · rcases exits.woken q self with same | ⟨slept, ready⟩
    · rw [same]
    · rw [slept, ready]
      rcases ends with rfl | rfl <;> simp

theorem Family.exit (family : Family m) (other : p ≠ initproc) (running : m.state p = .running)
    (user : m.pc p = .user) (exits : Exits m p next) : Family next := by
  have pcs : next.pc = m.pc := by rw [exits.frame]
  have alive (q : Slot) (differs : q ≠ p) (before : m.alive q) : next.alive q := by
    rcases exits.woken q differs with same | ⟨-, ready⟩
    · rw [Machine.alive, same]
      exact before
    · exact Or.inr (Or.inl ready)
  have init : next.alive initproc := alive initproc (Ne.symm other) family.init
  have unused (q : Slot) (free : next.state q = .unused) : m.state q = .unused :=
    (exits.state_iff running q (Or.inl rfl)).mp free
  refine ⟨init, ?_, ?_, ?_, ?_, ?_⟩
  · rw [exits.parent, family.root]
    simp
  · intro q r child free
    rw [exits.parent] at child
    split at child
    · rename_i orphan
      exact family.used orphan (unused q free)
    · exact family.used child (unused q free)
  · intro q r child
    rw [exits.parent] at child
    split at child
    · rename_i orphan
      obtain rfl := Option.some.inj child
      refine ⟨init, ?_⟩
      rintro rfl
      simp [family.root] at orphan
    · rename_i kept
      refine ⟨alive r ?_ (family.parent child).1, (family.parent child).2⟩
      rintro rfl
      exact kept child
  · intro q used born differs
    rw [Ne, exits.state_iff running q (by simp)] at used born
    obtain ⟨r, child⟩ := family.child used born differs
    rw [exits.parent]
    split
    · exact ⟨initproc, rfl⟩
    · exact ⟨r, child⟩
  · intro q np set creates
    rw [pcs] at creates
    have before := family.stage creates
    rw [exits.parent, if_neg, before]
    rw [before]
    intro mine
    cases set with
    | false => simp at mine
    | true =>
        rw [if_pos rfl, Option.some.injEq] at mine
        simp [mine, user, Pc.stage] at creates

theorem Family.reap (family : Family m) (wf : Wf m) (zombie : m.state q = .zombie)
    (state : next.state = update m.state q .unused) (pc : next.pc = m.pc)
    (parent : next.parent = update m.parent q none) : Family next := by
  have alive (p : Slot) (before : m.alive p) : next.alive p := by
    have apart : p ≠ q := by
      rintro rfl
      exact before.in_use.2.2 zombie
    rw [Machine.alive, state, update_of_ne apart]
    exact before
  have kept (p r : Slot) (child : next.parent p = some r) : p ≠ q ∧ m.parent p = some r := by
    rw [parent] at child
    by_cases self : p = q
    · rw [self, update_self] at child
      simp at child
    · rw [update_of_ne self] at child
      exact ⟨self, child⟩
  refine ⟨alive _ family.init, ?_, ?_, ?_, ?_, ?_⟩
  · by_contra some
    obtain ⟨r, child⟩ := Option.ne_none_iff_exists'.mp some
    have before := (kept initproc r child).2
    simp [family.root] at before
  · intro p r child
    rw [state, update_of_ne (kept p r child).1]
    exact family.used (kept p r child).2
  · intro p r child
    have before := family.parent (kept p r child).2
    exact ⟨alive r before.1, before.2⟩
  · intro p used born other
    have apart : p ≠ q := by
      rintro rfl
      simp [state] at used
    rw [state, update_of_ne apart] at used born
    rw [parent, update_of_ne apart]
    exact family.child used born other
  · intro p np set creates
    rw [pc] at creates
    rw [parent, update_of_ne]
    · exact family.stage creates
    · rintro rfl
      simp [wf.newborn (Pc.forks_of_stage creates)] at zombie

variable [DecidableEq L] [DecidableEq K]

theorem Family.turns (family : Family m) (wf : Wf m) (turns : Turns m c action next) : Family next := by
  cases turns with
  | @fork p np runs found =>
      have dead : ¬ m.alive np := fun alive => alive.in_use.1 found
      have orphan : m.parent np = none := by
        by_contra parent
        obtain ⟨q, child⟩ := Option.ne_none_iff_exists'.mp parent
        exact family.used child found
      have begun := family.setState .embryo dead (by simp) (by simp)
      refine (begun.goto p (.forkStack np) fun np' set stage => ?_).congr rfl rfl rfl
      simp only [Pc.stage, Option.some.injEq, Prod.mk.injEq] at stage
      obtain ⟨rfl, rfl⟩ := stage
      exact orphan
  | @fail p np runs fails =>
      have stage := fails.stage_eq
      have embryo := wf.newborn (Pc.forks_of_stage stage)
      have dead : ¬ m.alive np := fun alive => alive.in_use.2.1 embryo
      exact (family.setState .unused dead (fun _ => family.stage stage) (by simp)).goto p .user
        (by simp [Pc.stage])
  | adopt runs here => exact family.adopt wf runs here rfl rfl rfl
  | @ready p np _ runs here =>
      have stage : (m.pc p).stage = some (np, true) := by rw [here]; rfl
      have embryo := wf.newborn (Pc.forks_of_stage stage)
      have dead : ¬ m.alive np := fun alive => alive.in_use.2.1 embryo
      exact (family.setState .runnable dead (by simp) fun _ _ => ⟨p, family.stage stage⟩).goto p .user
        (by simp [Pc.stage])
  | @exit p runs user other unlocked =>
      have running : m.state p = .running := wf.on_running runs (by simp [unlocked])
      have locked : Family { m with lock := update m.lock none (some c) } := family.congr rfl rfl rfl
      exact (locked.exit other running user (exit_exits other)).goto p .exitSched (by simp [Pc.stage])
  | @reap p q _ runs here found =>
      have reaped : Family (m.reap q) := family.reap wf (zombieChild_some found).2 rfl rfl rfl
      exact (reaped.goto p .user (by simp [Pc.stage])).congr rfl rfl rfl

end Families

section Pids

variable {m next : Machine C L K} {c : C} {action : Action L K} {p q : Slot}

structure Pids (m : Machine C L K) : Prop where
  fresh : m.nextpid.toNat = m.created + 1
  bound : ∀ {p}, m.state p ≠ .unused → (m.pid p).toNat ≤ m.created
  distinct : ∀ {p q}, m.state p ≠ .unused → m.state q ≠ .unused → m.pid p = m.pid q → p = q
  old : ∀ pid ∈ m.waited, pid.toNat ≤ m.created
  once : m.waited.Nodup
  pending : ∀ {p}, m.state p ≠ .unused → m.pid p ∉ m.waited

theorem boot_pids : Pids (boot : Machine C L K) := by
  have init (p : Slot) (used : (boot : Machine C L K).state p ≠ .unused) : p = initproc := by
    by_contra other
    simp [boot, other] at used
  refine ⟨rfl, ?_, ?_, by simp [boot], by simp [boot], by simp [boot]⟩
  · intro p used
    simp [boot, init p used]
  · intro p q first second _
    rw [init p first, init q second]

theorem Pids.fewer (pids : Pids m) (pid : next.pid = m.pid) (nextpid : next.nextpid = m.nextpid)
    (created : next.created = m.created) (waited : next.waited = m.waited)
    (used : ∀ p, next.state p ≠ .unused → m.state p ≠ .unused) : Pids next := by
  refine ⟨by rw [nextpid, created, pids.fresh], ?_, ?_, by rw [waited, created]; exact pids.old,
    by rw [waited]; exact pids.once, ?_⟩
  · intro p inUse
    rw [pid, created]
    exact pids.bound (used p inUse)
  · intro p q first second same
    rw [pid] at same
    exact pids.distinct (used p first) (used q second) same
  · intro p inUse
    rw [pid, waited]
    exact pids.pending (used p inUse)

theorem Pids.fork (pids : Pids m) (few : m.created + 1 < 2 ^ 31)
    (state : next.state = update m.state q .embryo)
    (pid : next.pid = update m.pid q m.nextpid) (nextpid : next.nextpid = m.nextpid + 1)
    (created : next.created = m.created + 1) (waited : next.waited = m.waited) : Pids next := by
  have fresh : m.nextpid.toNat = m.created + 1 := pids.fresh
  have self : next.pid q = m.nextpid := by rw [pid, update_self]
  have others (p : Slot) (differs : p ≠ q) (used : next.state p ≠ .unused) :
      next.pid p = m.pid p ∧ m.state p ≠ .unused := by
    rw [state, update_of_ne differs] at used
    exact ⟨by rw [pid, update_of_ne differs], used⟩
  have apart (p : Slot) (differs : p ≠ q) (used : next.state p ≠ .unused) : next.pid p ≠ m.nextpid := by
    intro same
    have low := pids.bound (others p differs used).2
    rw [← (others p differs used).1, same, fresh] at low
    omega
  refine ⟨?_, ?_, ?_, ?_, by rw [waited]; exact pids.once, ?_⟩
  · have one : (1 : BitVec 32).toNat = 1 := rfl
    rw [nextpid, created, BitVec.toNat_add, fresh, one]
    omega
  · intro p used
    rw [created]
    by_cases same : p = q
    · rw [same, self, fresh]
    · rw [(others p same used).1]
      exact Nat.le_succ_of_le (pids.bound (others p same used).2)
  · intro p r first second equal
    by_cases one : p = q <;> by_cases two : r = q
    · rw [one, two]
    · rw [one, self] at equal
      exact absurd equal.symm (apart r two second)
    · rw [two, self] at equal
      exact absurd equal (apart p one first)
    · rw [(others p one first).1, (others r two second).1] at equal
      exact pids.distinct (others p one first).2 (others r two second).2 equal
  · intro x returned
    rw [waited] at returned
    rw [created]
    exact Nat.le_succ_of_le (pids.old x returned)
  · intro p used
    rw [waited]
    by_cases same : p = q
    · rw [same, self]
      intro returned
      have low := pids.old _ returned
      omega
    · rw [(others p same used).1]
      exact pids.pending (others p same used).2

theorem Pids.reap (pids : Pids m) (zombie : m.state q = .zombie)
    (state : next.state = update m.state q .unused) (pid : next.pid = update m.pid q 0)
    (nextpid : next.nextpid = m.nextpid) (created : next.created = m.created)
    (waited : next.waited = m.waited ++ [m.pid q]) : Pids next := by
  have inUse : m.state q ≠ .unused := by simp [zombie]
  have others (p : Slot) (used : next.state p ≠ .unused) :
      p ≠ q ∧ next.pid p = m.pid p ∧ m.state p ≠ .unused := by
    have apart : p ≠ q := by
      rintro rfl
      simp [state] at used
    rw [state, update_of_ne apart] at used
    exact ⟨apart, by rw [pid, update_of_ne apart], used⟩
  refine ⟨by rw [nextpid, created, pids.fresh], ?_, ?_, ?_, ?_, ?_⟩
  · intro p used
    rw [created, (others p used).2.1]
    exact pids.bound (others p used).2.2
  · intro p r first second equal
    rw [(others p first).2.1, (others r second).2.1] at equal
    exact pids.distinct (others p first).2.2 (others r second).2.2 equal
  · intro x returned
    rw [waited, List.mem_append, List.mem_singleton] at returned
    rw [created]
    rcases returned with before | rfl
    · exact pids.old x before
    · exact pids.bound inUse
  · rw [waited, List.nodup_append]
    refine ⟨pids.once, by simp, fun x before y now => ?_⟩
    rw [List.mem_singleton.mp now]
    rintro rfl
    exact pids.pending inUse before
  · intro p used returned
    obtain ⟨apart, same, before⟩ := others p used
    rw [same, waited, List.mem_append, List.mem_singleton] at returned
    rcases returned with already | equal
    · exact pids.pending before already
    · exact apart (pids.distinct before inUse equal)

def Remains (m : Machine C L K) (p : Slot) (pid : BitVec 32) : Prop :=
  m.state p = .zombie ∧ m.pid p = pid ∨ pid ∈ m.waited

theorem Quiet.pids (quiet : Quiet m next) (pids : Pids m) : Pids next :=
  pids.fewer quiet.pid quiet.nextpid quiet.created quiet.waited fun p used unused =>
    used ((quiet.in_use p .unused (by simp)).mpr unused)

theorem Quiet.remains (quiet : Quiet m next) {pid : BitVec 32} (remains : Remains m p pid) :
    Remains next p pid := by
  rcases remains with ⟨zombie, same⟩ | returned
  · exact Or.inl ⟨(quiet.in_use p .zombie (by simp)).mpr zombie, by rw [quiet.pid, same]⟩
  · exact Or.inr (by rwa [quiet.waited])

theorem used_of_update {state : ProcState} (before : m.state q ≠ .unused)
    (used : update m.state q state p ≠ .unused) : m.state p ≠ .unused := by
  by_cases same : p = q
  · rwa [same]
  · rwa [update_of_ne same] at used

variable [DecidableEq L] [DecidableEq K]

theorem Pids.turns (pids : Pids m) (wf : Wf m) (turns : Turns m c action next) (few : next.created < 2 ^ 31) :
    Pids next := by
  cases turns with
  | fork => exact pids.fork few rfl rfl rfl rfl rfl
  | fail runs fails =>
      have embryo := wf.newborn (Pc.forks_of_stage fails.stage_eq)
      exact pids.fewer rfl rfl rfl rfl fun p => used_of_update (by simp [embryo])
  | ready runs here =>
      have embryo := wf.newborn (by rw [here]; rfl)
      exact pids.fewer rfl rfl rfl rfl fun p => used_of_update (by simp [embryo])
  | adopt => exact pids.fewer rfl rfl rfl rfl fun p => id
  | @exit p runs user other unlocked =>
      have exits := exit_exits (m := { m with lock := update m.lock none (some c) }) other
      have running : m.state p = .running := wf.on_running runs (by simp [unlocked])
      refine pids.fewer ?_ ?_ ?_ ?_ fun q used free => used ((exits.state_iff running q (Or.inl rfl)).mpr free)
      · rw [Machine.goto, exits.frame]
      · rw [Machine.goto, exits.frame]
      · rw [Machine.goto, exits.frame]
      · rw [Machine.goto, exits.frame]
  | reap runs here found => exact pids.reap (zombieChild_some found).2 rfl rfl rfl rfl rfl

theorem Remains.turns {pid : BitVec 32} (remains : Remains m p pid) (wf : Wf m) (turns : Turns m c action next) :
    Remains next p pid := by
  rcases remains with ⟨zombie, same⟩ | returned
  · have apart {q : Slot} {state : ProcState} (holds : m.state q = state) (other : state ≠ .zombie) : p ≠ q := by
      rintro rfl
      exact other (holds.symm.trans zombie)
    cases turns with
    | fork runs found =>
        have other := apart found (by simp)
        exact Or.inl ⟨(update_of_ne other _ _).trans zombie, (update_of_ne other _ _).trans same⟩
    | fail runs fails =>
        have other := apart (wf.newborn (Pc.forks_of_stage fails.stage_eq)) (by simp)
        exact Or.inl ⟨(update_of_ne other _ _).trans zombie, same⟩
    | ready runs here =>
        have other := apart (wf.newborn (by rw [here]; rfl)) (by simp)
        exact Or.inl ⟨(update_of_ne other _ _).trans zombie, same⟩
    | adopt => exact Or.inl ⟨zombie, same⟩
    | @exit self runs user other unlocked =>
        have exits := exit_exits (m := { m with lock := update m.lock none (some c) }) other
        have differs := apart (wf.on_running runs (by simp [unlocked])) (by simp)
        refine Or.inl ⟨?_, ?_⟩
        · rcases exits.woken p differs with kept | ⟨slept, -⟩
          · exact kept.trans zombie
          · simp [zombie] at slept
        · rw [Machine.goto, exits.frame]
          exact same
    | @reap self q _ runs here found =>
        by_cases gone : p = q
        · subst gone
          refine Or.inr ?_
          change pid ∈ m.waited ++ [m.pid p]
          simp [same]
        · exact Or.inl ⟨(update_of_ne gone _ _).trans zombie, (update_of_ne gone _ _).trans same⟩
  · refine Or.inr ?_
    cases turns with
    | exit runs user other unlocked =>
        rw [Machine.goto, (exit_exits other).frame]
        exact returned
    | reap => exact List.mem_append_left _ returned
    | _ => exact returned

end Pids

section Waits

variable [DecidableEq C] [DecidableEq L] [DecidableEq K] {m next : Machine C L K} {c : C}
  {action : Action L K} {p q : Slot}

structure Waiting (m : Machine C L K) : Prop where
  marking : ∀ {c p chan}, m.proc c = some p → m.pc p = .sleepMark chan .wait →
    chan = .proc p ∧ m.Childless p
  asleep : ∀ {p}, m.state p = .sleeping → (m.pc p).waiting = true →
    m.chan p = some (.proc p) ∧ m.Childless p

omit [DecidableEq C] [DecidableEq L] [DecidableEq K] in
theorem boot_waiting : Waiting (boot : Machine C L K) := by
  refine ⟨by simp [boot], ?_⟩
  intro p sleeps
  by_cases init : p = initproc <;> simp [boot, init] at sleeps

theorem zombie_step (moves : Moves m c action next) (wf : Wf m) (family : Family m)
    (child : next.parent q = some p) (zombie : next.state q = .zombie) :
    m.parent q = some p ∧ m.state q = .zombie ∨ m.lock none = none ∧ (∃ r, m.proc c = some r ∧ m.pc r = .user) ∧
      ∀ r, m.chan r = some (.proc p) → next.state r ≠ .sleeping := by
  rcases quiet_or_turns moves wf with quiet | turns
  · rw [quiet.parent] at child
    exact Or.inl ⟨child, (quiet.in_use q .zombie (by simp)).mp zombie⟩
  · have before {np : Slot} {state : ProcState} (other : state ≠ .zombie)
        (dead : update m.state np state q = .zombie) : m.state q = .zombie := by
      by_cases same : q = np
      · rw [same, update_self] at dead
        exact absurd dead other
      · rwa [update_of_ne same] at dead
    cases turns with
    | fork | fail | ready => exact Or.inl ⟨child, before (by simp) zombie⟩
    | @adopt self np _ runs here =>
        have embryo : m.state np = .embryo := wf.newborn (by rw [here]; rfl)
        have apart : q ≠ np := by
          rintro rfl
          exact absurd (embryo.symm.trans zombie) (by simp)
        exact Or.inl ⟨(update_of_ne apart _ _).symm.trans child, zombie⟩
    | @reap self r _ runs _ _ =>
        change update m.parent r none q = some p at child
        change update m.state r .unused q = .zombie at zombie
        have apart : q ≠ r := by
          rintro rfl
          simp at zombie
        rw [update_of_ne apart] at child zombie
        exact Or.inl ⟨child, zombie⟩
    | @exit self runs user other unlocked =>
        have exits := exit_exits (m := { m with lock := update m.lock none (some c) }) other
        generalize Machine.exit { m with lock := update m.lock none (some c) } self = ended
          at exits child zombie ⊢
        have parent := (exits.parent q).symm.trans child
        by_cases exited : q = self
        · subst exited
          have kept : m.parent q ≠ some q := fun same => (family.parent same).2 rfl
          rw [if_neg kept] at parent
          exact Or.inr ⟨unlocked, ⟨q, runs, user⟩, fun r waits => exits.waiting p r parent waits⟩
        · have dead : m.state q = .zombie := by
            rcases exits.woken q exited with same | ⟨-, ready⟩
            · exact same.symm.trans zombie
            · exact absurd (ready.symm.trans zombie) (by simp)
          split at parent
          · rename_i orphan
            obtain rfl := Option.some.inj parent
            exact Or.inr ⟨unlocked, ⟨self, runs, user⟩, exits.orphans q orphan dead⟩
          · exact Or.inl ⟨parent, dead⟩

structure WaitStep (m next : Machine C L K) (p : Slot) : Prop where
  marks : ∀ chan, next.pc p = .sleepMark chan .wait →
    m.pc p = .sleepMark chan .wait ∨ m.pc p = .waitScan ∧ chan = .proc p ∧ m.zombieChild p = none
  sleeps : next.state p = .sleeping → (next.pc p).waiting = true →
    (m.state p = .sleeping ∧ (m.pc p).waiting = true ∧ next.chan p = m.chan p) ∨
      ∃ chan, m.pc p = .sleepMark chan .wait ∧ next.chan p = some chan

omit [DecidableEq C] [DecidableEq L] [DecidableEq K] in
theorem WaitStep.moved {pc : Pc L K} (moved : next.pc p = pc) (marks : ∀ chan, pc ≠ .sleepMark chan .wait)
    (waits : pc.waiting = false) : WaitStep m next p := by
  subst moved
  exact ⟨fun chan here => absurd here (marks chan), by simp [waits]⟩

omit [DecidableEq C] [DecidableEq L] [DecidableEq K] in
theorem WaitStep.still (pc : next.pc p = m.pc p) (awake : m.state p = .running) (states : Woken m.state next.state) :
    WaitStep m next p := by
  refine ⟨fun chan here => Or.inl (pc ▸ here), fun sleeps => ?_⟩
  exact absurd sleeps (states.not_sleeping (by simp [awake]))

theorem wait_step (moves : Moves m c action next) (wf : Wf m) (runs : m.proc c = some p) :
    WaitStep m next p := by
  have self {q : Slot} (here : m.proc c = some q) : q = p := Option.some.inj (here.symm.trans runs)
  have interrupted (open' : m.interruptible c = true) : m.state p = .running := by
    rw [Machine.interruptible, runs] at open'
    rw [wf.onCpu runs, (Pc.interruptible_spec open').2.2]
  cases moves with
  | acquire open' | release open' => exact .still rfl (interrupted open') fun _ => Or.inl rfl
  | wakeup open' => exact .still rfl (interrupted open') (wakeup1_woken _)
  | startScan idle | pick idle | endScan idle => simp [runs] at idle
  | wakeup1 there here =>
      obtain rfl := self there
      exact .still rfl (by rw [wf.onCpu runs, here]; rfl) (wakeup1_woken _)
  | kill there here =>
      obtain rfl := self there
      exact .still (by rw [kill_frame]) (by rw [wf.onCpu runs, here]; rfl) (kill_woken _)
  | forkFull there here =>
      obtain rfl := self there
      exact .still rfl (by rw [wf.onCpu runs, here]; rfl) fun _ => Or.inl rfl
  | enter there enters =>
      obtain rfl := self there
      exact .moved (update_self _ _ _) enters.not_waiting.1 enters.not_waiting.2
  | leave there leaves =>
      obtain rfl := self there
      have spec := leaves.not_waiting (wf.proper _)
      exact .moved (update_self _ _ _) spec.1 spec.2
  | shift there shifts =>
      obtain rfl := self there
      exact .moved (update_self _ _ _) shifts.not_waiting.1 shifts.not_waiting.2
  | @call _ _ pc there calls childless =>
      obtain rfl := self there
      refine ⟨fun chan here => Or.inr ?_, fun sleeps => ?_⟩
      · rw [goto_pc, update_self] at here
        subst here
        obtain ⟨scans, same⟩ := calls.marks_wait
        exact ⟨scans, same, childless scans⟩
      · exact absurd ((wf.onCpu runs).symm.trans sleeps) (by simp [calls.spec.1])
  | fork there | forkStack there | forkFail there | forkParent there | forkReady there | exit there | reap there
  | sleepRelease there | sleepAcquire there | preempt there =>
      obtain rfl := self there
      exact .moved (update_self _ _ _) (by simp) rfl
  | @sched _ _ back there returns =>
      obtain rfl := self there
      have spec := Pc.returns_waiting returns
      refine ⟨fun chan here => ?_, fun sleeps waits => Or.inl ⟨sleeps, ?_, rfl⟩⟩
      · exact absurd ((update_self _ _ _).symm.trans here) (spec.1 chan)
      · rw [goto_pc, update_self] at waits
        exact spec.2 waits
  | @sleepMark _ chan back _ there here =>
      obtain rfl := self there
      refine ⟨fun chan' there => ?_, fun _ waits => Or.inr ⟨chan, ?_, update_self _ _ _⟩⟩
      · rw [goto_pc, update_self] at there
        simp at there
      · rw [goto_pc, update_self] at waits
        rw [here]
        cases back <;> simp_all [Pc.waiting]

omit [DecidableEq C] [DecidableEq L] [DecidableEq K] in
theorem childless_of_none (none : m.zombieChild p = none) : m.Childless p := by
  intro q child zombie
  have absent := List.find?_eq_none.mp none q (List.mem_finRange q)
  simp [child, zombie] at absent

theorem proc_step (moves : Moves m c action next) {c' : C} (runs : next.proc c' = some p) :
    m.proc c' = some p ∨ m.state p = .runnable := by
  cases moves with
  | @pick _ _ q idle inside ready =>
      dsimp only at runs
      by_cases same : c' = c
      · rw [same, update_self, Option.some.injEq] at runs
        exact Or.inr (runs ▸ ready)
      · rw [update_of_ne same] at runs
        exact Or.inl runs
  | sched =>
      dsimp only at runs
      by_cases same : c' = c
      · rw [same, update_self] at runs
        simp at runs
      · rw [update_of_ne same] at runs
        exact Or.inl runs
  | kill =>
      rw [kill_frame] at runs
      exact Or.inl runs
  | exit _ _ other =>
      rw [Machine.goto, (exit_exits other).frame] at runs
      exact Or.inl runs
  | _ => exact Or.inl runs

theorem childless_step (moves : Moves m c action next) (wf : Wf m) (family : Family m) (childless : m.Childless p)
    (others : m.lock none = none → (∃ r, m.proc c = some r ∧ m.pc r = .user) →
      ∃ r, m.chan r = some (.proc p) ∧ next.state r = .sleeping) : next.Childless p := by
  intro q child zombie
  rcases zombie_step moves wf family child zombie with ⟨before, dead⟩ | ⟨unlocked, user, awake⟩
  · exact childless q before dead
  · obtain ⟨r, waits, sleeps⟩ := others unlocked user
    exact awake r waits sleeps

theorem Waiting.step (waiting : Waiting m) (wf : Wf m) (family : Family m) (moves : Moves m c action next) :
    Waiting next := by
  have own (p : Slot) (runs : m.proc c = some p) (here : m.pc p ≠ .user)
      (user : ∃ r, m.proc c = some r ∧ m.pc r = .user) : False := by
    obtain ⟨r, there, outside⟩ := user
    obtain rfl := Option.some.inj (runs.symm.trans there)
    exact here outside
  refine ⟨?_, ?_⟩
  · intro c' p chan runs' marks
    by_cases runs : m.proc c = some p
    · rcases (wait_step moves wf runs).marks chan marks with here | ⟨here, same, none⟩
      · obtain ⟨same, childless⟩ := waiting.marking runs here
        exact ⟨same, childless_step moves wf family childless
          fun _ user => (own p runs (by simp [here]) user).elim⟩
      · exact ⟨same, childless_step moves wf family (childless_of_none none)
          fun _ user => (own p runs (by simp [here]) user).elim⟩
    · have here : m.pc p = .sleepMark chan .wait := by
        rcases (bystander_step moves wf runs).pc with kept | ⟨-, fresh⟩
        · exact kept ▸ marks
        · simp [fresh] at marks
      have on : m.proc c' = some p := by
        rcases proc_step moves runs' with on | ready
        · exact on
        · rcases wf.parked (Or.inr ready) with ⟨c'', on⟩ | resumes
          · simp [wf.onCpu on, here, Pc.runsAs] at ready
          · simp [here, Pc.resumes] at resumes
      have locked : m.lock none = some c' := (wf.table_self on).mpr (by rw [here]; rfl)
      obtain ⟨same, childless⟩ := waiting.marking on here
      exact ⟨same, childless_step moves wf family childless fun unlocked => by simp [unlocked] at locked⟩
  · intro p sleeps waits
    by_cases runs : m.proc c = some p
    · rcases (wait_step moves wf runs).sleeps sleeps waits with ⟨slept, waited, same⟩ | ⟨chan, here, same⟩
      · obtain ⟨on, childless⟩ := waiting.asleep slept waited
        refine ⟨same.trans on, childless_step moves wf family childless fun _ user => ?_⟩
        exact (own p runs (fun here => by simp [here, Pc.waiting] at waited) user).elim
      · obtain ⟨rfl, childless⟩ := waiting.marking runs here
        exact ⟨same, childless_step moves wf family childless
          fun _ user => (own p runs (by simp [here]) user).elim⟩
    · have bystander := bystander_step moves wf runs
      have slept := bystander.sleeping sleeps
      have kept : next.pc p = m.pc p := bystander.pc.resolve_right fun fresh => by simp [slept] at fresh
      obtain ⟨on, childless⟩ := waiting.asleep slept (kept ▸ waits)
      exact ⟨bystander.chan.trans on,
        childless_step moves wf family childless fun _ _ => ⟨p, on, sleeps⟩⟩

end Waits

section LifeCycle

variable [DecidableEq C] [DecidableEq L] [DecidableEq K] [Fintype L] {m next : Machine C L K}
  {events : List (C × Action L K)}

structure Lawful (m : Machine C L K) : Prop where
  wf : Wf m
  family : Family m
  waiting : Waiting m
  pids : m.created < 2 ^ 31 → Pids m

omit [Fintype L] in
theorem created_step {c : C} {action : Action L K} (moves : Moves m c action next) (wf : Wf m) :
    m.created ≤ next.created := by
  rcases quiet_or_turns moves wf with quiet | turns
  · exact quiet.created.ge
  · cases turns with
    | fork => exact Nat.le_succ _
    | exit _ _ other => rw [Machine.goto, (exit_exits other).frame]
    | _ => exact le_rfl

theorem Lawful.step (lawful : Lawful m) {event : C × Action L K} (stepped : step m event = some next) :
    Lawful next := by
  have moves := moves_of_step stepped
  have kinds := quiet_or_turns moves lawful.wf
  refine ⟨lawful.wf.step moves, ?_, lawful.waiting.step lawful.wf lawful.family moves, fun few => ?_⟩
  · rcases kinds with quiet | turns
    · exact lawful.family.quiet quiet
    · exact lawful.family.turns lawful.wf turns
  · have pids := lawful.pids ((created_step moves lawful.wf).trans_lt few)
    rcases kinds with quiet | turns
    · exact quiet.pids pids
    · exact pids.turns lawful.wf turns few

theorem Lawful.run (lawful : Lawful m) (later : Runs.run Proc.step m events = some next) : Lawful next := by
  refine run_invariant (fun _ m => Lawful m) lawful ?_ events next later
  intro _ before event after lawful stepped
  exact lawful.step stepped

theorem lawful_run (reached : run step boot events = some m) : Lawful m :=
  Lawful.run ⟨boot_wf, boot_family, boot_waiting, fun _ => boot_pids⟩ reached

theorem Remains.run {p : Slot} {pid : BitVec 32} (remains : Remains m p pid) (wf : Wf m)
    (later : Runs.run Proc.step m events = some next) : Remains next p pid := by
  refine (run_invariant (fun _ m => Wf m ∧ Remains m p pid) ⟨wf, remains⟩ ?_ events next later).2
  intro _ before event after both stepped
  have moves := moves_of_step stepped
  refine ⟨both.1.step moves, ?_⟩
  rcases quiet_or_turns moves both.1 with quiet | turns
  · exact quiet.remains both.2
  · exact both.2.turns both.1 turns

/-- The process table, in every run on any number of CPUs with fewer than `2 ^ 31` processes created. -/
theorem process_life_cycle (reached : run step boot events = some m) (free : m.lock none = none)
    (few : m.created < 2 ^ 31) :
    (∀ p, m.state p = .running ↔ ∃! c, m.proc c = some p) ∧
    (∀ p q, m.state p ≠ .unused → m.state q ≠ .unused → m.pid p = m.pid q → p = q) ∧
    (∀ p, m.state p ≠ .unused → m.state p ≠ .embryo → p ≠ initproc →
      ∃ q, m.parent p = some q ∧ m.state q ≠ .unused ∧ m.state q ≠ .zombie) ∧
    (∀ p q, m.state p = .sleeping → (m.pc p).waiting = true → m.parent q = some p → m.state q ≠ .zombie) ∧
    (∀ p later last, m.state p = .zombie → run step m later = some last → last.created < 2 ^ 31 →
      last.state p = .zombie ∧ last.pid p = m.pid p ∧ m.pid p ∉ last.waited ∨
        last.waited.count (m.pid p) = 1) := by
  obtain ⟨wf, family, waiting, pids⟩ := lawful_run reached
  refine ⟨?_, fun p q => (pids few).distinct, ?_, ?_, ?_⟩
  · intro p
    constructor
    · intro running
      obtain ⟨c, runs⟩ := wf.running running
      exact ⟨c, runs, fun c' runs' => wf.single runs' runs⟩
    · rintro ⟨c, runs, -⟩
      exact wf.on_running runs (by simp [free])
  · intro p used born other
    obtain ⟨q, child⟩ := family.child used born other
    have alive := (family.parent child).1.in_use
    exact ⟨q, child, alive.1, alive.2.2⟩
  · intro p q sleeps waits child
    exact (waiting.asleep sleeps waits).2 q child
  · intro p later last zombie ran small
    have lawful := (lawful_run reached).run ran
    have remains : Remains m p (m.pid p) := Or.inl ⟨zombie, rfl⟩
    rcases remains.run wf ran with ⟨still, same⟩ | returned
    · have absent := (lawful.pids small).pending (by simp [still] : last.state p ≠ .unused)
      exact Or.inl ⟨still, same, same ▸ absent⟩
    · exact Or.inr (List.count_eq_one_of_mem (lawful.pids small).once returned)

/-- `init` forks on the first CPU and its child runs and exits on the second. -/
def childExits : List (Bool × Action Unit Unit) :=
  [(false, .go true), (false, .go true), (false, .go true), (false, .fork), (false, .go true),
    (false, .go true), (false, .go true), (false, .go true), (true, .go true), (true, .go true),
    (true, .go true), (true, .exit), (true, .go true), (true, .go true)]

theorem one_lt_nproc : 1 < nproc := by decide

/-- The slot of the first process that `init` creates. -/
def firstChild : Slot := ⟨1, one_lt_nproc⟩

theorem process_life_cycle_reaped : ∃ m last, run step boot childExits = some m ∧
    m.state firstChild = .zombie ∧ m.pid firstChild = 2 ∧
      run step m [(false, .wait), (false, .go true)] = some last ∧ last.waited.count 2 = 1 := by
  let m := (run step boot childExits).get (by decide +kernel)
  let last := (run step m [(false, .wait), (false, .go true)]).get (by decide +kernel)
  have reached : run step boot childExits = some m := (Option.some_get _).symm
  have waits : run step m [(false, .wait), (false, .go true)] = some last := (Option.some_get _).symm
  have zombie : m.state firstChild = .zombie := by decide +kernel
  have pid : m.pid firstChild = 2 := by decide +kernel
  have cycle := process_life_cycle reached (by decide +kernel) (by decide +kernel)
  refine ⟨m, last, reached, zombie, pid, waits, ?_⟩
  rcases cycle.2.2.2.2 firstChild _ last zombie waits (by decide +kernel) with ⟨still, -, -⟩ | once
  · exact absurd still (by decide +kernel)
  · rwa [pid] at once

end LifeCycle

end OsLabs.Proc
