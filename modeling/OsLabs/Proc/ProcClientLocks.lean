import OsLabs.Proc.ProcClients

/-!
What a client of the process machine has while it is at a place: its lock, or a call of `sleep` that
takes the lock again. And nobody sleeps on a channel of the client but its own processes.
-/

namespace OsLabs.Proc

open Function (update update_of_ne update_self)
open Runs

variable {C L K D P I F J : Type*}

def Pc.spins : Pc L K → Bool
  | .user | .yieldSched .user | .yieldBack .user => true
  | _ => false

section Inversion

variable [DecidableEq C] [DecidableEq L] [DecidableEq K]

inductive Ran (m : Machine C L K) (data : D) (c : C) :
    Command L K D P → Machine C L K → D → P → Prop
  | move {data' place} : Ran m data c (.move data' place) m data' place
  | acquire {l place} (unlocked : m.lock (some l) = none) :
      Ran m data c (.acquire l place) { m with lock := update m.lock (some l) (some c) } data place
  | release {l place} (locked : m.lock (some l) = some c) :
      Ran m data c (.release l place) { m with lock := update m.lock (some l) none } data place
  | wakeup {chan place} (unlocked : m.lock none = none) :
      Ran m data c (.wakeup chan place) (m.wakeup1 chan) data place
  | sleep {chan l place p} (runs : m.proc c = some p) (user : m.pc p = .user)
      (locked : m.lock (some l) = some c) :
      Ran m data c (.sleep chan l place) { m.goto p (.sleepEnter chan l) with
        calls := update m.calls p (m.calls p + 1) } data place

variable [Fintype L]

theorem exec_ran {m m' : Machine C L K} {data data' : D} {c : C} {sleeps : Bool} {command : Command L K D P}
    {place : P} (went : command.exec m data c sleeps = some (m', data', place)) :
    Ran m data c command m' data' place ∧ (m' = m ∨ ∃ action, step m (c, action) = some m') := by
  cases command with
  | move data₁ place₁ =>
      simp only [Command.exec, Option.some.injEq, Prod.mk.injEq] at went
      obtain ⟨rfl, rfl, rfl⟩ := went
      exact ⟨.move, Or.inl rfl⟩
  | acquire l place₁ =>
      obtain ⟨m₁, stepped, same⟩ := Option.map_eq_some_iff.mp went
      obtain ⟨rfl, rfl, rfl⟩ := by simpa using same
      refine ⟨?_, Or.inr ⟨_, stepped⟩⟩
      simp only [step] at stepped
      split at stepped
      · obtain ⟨unlocked, rfl⟩ := acquire_eq_some stepped
        exact .acquire unlocked
      · simp at stepped
  | release l place₁ =>
      obtain ⟨m₁, stepped, same⟩ := Option.map_eq_some_iff.mp went
      obtain ⟨rfl, rfl, rfl⟩ := by simpa using same
      refine ⟨?_, Or.inr ⟨_, stepped⟩⟩
      simp only [step] at stepped
      split at stepped
      · obtain ⟨locked, rfl⟩ := release_eq_some stepped
        exact .release locked
      · simp at stepped
  | wakeup chan place₁ =>
      obtain ⟨m₁, stepped, same⟩ := Option.map_eq_some_iff.mp went
      obtain ⟨rfl, rfl, rfl⟩ := by simpa using same
      refine ⟨?_, Or.inr ⟨_, stepped⟩⟩
      simp only [step] at stepped
      split at stepped
      · rename_i guard
        obtain rfl := Option.some.inj stepped
        exact .wakeup guard.2
      · simp at stepped
  | sleep chan l place₁ =>
      simp only [Command.exec] at went
      split at went
      · obtain ⟨m₁, stepped, same⟩ := Option.map_eq_some_iff.mp went
        obtain ⟨rfl, rfl, rfl⟩ := by simpa using same
        refine ⟨?_, Or.inr ⟨_, stepped⟩⟩
        cases runs : m.proc c with
        | none => simp [step, runs] at stepped
        | some p =>
            simp only [step, runs, Machine.call] at stepped
            split at stepped
            · rename_i guard
              obtain rfl := Option.some.inj stepped
              exact .sleep runs guard.1 guard.2
            · simp at stepped
      · simp at went

variable [DecidableEq P] (client : Client C L K D P I F J)

inductive Acts (w : World C L K D P) (c : C) : Event L K I F J → World C L K D P → Prop
  | kernel {action m} (idle : w.hand c = client.out)
      (foreign : action.foreign client.ownsLock client.ownsKey = true)
      (stays : ∀ p, w.machine.proc c = some p → w.machine.pc p = .user → action ≠ .preempt →
        w.place p = client.out)
      (leaves : action = .exit → ∀ p, w.machine.proc c = some p → client.mayExit w.data p = true)
      (stepped : step w.machine (c, action) = some m) :
      Acts w c (.kernel action) { w with machine := m, data := w.forked client c action }
  | call {f p data place} (idle : w.hand c = client.out) (runs : w.machine.proc c = some p)
      (user : w.machine.pc p = .user) (outside : w.place p = client.out)
      (given : client.enter w.data p f = some (data, place)) :
      Acts w c (.call f) { w with data := data, place := update w.place p place }
  | interrupt {j place} (idle : w.hand c = client.out) (open' : w.machine.interruptible c = true)
      (unlocked : ∀ lk, w.machine.lock lk ≠ some c) (given : client.handler c j = some place) :
      Acts w c (.interrupt j) { w with hand := update w.hand c place }
  | process {input p command m data place} (idle : w.hand c = client.out) (runs : w.machine.proc c = some p)
      (user : w.machine.pc p = .user)
      (given : client.next w.data (w.machine.killed p) input (w.place p) = some command)
      (ran : Ran w.machine w.data c command m data place)
      (stepped : m = w.machine ∨ ∃ action, step w.machine (c, action) = some m) :
      Acts w c (.code input)
        { w with machine := m, data := data, place := update w.place p place }
  | handler {input command m data place} (busy : w.hand c ≠ client.out)
      (given : client.next w.data false input (w.hand c) = some command)
      (awake : ∀ chan l place, command ≠ .sleep chan l place)
      (ran : Ran w.machine w.data c command m data place)
      (stepped : m = w.machine ∨ ∃ action, step w.machine (c, action) = some m) :
      Acts w c (.code input) { w with machine := m, data := data, hand := update w.hand c place }

variable {client} {w next : World C L K D P} {c : C}

theorem kernel_acts {action : Action L K} (stepped : w.kernel client c action = some next) :
    Acts client w c (.kernel action) next := by
  simp only [World.kernel] at stepped
  split at stepped
  · rename_i guard
    obtain ⟨idle, foreign, permits⟩ := guard
    obtain ⟨m, went, rfl⟩ := Option.map_eq_some_iff.mp stepped
    refine .kernel idle foreign (fun p runs user other => ?_) (fun exits p runs => ?_) went
    · simp only [World.permits, runs, decide_eq_true_eq] at permits
      exact (permits.1.resolve_left (by simp [user])).resolve_left other
    · simp only [World.permits, runs, decide_eq_true_eq] at permits
      exact permits.2.resolve_left (by simp [exits])
  · simp at stepped

theorem code_acts {input : I} (stepped : w.code client c input = some next) :
    Acts client w c (.code input) next := by
  simp only [World.code] at stepped
  split at stepped
  · rename_i idle
    split at stepped
    · simp at stepped
    · rename_i p runs
      split at stepped
      · rename_i user
        obtain ⟨command, given, went⟩ := Option.bind_eq_some_iff.mp stepped
        obtain ⟨⟨m, data, place⟩, ran, rfl⟩ := Option.map_eq_some_iff.mp went
        obtain ⟨effect, kept⟩ := exec_ran ran
        exact .process idle runs user given effect kept
      · simp at stepped
  · rename_i busy
    obtain ⟨command, given, went⟩ := Option.bind_eq_some_iff.mp stepped
    obtain ⟨⟨m, data, place⟩, ran, rfl⟩ := Option.map_eq_some_iff.mp went
    obtain ⟨effect, kept⟩ := exec_ran ran
    refine .handler busy given (fun chan l place' same => ?_) effect kept
    subst same
    simp [Command.exec] at ran

theorem acts_of_step {event : C × Event L K I F J} (stepped : w.step client event = some next) :
    Acts client w event.1 event.2 next := by
  obtain ⟨c, event⟩ := event
  cases event with
  | kernel action => exact kernel_acts stepped
  | call f =>
      simp only [World.step, World.call] at stepped
      split at stepped
      · simp at stepped
      · rename_i p runs
        split at stepped
        · rename_i guard
          obtain ⟨⟨data, place⟩, given, rfl⟩ := Option.map_eq_some_iff.mp stepped
          exact .call guard.1 runs guard.2.1 guard.2.2 given
        · simp at stepped
  | interrupt j =>
      simp only [World.step, World.interrupt] at stepped
      split at stepped
      · rename_i guard
        obtain ⟨place, given, rfl⟩ := Option.map_eq_some_iff.mp stepped
        exact .interrupt guard.1 guard.2.1 guard.2.2 given
      · simp at stepped
  | code input => exact code_acts stepped

end Inversion

section Ownership

variable (client : Client C L K D P I F J)

def Running (m : Machine C L K) (p : Slot) (l : L) : Prop :=
  ∃ c, m.proc c = some p ∧ m.pc p = .user ∧ m.lock (some l) = some c

def Waits (m : Machine C L K) (p : Slot) (chan : Chan K) : Prop :=
  (m.pc p).asks = some chan ∨ m.state p = .sleeping ∧ m.chan p = some chan

structure Owned (w : World C L K D P) : Prop where
  lawful : Lawful w.machine
  alive : ∀ {p}, w.place p ≠ client.out → w.machine.alive p
  held : ∀ {p l}, client.lock (w.place p) = some l →
    Running w.machine p l ∨ (w.machine.pc p).sleepLock = some (some l) ∧ (client.rests (w.place p)).isSome
  spins : ∀ {p}, w.place p ≠ client.out → client.lock (w.place p) = none → (w.machine.pc p).spins = true
  hand : ∀ {c l}, client.lock (w.hand c) = some l → w.machine.lock (some l) = some c
  apart : ∀ {c p}, w.hand c ≠ client.out → w.machine.proc c = some p → w.machine.pc p = .user →
    client.lock (w.place p) = none
  asks : ∀ {p k}, client.ownsKey k = true → Waits w.machine p (.addr k) → client.rests (w.place p) = some k

variable {client} {w next : World C L K D P} {c : C}

theorem Running.unique {m : Machine C L K} {p q : Slot} {l : L} (first : Running m p l)
    (second : Running m q l) : p = q := by
  obtain ⟨c, here, -, locked⟩ := first
  obtain ⟨c', there, -, locked'⟩ := second
  obtain rfl := Option.some.inj (locked.symm.trans locked')
  exact Option.some.inj (here.symm.trans there)

theorem Owned.running (owned : Owned client w) {p : Slot} {l : L} (user : w.machine.pc p = .user)
    (lock : client.lock (w.place p) = some l) : Running w.machine p l := by
  rcases owned.held lock with running | ⟨asleep, -⟩
  · exact running
  · simp [user, Pc.sleepLock] at asleep

/-- A process that executes the code of the client with a lock, while another is at a place with this
lock: the other one waits in `sleep`. -/
theorem Owned.exclusive (owned : Owned client w) {p q : Slot} {l : L} (user : w.machine.pc p = .user)
    (lock : client.lock (w.place p) = some l) (other : client.lock (w.place q) = some l) (apart : q ≠ p) :
    (w.machine.pc q).sleepLock = some (some l) ∧ (client.rests (w.place q)).isSome := by
  rcases owned.held other with running | waits
  · exact absurd (running.unique (owned.running user lock)) apart
  · exact waits

theorem Owned.newborn_out (owned : Owned client w) {p np : Slot} (forks : (w.machine.pc p).forks = some np) :
    w.place np = client.out := by
  by_contra inside
  exact (owned.alive inside).in_use.2.1 (owned.lawful.wf.newborn forks)

theorem forked_cases (client : Client C L K D P I F J) (w : World C L K D P) (c : C) (action : Action L K) :
    w.forked client c action = w.data ∨ ∃ p np, w.machine.proc c = some p ∧
      w.machine.pc p = .forkParent np ∧ w.forked client c action = client.fork w.data p np := by
  simp only [World.forked]
  split
  · exact Or.inl rfl
  · rename_i p runs
    split
    · rename_i np ok here
      exact Or.inr ⟨p, np, runs, here, rfl⟩
    · exact Or.inl rfl

theorem Owned.call (owned : Owned client w) {f : F} {p : Slot} {data : D} {place : P}
    (idle : w.hand c = client.out) (runs : w.machine.proc c = some p) (user : w.machine.pc p = .user)
    (given : client.enter w.data p f = some (data, place)) :
    Owned client { w with data := data, place := update w.place p place } := by
  have wf := owned.lawful.wf
  have lockless := client.enter_lock given
  have places {q : Slot} (other : q ≠ p) : update w.place p place q = w.place q :=
    update_of_ne other _ _
  refine ⟨owned.lawful, ?_, ?_, ?_, owned.hand, ?_, ?_⟩
  · intro q inside
    by_cases self : q = p
    · subst self
      exact wf.on_alive runs (by simp [user])
    · exact owned.alive (places self ▸ inside)
  · intro q l lock
    by_cases self : q = p
    · subst self
      dsimp only at lock
      rw [update_self, lockless] at lock
      simp at lock
    · dsimp only at lock ⊢
      rw [places self] at lock ⊢
      exact owned.held lock
  · intro q inside lock
    by_cases self : q = p
    · subst self
      dsimp only
      rw [user]
      rfl
    · dsimp only at inside lock
      rw [places self] at inside lock
      exact owned.spins inside lock
  · intro c' q busy there outside
    have self : q ≠ p := by
      rintro rfl
      rw [wf.single there runs] at busy
      exact busy idle
    dsimp only
    rw [places self]
    exact owned.apart busy there outside
  · intro q k owns waits
    by_cases self : q = p
    · subst self
      have running : w.machine.state q = .running := by rw [wf.onCpu runs, user]; rfl
      simp [Waits, user, running, Pc.asks] at waits
    · dsimp only
      rw [places self]
      exact owned.asks owns waits

theorem Owned.interrupt [DecidableEq C] (owned : Owned client w) {j : J} {place : P}
    (unlocked : ∀ lk, w.machine.lock lk ≠ some c) (given : client.handler c j = some place) :
    Owned client { w with hand := update w.hand c place } := by
  refine ⟨owned.lawful, owned.alive, owned.held, owned.spins, ?_, ?_, owned.asks⟩
  · intro c' l lock
    by_cases self : c' = c
    · subst self
      dsimp only at lock
      rw [update_self, client.handler_lock given] at lock
      simp at lock
    · dsimp only at lock
      rw [update_of_ne self] at lock
      exact owned.hand lock
  · intro c' p busy runs user
    by_cases self : c' = c
    · subst self
      dsimp only
      by_contra some
      obtain ⟨l, lock⟩ := Option.ne_none_iff_exists'.mp some
      obtain ⟨c'', there, -, locked⟩ := owned.running user lock
      rw [owned.lawful.wf.single there runs] at locked
      exact unlocked _ locked
    · dsimp only at busy
      rw [update_of_ne self] at busy
      exact owned.apart busy runs user

theorem Machine.alive.woken {m m' : Machine C L K} {p : Slot} (alive : m.alive p) (woken : Woken m.state m'.state) :
    m'.alive p := by
  rcases life_of_woken woken p with same | ⟨-, lives⟩
  · exact alive.congr same
  · exact lives

structure Outside (m m' : Machine C L K) (c : C) : Prop where
  proc : m'.proc = m.proc
  chan : m'.chan = m.chan
  killed : m'.killed = m.killed
  state : Woken m.state m'.state
  pc : ∀ q, m.proc c ≠ some q → m'.pc q = m.pc q
  lock : ∀ {c' l}, c' ≠ c → m.lock (some l) = some c' → m'.lock (some l) = some c'

theorem Ran.outside [DecidableEq L] [DecidableEq K] {m m' : Machine C L K} {data data' : D} {command : Command L K D P} {place : P}
    (ran : Ran m data c command m' data' place) : Outside m m' c := by
  cases ran with
  | move => exact ⟨rfl, rfl, rfl, fun _ => Or.inl rfl, fun _ _ => rfl, fun _ held => held⟩
  | @acquire l _ unlocked =>
      refine ⟨rfl, rfl, rfl, fun _ => Or.inl rfl, fun _ _ => rfl, fun other held => ?_⟩
      dsimp only
      rw [update_of_ne, held]
      rintro same
      rw [Option.some.inj same, unlocked] at held
      simp at held
  | @release l _ locked =>
      refine ⟨rfl, rfl, rfl, fun _ => Or.inl rfl, fun _ _ => rfl, fun other held => ?_⟩
      dsimp only
      rw [update_of_ne, held]
      rintro same
      rw [Option.some.inj same, locked, Option.some.injEq] at held
      exact other held.symm
  | wakeup => exact ⟨rfl, rfl, rfl, wakeup1_woken _, fun _ _ => rfl, fun _ held => held⟩
  | @sleep chan l _ p runs _ _ =>
      refine ⟨rfl, rfl, rfl, fun _ => Or.inl rfl, fun q off => ?_, fun _ held => held⟩
      refine update_of_ne ?_ _ _
      rintro rfl
      exact off runs

variable [DecidableEq C] [DecidableEq L] [DecidableEq K] [Fintype L]

theorem spins_step {m next : Machine C L K} {action : Action L K} {p : Slot}
    (stepped : step m (c, action) = some next) (runs : m.proc c = some p) (spins : (m.pc p).spins = true)
    (timer : m.pc p = .user → action = .preempt) : (next.pc p).spins = true := by
  cases here : m.pc p with
  | user =>
      rw [timer here] at stepped
      simp only [step, runs, Machine.call] at stepped
      split at stepped
      · obtain ⟨middle, taken, rfl⟩ := Option.map_eq_some_iff.mp stepped
        obtain ⟨-, rfl⟩ := acquire_eq_some taken
        rw [goto_pc, update_self]
        rw [show ({ m with lock := update m.lock none (some c) } : Machine C L K).pc p = .user from here]
        rfl
      · simp at stepped
  | yieldSched interrupted =>
      obtain ⟨ok, went⟩ := go_of_step stepped runs (by rw [here]; rfl) (by simp [here])
      simp only [Machine.go, here, Machine.sched] at went
      split at went
      · obtain rfl := Option.some.inj went
        rw [goto_pc, update_self]
        rw [here] at spins
        cases interrupted <;> simp_all [Pc.spins]
      · simp at went
  | yieldBack interrupted =>
      obtain ⟨ok, went⟩ := go_of_step stepped runs (by rw [here]; rfl) (by simp [here])
      simp only [Machine.go, here] at went
      obtain ⟨middle, given, rfl⟩ := Option.map_eq_some_iff.mp went
      obtain ⟨-, rfl⟩ := release_eq_some given
      rw [goto_pc, update_self]
      rw [here] at spins
      cases interrupted <;> simp_all [Pc.spins]
  | _ => simp [here, Pc.spins] at spins

theorem exit_user {m next : Machine C L K} {p : Slot} (stepped : step m (c, .exit) = some next)
    (runs : m.proc c = some p) : m.pc p = .user := by
  simp only [step, runs, Machine.call] at stepped
  split at stepped
  · rename_i guard
    exact guard.1
  · simp at stepped

theorem preempt_unlocked {m next : Machine C L K} {p : Slot} (stepped : step m (c, .preempt) = some next)
    (runs : m.proc c = some p) (lk : Option L) : m.lock lk ≠ some c := by
  simp only [step, runs, Machine.call] at stepped
  split at stepped
  · rename_i guard
    exact guard.2 lk
  · simp at stepped

omit [DecidableEq C] [DecidableEq L] [DecidableEq K] [Fintype L] in
theorem Owned.timer {action : Action L K} (stays : ∀ p, w.machine.proc c = some p → w.machine.pc p = .user →
      action ≠ .preempt → w.place p = client.out) {p : Slot} (inside : w.place p ≠ client.out)
    (runs : w.machine.proc c = some p) (user : w.machine.pc p = .user) : action = .preempt := by
  by_contra other
  exact inside (stays p runs user other)

omit [Fintype L] in
theorem Owned.kept (owned : Owned client w) {action : Action L K} {m : Machine C L K}
    (moves : Moves w.machine c action m) {p : Slot} (inside : w.place p ≠ client.out)
    (off : w.machine.proc c ≠ some p) : m.pc p = w.machine.pc p := by
  refine (bystander_step moves owned.lawful.wf off).pc.resolve_right fun fresh => ?_
  exact (owned.alive inside).in_use.2.1 fresh.1

theorem Owned.running_kernel (owned : Owned client w) {action : Action L K} {m : Machine C L K}
    (stays : ∀ p, w.machine.proc c = some p → w.machine.pc p = .user → action ≠ .preempt →
      w.place p = client.out)
    (stepped : step w.machine (c, action) = some m) {p : Slot} {l : L} (inside : w.place p ≠ client.out)
    (running : Running w.machine p l) : Running m p l := by
  have wf := owned.lawful.wf
  have moves : Moves w.machine c action m := moves_of_step stepped
  obtain ⟨c', runs, user, locked⟩ := running
  by_cases same : c' = c
  · subst same
    have preempts := Owned.timer stays inside runs user
    subst preempts
    exact absurd locked (preempt_unlocked stepped runs _)
  · have off : w.machine.proc c ≠ some p := fun there => same (wf.single runs there)
    exact ⟨c', (bystander_step moves wf off).on c' runs, (owned.kept moves inside off).trans user,
      lock_step moves same locked⟩

theorem Owned.waits_kernel (owned : Owned client w) {action : Action L K} {m : Machine C L K}
    (foreign : action.foreign client.ownsLock client.ownsKey = true)
    (stepped : step w.machine (c, action) = some m) {p : Slot} {k : K} (owns : client.ownsKey k = true)
    (waits : Waits m p (.addr k)) : Waits w.machine p (.addr k) := by
  have wf := owned.lawful.wf
  have moves : Moves w.machine c action m := moves_of_step stepped
  by_cases runs : w.machine.proc c = some p
  · have own := ask_step moves wf runs
    rcases waits with asks | ⟨sleeps, chan⟩
    · rcases own.asks _ asks with before | ⟨l, calls⟩ | calls | other
      · exact Or.inl before
      · rw [calls] at foreign
        simp [Action.foreign, owns] at foreign
      · rw [calls] at foreign
        simp [Action.foreign, owns] at foreign
      · simp at other
    · exact own.sleeps _ sleeps chan
  · have bystander := bystander_step moves wf runs
    rcases waits with asks | ⟨sleeps, chan⟩
    · rcases bystander.pc with same | ⟨-, fresh⟩
      · exact Or.inl ((congrArg Pc.asks same).symm.trans asks)
      · have none : (m.pc p).asks = none := by rw [fresh]; rfl
        exact absurd (none.symm.trans asks) (by simp)
    · exact Or.inr ⟨bystander.sleeping sleeps, bystander.chan.symm.trans chan⟩

theorem Owned.kernel (owned : Owned client w) {action : Action L K} {m : Machine C L K} {data : D}
    (idle : w.hand c = client.out) (foreign : action.foreign client.ownsLock client.ownsKey = true)
    (stays : ∀ p, w.machine.proc c = some p → w.machine.pc p = .user → action ≠ .preempt →
      w.place p = client.out)
    (stepped : step w.machine (c, action) = some m) :
    Owned client { w with machine := m, data := data } := by
  have wf := owned.lawful.wf
  have moves : Moves w.machine c action m := moves_of_step stepped
  have within {p : Slot} {l : L} (lock : client.lock (w.place p) = some l) : w.place p ≠ client.out := by
    intro outside
    rw [outside, client.lock_out] at lock
    simp at lock
  refine ⟨owned.lawful.step stepped, ?_, ?_, ?_, ?_, ?_, ?_⟩
  · intro p inside
    refine alive_step moves wf (owned.alive inside) fun exits runs => ?_
    subst exits
    have preempts := Owned.timer stays inside runs (exit_user stepped runs)
    simp at preempts
  · intro p l lock
    have inside := within lock
    rcases owned.held lock with running | ⟨asleep, rests⟩
    · exact Or.inl (owned.running_kernel stays stepped inside running)
    · by_cases runs : w.machine.proc c = some p
      · have called : m.calls p = w.machine.calls p := by
          rcases calls_step moves p with same | ⟨-, -, away⟩
          · exact same
          · simp [away] at asleep
        rcases (own_step moves wf runs called).locks with same | ⟨-, locks⟩
        · exact Or.inr ⟨same.trans asleep, rests⟩
        · obtain ⟨locked, back⟩ := locks (some l) asleep
          obtain ⟨-, user, on⟩ := back (by simp)
          exact Or.inl ⟨c, on, user, locked⟩
      · exact Or.inr ⟨by rw [← asleep, ← owned.kept moves inside runs], rests⟩
  · intro p inside lock
    have spins := owned.spins inside lock
    by_cases runs : w.machine.proc c = some p
    · exact spins_step stepped runs spins (Owned.timer stays inside runs)
    · exact (congrArg Pc.spins (owned.kept moves inside runs)).trans spins
  · intro c' l lock
    refine lock_step moves ?_ (owned.hand lock)
    rintro rfl
    rw [idle, client.lock_out] at lock
    simp at lock
  · intro c' p busy runs user
    have other : c' ≠ c := by
      rintro rfl
      exact busy idle
    have there := (proc_other moves other).symm.trans runs
    have off : w.machine.proc c ≠ some p := fun here => other (wf.single there here)
    refine owned.apart busy there ?_
    rcases (bystander_step moves wf off).pc with same | ⟨-, fresh⟩
    · exact same.symm.trans user
    · exact absurd (fresh.symm.trans user) (by simp)
  · intro p k owns waits
    exact owned.asks owns (owned.waits_kernel foreign stepped owns waits)

omit [DecidableEq C] [Fintype L] in
theorem Ran.waits {m m' : Machine C L K} {data data' : D} {command : Command L K D P} {place : P} {q : Slot}
    {chan : Chan K} (ran : Ran m data c command m' data' place) (waits : Waits m' q chan) :
    Waits m q chan ∨ m.proc c = some q ∧ ∃ l, command = .sleep chan l place := by
  have beside := ran.outside
  rcases waits with asks | ⟨sleeps, on⟩
  · cases ran with
    | @sleep chan' l' _ p' runs user locked =>
        by_cases self : q = p'
        · subst self
          rw [goto_pc, update_self] at asks
          exact Or.inr ⟨runs, l', by rw [Option.some.inj asks]⟩
        · rw [goto_pc, update_of_ne self] at asks
          exact Or.inl (Or.inl asks)
    | _ => exact Or.inl (Or.inl asks)
  · rw [beside.chan] at on
    refine Or.inl (Or.inr ⟨?_, on⟩)
    by_contra before
    exact beside.state.not_sleeping before sleeps

omit [DecidableEq C] [Fintype L] in
theorem Owned.process (owned : Owned client w) {input : I} {p : Slot} {command : Command L K D P}
    {m : Machine C L K} {data : D} {place : P} (idle : w.hand c = client.out)
    (runs : w.machine.proc c = some p) (user : w.machine.pc p = .user)
    (given : client.next w.data (w.machine.killed p) input (w.place p) = some command)
    (ran : Ran w.machine w.data c command m data place) (lawful : Lawful m) :
    Owned client { w with machine := m, data := data, place := update w.place p place } := by
  have wf := owned.lawful.wf
  have fits := client.fits given
  have beside := ran.outside
  have apart {q : Slot} (other : q ≠ p) : w.machine.proc c ≠ some q := fun there =>
    other (Option.some.inj (there.symm.trans runs))
  have elsewhere {c' : C} {q : Slot} (there : w.machine.proc c' = some q) (other : q ≠ p) : c' ≠ c := by
    rintro rfl
    exact apart other there
  have places {q : Slot} (other : q ≠ p) : update w.place p place q = w.place q :=
    update_of_ne other _ _
  refine ⟨lawful, ?_, ?_, ?_, ?_, ?_, ?_⟩
  · intro q inside
    by_cases self : q = p
    · subst self
      exact (wf.on_alive runs (by simp [user])).woken beside.state
    · exact (owned.alive (places self ▸ inside)).woken beside.state
  · intro q l lock
    by_cases self : q = p
    · subst self
      dsimp only at lock ⊢
      rw [update_self] at lock ⊢
      cases ran with
      | move => exact Or.inl (owned.running user (fits.symm.trans lock))
      | acquire unlocked =>
          obtain rfl := Option.some.inj (fits.2.1.symm.trans lock)
          exact Or.inl ⟨c, runs, user, update_self _ _ _⟩
      | release locked => exact absurd (fits.2.symm.trans lock) (by simp)
      | wakeup unlocked => exact Or.inl (owned.running user (fits.symm.trans lock))
      | @sleep chan l' _ p' runs' user' locked =>
          obtain rfl := Option.some.inj (runs.symm.trans runs')
          obtain rfl := Option.some.inj (fits.2.1.symm.trans lock)
          obtain ⟨k, -, rests⟩ := fits.2.2
          refine Or.inr ⟨?_, by rw [rests]; rfl⟩
          rw [goto_pc, update_self]
          rfl
    · dsimp only at lock ⊢
      rw [places self] at lock ⊢
      rcases owned.held lock with ⟨c', there, outside, locked⟩ | ⟨asleep, rests⟩
      · exact Or.inl ⟨c', by rw [beside.proc, there], by rw [beside.pc q (apart self), outside],
          beside.lock (elsewhere there self) locked⟩
      · exact Or.inr ⟨by rw [beside.pc q (apart self), asleep], rests⟩
  · intro q inside lock
    by_cases self : q = p
    · subst self
      dsimp only at lock ⊢
      rw [update_self] at lock
      cases ran with
      | move => rw [user]; rfl
      | acquire unlocked => exact absurd (fits.2.1.symm.trans lock) (by simp)
      | release locked => dsimp only; rw [user]; rfl
      | wakeup unlocked => exact (congrArg Pc.spins user).trans rfl
      | sleep => exact absurd (fits.2.1.symm.trans lock) (by simp)
    · dsimp only at inside lock ⊢
      rw [places self] at inside lock
      rw [beside.pc q (apart self)]
      exact owned.spins inside lock
  · intro c' l lock
    refine beside.lock ?_ (owned.hand lock)
    rintro rfl
    rw [idle, client.lock_out] at lock
    simp at lock
  · intro c' q busy there outside
    dsimp only at busy there outside ⊢
    rw [beside.proc] at there
    have self : q ≠ p := by
      rintro rfl
      rw [wf.single there runs] at busy
      exact busy idle
    rw [beside.pc q (apart self)] at outside
    rw [places self]
    exact owned.apart busy there outside
  · intro q k owns waits
    dsimp only at waits ⊢
    rcases ran.waits waits with before | ⟨on, l, calls⟩
    · have self : q ≠ p := by
        rintro rfl
        have awake : w.machine.state q ≠ .sleeping := by rw [wf.onCpu runs, user]; simp [Pc.runsAs]
        simp [Waits, user, awake, Pc.asks] at before
      rw [places self]
      exact owned.asks owns before
    · obtain rfl := Option.some.inj (runs.symm.trans on)
      subst calls
      obtain ⟨k', same, rests⟩ := fits.2.2
      rw [update_self, rests]
      simp only [Chan.addr.injEq] at same
      rw [same]

omit [Fintype L] in
theorem Owned.handler (owned : Owned client w) {input : I} {command : Command L K D P} {m : Machine C L K}
    {data : D} {place : P} (busy : w.hand c ≠ client.out)
    (given : client.next w.data false input (w.hand c) = some command)
    (awake : ∀ chan l place, command ≠ .sleep chan l place)
    (ran : Ran w.machine w.data c command m data place) (lawful : Lawful m) :
    Owned client { w with machine := m, data := data, hand := update w.hand c place } := by
  have fits := client.fits given
  have beside := ran.outside
  have pcs : m.pc = w.machine.pc := by
    cases ran with
    | sleep => exact absurd rfl (awake _ _ _)
    | _ => rfl
  refine ⟨lawful, fun inside => (owned.alive inside).woken beside.state, ?_, ?_, ?_, ?_, ?_⟩
  · intro q l lock
    rcases owned.held lock with ⟨c', there, outside, locked⟩ | ⟨asleep, rests⟩
    · have other : c' ≠ c := by
        rintro rfl
        have none := owned.apart busy there outside
        exact absurd (none.symm.trans lock) (by simp)
      exact Or.inl ⟨c', by rw [beside.proc, there], by rw [pcs, outside], beside.lock other locked⟩
    · exact Or.inr ⟨by rw [pcs, asleep], rests⟩
  · intro q inside lock
    dsimp only
    rw [pcs]
    exact owned.spins inside lock
  · intro c' l lock
    by_cases self : c' = c
    · subst self
      dsimp only at lock ⊢
      rw [update_self] at lock
      cases ran with
      | move => exact owned.hand (fits.symm.trans lock)
      | acquire unlocked =>
          obtain rfl := Option.some.inj (fits.2.1.symm.trans lock)
          exact update_self _ _ _
      | release locked => exact absurd (fits.2.symm.trans lock) (by simp)
      | wakeup unlocked => exact owned.hand (fits.symm.trans lock)
      | sleep => exact absurd rfl (awake _ _ _)
    · dsimp only at lock
      rw [update_of_ne self] at lock
      exact beside.lock self (owned.hand lock)
  · intro c' q inside there outside
    dsimp only at inside there outside ⊢
    rw [beside.proc] at there
    rw [pcs] at outside
    by_cases self : c' = c
    · subst self
      exact owned.apart busy there outside
    · rw [update_of_ne self] at inside
      exact owned.apart inside there outside
  · intro q k owns waits
    rcases ran.waits waits with before | ⟨-, l, calls⟩
    · exact owned.asks owns before
    · exact absurd calls (awake _ _ _)

omit [DecidableEq C] [DecidableEq L] [DecidableEq K] [Fintype L] in
theorem Pc.asks_spec {pc : Pc L K} {chan : Chan K} (asks : pc.asks = some chan) :
    pc.resumes = false ∧ (pc.inTable = true ∨ ∃ l, pc.needs = some l ∧ pc.sleepLock = some (some l)) := by
  cases pc <;> simp [Pc.asks, Pc.resumes, Pc.inTable, Pc.needs, Pc.sleepLock] at asks ⊢

omit [DecidableEq C] [DecidableEq L] [DecidableEq K] [Fintype L] in
theorem Wf.on_cpu {m : Machine C L K} (wf : Wf m) {p : Slot} (alive : m.alive p) (away : (m.pc p).resumes = false) :
    ∃ c, m.proc c = some p := by
  rcases alive with sleeps | ready | running
  · exact (wf.parked (Or.inl sleeps)).resolve_right (by simp [away])
  · exact (wf.parked (Or.inr ready)).resolve_right (by simp [away])
  · exact wf.running running

omit [DecidableEq C] [DecidableEq L] [Fintype L] in
theorem Owned.wakes (owned : Owned client w) {p : Slot} {l : L} (user : w.machine.pc p = .user)
    (lock : client.lock (w.place p) = some l) (unlocked : w.machine.lock none = none) {q : Slot} {k : K}
    (owns : client.ownsKey k = true)
    (shares : client.rests (w.place q) = some k → client.lock (w.place q) = some l) :
    ¬ Waits (w.machine.wakeup1 (.addr k)) q (.addr k) := by
  have wf := owned.lawful.wf
  rintro (asks | ⟨sleeps, on⟩)
  · have asks : (w.machine.pc q).asks = some (.addr k) := asks
    have rests := owned.asks owns (Or.inl asks)
    have inside : w.place q ≠ client.out := by
      intro outside
      rw [outside, client.rests_out] at rests
      simp at rests
    obtain ⟨away, held⟩ := Pc.asks_spec asks
    obtain ⟨c', runs⟩ := wf.on_cpu (owned.alive inside) away
    rcases held with table | ⟨l', needs, sleepLock⟩
    · have locked := (wf.table c').mpr (by rw [Machine.inTable, runs]; exact table)
      simp [unlocked] at locked
    · obtain ⟨asleep, -⟩ := owned.exclusive user lock (shares rests) fun same => by
        rw [same, user] at asks
        simp [Pc.asks] at asks
      obtain rfl : l' = l := by simpa [sleepLock] using asleep
      obtain ⟨c, on, -, locked⟩ := owned.running user lock
      obtain rfl := Option.some.inj (locked.symm.trans (wf.held runs needs))
      obtain rfl := Option.some.inj (on.symm.trans runs)
      rw [user] at asks
      simp [Pc.asks] at asks
  · simp only [Machine.wakeup1] at sleeps on
    split at sleeps
    · simp at sleeps
    · rename_i away
      exact away ⟨sleeps, on⟩

theorem Owned.step [DecidableEq P] (owned : Owned client w) {event : C × Event L K I F J}
    (stepped : w.step client event = some next) : Owned client next := by
  have lawful {m : Machine C L K} {c : C}
      (kept : m = w.machine ∨ ∃ action, Proc.step w.machine (c, action) = some m) : Lawful m := by
    rcases kept with rfl | ⟨action, went⟩
    · exact owned.lawful
    · exact owned.lawful.step went
  obtain ⟨c, event⟩ := event
  cases acts_of_step stepped with
  | kernel idle foreign stays leaves went => exact owned.kernel idle foreign stays went
  | call idle runs user outside given => exact owned.call idle runs user given
  | interrupt idle open' unlocked given => exact owned.interrupt unlocked given
  | process idle runs user given ran kept => exact owned.process idle runs user given ran (lawful kept)
  | handler busy given awake ran kept => exact owned.handler busy given awake ran (lawful kept)

/-- The machine after `userinit`, with no process in the code of the client. -/
def World.start (client : Client C L K D P I F J) (data : D) : World C L K D P :=
  ⟨boot, data, fun _ => client.out, fun _ => client.out⟩

omit [DecidableEq C] [DecidableEq L] [DecidableEq K] [Fintype L] in
theorem owned_start (data : D) : Owned client (World.start client data) := by
  refine ⟨⟨boot_wf, boot_family, boot_waiting, fun _ => boot_pids⟩, ?_, ?_, ?_, ?_, ?_, ?_⟩
  · intro p inside
    exact absurd rfl inside
  · intro p l lock
    exact absurd (client.lock_out.symm.trans lock) (by simp)
  · intro p inside
    exact absurd rfl inside
  · intro c l lock
    exact absurd (client.lock_out.symm.trans lock) (by simp)
  · intro c p busy
    exact absurd rfl busy
  · intro p k owns waits
    by_cases init : p = initproc <;> simp [Waits, World.start, boot, init, Pc.asks] at waits

end Ownership

end OsLabs.Proc
