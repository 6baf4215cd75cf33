import OsLabs.Proc.ProcSteps

/-!
The state of every process agrees with the place it is at and with the CPU it runs on, and the
lock of the table is held exactly by the CPU whose code is inside it.
-/

namespace OsLabs.Proc

open Function (update update_eq_self update_idem update_of_ne update_self)

variable {C L K : Type*}

def Pc.stacked : Pc L K → Option Slot
  | .forkCopy np | .forkParent np | .forkReady np => some np
  | .yieldSched interrupted | .yieldBack interrupted => interrupted.stacked
  | _ => none

theorem Pc.forks_of_stacked {pc : Pc L K} {np : Slot} (stacked : pc.stacked = some np) :
    pc.forks = some np := by
  induction pc with
  | yieldSched interrupted ih | yieldBack interrupted ih => exact ih stacked
  | forkCopy _ | forkParent _ | forkReady _ => exact stacked
  | _ => simp [Pc.stacked] at stacked

theorem Pc.runsAs_ne_embryo (pc : Pc L K) : pc.runsAs ≠ .embryo := by
  cases pc <;> simp [Pc.runsAs]

theorem Pc.runsAs_ne_unused (pc : Pc L K) : pc.runsAs ≠ .unused := by
  cases pc <;> simp [Pc.runsAs]

theorem Pc.inTable_of_runsAs {pc : Pc L K} (changed : pc.runsAs ≠ .running) : pc.inTable = true := by
  cases pc <;> simp_all [Pc.runsAs, Pc.inTable]

theorem Pc.interruptible_spec {pc : Pc L K} (on : pc.interruptible = true) :
    pc.inTable = false ∧ pc.needs = none ∧ pc.runsAs = .running := by
  cases pc <;> simp_all [Pc.interruptible, Pc.inTable, Pc.needs, Pc.runsAs]

def Pc.proper : Pc L K → Bool
  | .yieldSched interrupted | .yieldBack interrupted => interrupted.interruptible
  | _ => true

theorem Pc.resumes_spec {pc : Pc L K} (waits : pc.resumes = true) :
    pc.inTable = true ∧ pc.needs = none ∧ pc.runsAs = .running := by
  cases pc <;> simp_all [Pc.resumes, Pc.inTable, Pc.needs, Pc.runsAs]

theorem Pc.returns_spec {pc back : Pc L K} (returns : pc.returns = some back) :
    pc.runsAs ≠ .running ∧ (pc.runsAs ≠ .zombie → back.resumes = true) ∧ back.forks = pc.forks ∧
      back.stacked = pc.stacked ∧ back.proper = pc.proper := by
  cases pc <;> simp only [Pc.returns, Option.some.injEq, reduceCtorEq] at returns <;> subst returns <;>
    simp [Pc.runsAs, Pc.resumes, Pc.forks, Pc.stacked, Pc.proper]

def Machine.inTable (m : Machine C L K) (c : C) : Bool :=
  match m.proc c with
  | some p => (m.pc p).inTable
  | none => (m.scan c).isSome

structure Wf (m : Machine C L K) : Prop where
  table : ∀ c, m.lock none = some c ↔ m.inTable c = true
  single : ∀ {c c' p}, m.proc c = some p → m.proc c' = some p → c = c'
  onCpu : ∀ {c p}, m.proc c = some p → m.state p = (m.pc p).runsAs
  running : ∀ {p}, m.state p = .running → ∃ c, m.proc c = some p
  parked : ∀ {p}, m.state p = .sleeping ∨ m.state p = .runnable →
    (∃ c, m.proc c = some p) ∨ (m.pc p).resumes = true
  held : ∀ {c p l}, m.proc c = some p → (m.pc p).needs = some l → m.lock (some l) = some c
  newborn : ∀ {p np}, (m.pc p).forks = some np → m.state np = .embryo
  owner : ∀ {p q np}, (m.pc p).forks = some np → (m.pc q).forks = some np → p = q
  stacked : ∀ {p np}, (m.pc p).stacked = some np → m.pc np = .forkret
  proper : ∀ p, (m.pc p).proper = true

theorem boot_wf : Wf (boot : Machine C L K) := by
  have forks (p : Slot) : ((boot : Machine C L K).pc p).forks = none := by
    by_cases init : p = initproc <;> simp [boot, init, Pc.forks]
  refine ⟨by simp [boot, Machine.inTable], by simp [boot], by simp [boot], ?_, ?_, by simp [boot],
    by simp [forks], by simp [forks], ?_, ?_⟩
  · intro p running
    by_cases init : p = initproc <;> simp [boot, init] at running
  · intro p waits
    by_cases init : p = initproc
    · simp [boot, init, Pc.resumes]
    · simp [boot, init] at waits
  · intro p np stacked
    simpa [forks] using Pc.forks_of_stacked stacked
  · intro p
    by_cases init : p = initproc <;> simp [boot, init, Pc.proper]

section Lemmas

variable {m next : Machine C L K} {c : C} {p q : Slot}

theorem Wf.congr (wf : Wf m) (state : next.state = m.state) (pc : next.pc = m.pc)
    (proc : next.proc = m.proc) (scan : next.scan = m.scan) (lock : next.lock = m.lock) : Wf next := by
  cases m
  cases next
  dsimp only at state pc proc scan lock
  subst state pc proc scan lock
  exact ⟨wf.table, wf.single, wf.onCpu, wf.running, wf.parked, wf.held, wf.newborn, wf.owner,
    wf.stacked, wf.proper⟩

theorem Wf.on_ne_embryo (wf : Wf m) (runs : m.proc c = some p) : m.state p ≠ .embryo := by
  rw [wf.onCpu runs]
  exact (m.pc p).runsAs_ne_embryo

theorem Wf.on_ne_unused (wf : Wf m) (runs : m.proc c = some p) : m.state p ≠ .unused := by
  rw [wf.onCpu runs]
  exact (m.pc p).runsAs_ne_unused

theorem Wf.on_running (wf : Wf m) (runs : m.proc c = some p) (outside : m.lock none ≠ some c) :
    m.state p = .running := by
  rw [wf.onCpu runs]
  by_contra changed
  refine outside ((wf.table c).mpr ?_)
  rw [Machine.inTable, runs]
  exact Pc.inTable_of_runsAs changed

structure Moved (m next : Machine C L K) (c : C) (p : Slot) (place : Pc L K) : Prop where
  runs : m.proc c = some p
  proc : next.proc = m.proc
  scan : next.scan = m.scan
  pc : next.pc = update m.pc p place
  state : next.state = update m.state p place.runsAs
  table : next.lock none = some c ↔ place.inTable = true
  elsewhere : ∀ c', c' ≠ c → (next.lock none = some c' ↔ m.lock none = some c')
  others : ∀ l c', c' ≠ c → m.lock (some l) = some c' → next.lock (some l) = some c'
  needs : ∀ l, place.needs = some l → next.lock (some l) = some c
  forks : ∀ np, place.forks = some np → m.state np = .embryo ∧ ∀ q, (m.pc q).forks = some np → q = p
  stacked : ∀ np, place.stacked = some np → m.pc np = .forkret
  proper : place.proper = true

variable {pc : Pc L K}

theorem Moved.other (moved : Moved m next c p pc) (differs : q ≠ p) :
    next.pc q = m.pc q ∧ next.state q = m.state q := by
  rw [moved.pc, moved.state]
  exact ⟨update_of_ne differs _ _, update_of_ne differs _ _⟩

theorem Moved.self (moved : Moved m next c p pc) : next.pc p = pc ∧ next.state p = pc.runsAs := by
  rw [moved.pc, moved.state]
  exact ⟨update_self _ _ _, update_self _ _ _⟩

theorem Moved.inTable_other (moved : Moved m next c p pc) (wf : Wf m) {c' : C} (differs : c' ≠ c) :
    next.inTable c' = m.inTable c' := by
  rw [Machine.inTable, Machine.inTable, moved.proc, moved.scan]
  cases runs : m.proc c' with
  | none => rfl
  | some q =>
      have apart : q ≠ p := by
        rintro rfl
        exact differs (wf.single runs moved.runs)
      dsimp only
      rw [(moved.other apart).1]

theorem Moved.table_iff (moved : Moved m next c p pc) (wf : Wf m) (c' : C) :
    next.lock none = some c' ↔ next.inTable c' = true := by
  by_cases self : c' = c
  · subst self
    rw [Machine.inTable, moved.proc, moved.runs]
    dsimp only
    rw [moved.self.1, moved.table]
  · rw [moved.inTable_other wf self, ← wf.table, moved.elsewhere c' self]

theorem Wf.moved (wf : Wf m) (moved : Moved m next c p pc) : Wf next := by
  have child (np : Slot) (embryo : m.state np = .embryo) : np ≠ p := by
    rintro rfl
    exact wf.on_ne_embryo moved.runs embryo
  refine ⟨moved.table_iff wf, ?_, ?_, ?_, ?_, ?_, ?_, ?_, ?_, ?_⟩
  · rw [moved.proc]
    exact wf.single
  · intro c' q runs
    rw [moved.proc] at runs
    by_cases self : q = p
    · rw [self, moved.self.1, moved.self.2]
    · rw [(moved.other self).1, (moved.other self).2]
      exact wf.onCpu runs
  · intro q running
    rw [moved.proc]
    by_cases self : q = p
    · exact ⟨c, self ▸ moved.runs⟩
    · rw [(moved.other self).2] at running
      exact wf.running running
  · intro q waits
    rw [moved.proc]
    by_cases self : q = p
    · exact Or.inl ⟨c, self ▸ moved.runs⟩
    · rw [(moved.other self).2] at waits
      rw [(moved.other self).1]
      exact wf.parked waits
  · intro c' q l runs needs
    rw [moved.proc] at runs
    by_cases self : q = p
    · subst self
      rw [wf.single runs moved.runs]
      exact moved.needs l (moved.self.1 ▸ needs)
    · rw [(moved.other self).1] at needs
      refine moved.others l c' ?_ (wf.held runs needs)
      rintro rfl
      exact self (Option.some.inj (runs.symm.trans moved.runs))
  · intro q np forks
    by_cases self : q = p
    · rw [self, moved.self.1] at forks
      have embryo := (moved.forks np forks).1
      rw [(moved.other (child np embryo)).2, embryo]
    · rw [(moved.other self).1] at forks
      have embryo := wf.newborn forks
      rw [(moved.other (child np embryo)).2, embryo]
  · intro first second np one two
    by_cases here : first = p <;> by_cases there : second = p
    · rw [here, there]
    · rw [here, moved.self.1] at one
      rw [(moved.other there).1] at two
      rw [here, (moved.forks np one).2 second two]
    · rw [(moved.other here).1] at one
      rw [there, moved.self.1] at two
      rw [there, (moved.forks np two).2 first one]
    · rw [(moved.other here).1] at one
      rw [(moved.other there).1] at two
      exact wf.owner one two
  · intro q np stacked
    by_cases self : q = p
    · rw [self, moved.self.1] at stacked
      have embryo := (moved.forks np (Pc.forks_of_stacked stacked)).1
      rw [(moved.other (child np embryo)).1, moved.stacked np stacked]
    · rw [(moved.other self).1] at stacked
      have embryo := wf.newborn (Pc.forks_of_stacked stacked)
      rw [(moved.other (child np embryo)).1, wf.stacked stacked]
  · intro q
    by_cases self : q = p
    · rw [self, moved.self.1, moved.proper]
    · rw [(moved.other self).1, wf.proper]

theorem Wf.woken (wf : Wf m) (woken : Woken m.state next.state)
    (apart : ∀ c q, m.proc c = some q → m.state q ≠ .sleeping) (pc : next.pc = m.pc)
    (proc : next.proc = m.proc) (scan : next.scan = m.scan) (lock : next.lock = m.lock) : Wf next := by
  have inside (c : C) : next.inTable c = m.inTable c := by
    rw [Machine.inTable, Machine.inTable, pc, proc, scan]
  refine ⟨?_, by rw [proc]; exact wf.single, ?_, ?_, ?_, ?_, ?_, ?_, ?_, by rw [pc]; exact wf.proper⟩
  · intro c
    rw [lock, inside]
    exact wf.table c
  · intro c q runs
    rw [proc] at runs
    rcases woken q with same | ⟨slept, -⟩
    · rw [same, pc]
      exact wf.onCpu runs
    · exact absurd slept (apart c q runs)
  · intro q running
    rw [woken.eq_iff (by simp) (by simp)] at running
    rw [proc]
    exact wf.running running
  · intro q waits
    rw [proc, pc]
    rcases woken q with same | ⟨slept, -⟩
    · rw [same] at waits
      exact wf.parked waits
    · exact wf.parked (Or.inl slept)
  · rw [proc, pc, lock]
    exact wf.held
  · intro q np forks
    rw [pc] at forks
    exact (woken.eq_iff (by simp) (by simp)).mpr (wf.newborn forks)
  · rw [pc]
    exact wf.owner
  · rw [pc]
    exact wf.stacked

theorem Wf.setState (wf : Wf m) (q : Slot) (state : ProcState) (off : ∀ c, m.proc c ≠ some q)
    (stopped : state ≠ .running)
    (ready : state = .sleeping ∨ state = .runnable → (m.pc q).resumes = true)
    (unborn : state = .embryo ∨ ∀ p, (m.pc p).forks ≠ some q) : Wf (m.setState q state) := by
  refine ⟨wf.table, wf.single, ?_, ?_, ?_, wf.held, ?_, wf.owner, wf.stacked, wf.proper⟩
  · intro c p runs
    have apart : p ≠ q := by
      rintro rfl
      exact off c runs
    rw [setState_state, update_of_ne apart]
    exact wf.onCpu runs
  · intro p running
    rw [setState_state] at running
    by_cases self : p = q
    · rw [self, update_self] at running
      exact absurd running stopped
    · rw [update_of_ne self] at running
      exact wf.running running
  · intro p waits
    rw [setState_state] at waits
    by_cases self : p = q
    · rw [self, update_self] at waits
      exact Or.inr (self ▸ ready waits)
    · rw [update_of_ne self] at waits
      exact wf.parked waits
  · intro p np forks
    rw [setState_state]
    by_cases self : np = q
    · subst self
      rcases unborn with embryo | none
      · rw [update_self, embryo]
      · exact absurd forks (none p)
    · rw [update_of_ne self]
      exact wf.newborn forks

theorem Wf.begin (wf : Wf m) (embryo : m.state q = .embryo) : Wf (m.goto q .forkret) := by
  have off (c : C) (runs : m.proc c = some q) : False := wf.on_ne_embryo runs embryo
  have same (p : Slot) (apart : p ≠ q) : (m.goto q .forkret).pc p = m.pc p := by
    rw [goto_pc, update_of_ne apart]
  have here : (m.goto q .forkret).pc q = .forkret := by rw [goto_pc, update_self]
  have moved (c : C) (p : Slot) (runs : m.proc c = some p) : p ≠ q := by
    rintro rfl
    exact off c runs
  have forks (p np : Slot) (creates : ((m.goto q .forkret).pc p).forks = some np) :
      p ≠ q ∧ (m.pc p).forks = some np := by
    by_cases self : p = q
    · rw [self, here] at creates
      simp [Pc.forks] at creates
    · rw [same p self] at creates
      exact ⟨self, creates⟩
  refine ⟨?_, wf.single, ?_, wf.running, ?_, ?_, ?_, ?_, ?_, ?_⟩
  · intro c
    have inside : (m.goto q .forkret).inTable c = m.inTable c := by
      rw [Machine.inTable, Machine.inTable]
      change (match m.proc c with
        | some p => ((m.goto q .forkret).pc p).inTable
        | none => (m.scan c).isSome) = _
      cases runs : m.proc c with
      | none => rfl
      | some p =>
          dsimp only
          rw [same p (moved c p runs)]
    rw [inside]
    exact wf.table c
  · intro c p runs
    rw [same p (moved c p runs)]
    exact wf.onCpu runs
  · intro p waits
    have apart : p ≠ q := by
      rintro rfl
      have state : m.state p = .sleeping ∨ m.state p = .runnable := waits
      simp [embryo] at state
    rw [same p apart]
    exact wf.parked waits
  · intro c p l runs needs
    rw [same p (moved c p runs)] at needs
    exact wf.held runs needs
  · intro p np creates
    exact wf.newborn (forks p np creates).2
  · intro first second np one two
    exact wf.owner (forks first np one).2 (forks second np two).2
  · intro p np stacked
    by_cases self : np = q
    · rw [self, here]
    · have apart := (forks p np (Pc.forks_of_stacked stacked)).1
      rw [same p apart] at stacked
      rw [same np self]
      exact wf.stacked stacked
  · intro p
    by_cases self : p = q
    · rw [self, here]
      rfl
    · rw [same p self, wf.proper]

theorem Wf.stay (wf : Wf m) (runs : m.proc c = some p) (same : pc.runsAs = (m.pc p).runsAs) :
    m.state = update m.state p pc.runsAs := by
  rw [same, ← wf.onCpu runs, update_eq_self]

end Lemmas

section Steps

variable [DecidableEq C] {m next : Machine C L K} {c : C} {p q : Slot} {pc : Pc L K}

theorem Wf.sched {start : Nat} (wf : Wf m) (runs : m.proc c = some p)
    (returns : (m.pc p).returns = some pc) (locked : m.lock none = some c) :
    Wf { m.goto p pc with
      proc := update m.proc c none
      scan := update m.scan c (some start) } := by
  obtain ⟨stopped, resumes, forks, stacked, proper⟩ := Pc.returns_spec returns
  have off {c' : C} {q : Slot} (there : update m.proc c none c' = some q) :
      c' ≠ c ∧ q ≠ p ∧ m.proc c' = some q := by
    have apart : c' ≠ c := by
      rintro rfl
      simp at there
    rw [update_of_ne apart] at there
    refine ⟨apart, ?_, there⟩
    rintro rfl
    exact apart (wf.single there runs)
  have same {q : Slot} (apart : q ≠ p) : update m.pc p pc q = m.pc q :=
    update_of_ne apart _ _
  have forksSame (q : Slot) : (update m.pc p pc q).forks = (m.pc q).forks := by
    by_cases self : q = p
    · rw [self, update_self, forks]
    · rw [same self]
  have stackedSame (q : Slot) : (update m.pc p pc q).stacked = (m.pc q).stacked := by
    by_cases self : q = p
    · rw [self, update_self, stacked]
    · rw [same self]
  refine ⟨?_, ?_, ?_, ?_, ?_, ?_, ?_, ?_, ?_, ?_⟩
  · intro c'
    by_cases self : c' = c
    · subst self
      simp [Machine.inTable, locked, Machine.goto]
    · have before := wf.table c'
      have inside : m.inTable c' = Machine.inTable { m.goto p pc with
          proc := update m.proc c none
          scan := update m.scan c (some start) } c' := by
        simp only [Machine.inTable, update_of_ne self, goto_pc]
        cases there : m.proc c' with
        | none => rfl
        | some q =>
            dsimp only
            rw [same]
            rintro rfl
            exact self (wf.single there runs)
      rw [← inside]
      exact before
  · intro c' c'' q one two
    exact wf.single (off one).2.2 (off two).2.2
  · intro c' q there
    obtain ⟨-, apart, before⟩ := off there
    dsimp only
    rw [goto_pc, same apart]
    exact wf.onCpu before
  · intro q running
    obtain ⟨c', there⟩ := wf.running running
    refine ⟨c', ?_⟩
    dsimp only
    rw [update_of_ne, there]
    rintro rfl
    obtain rfl := Option.some.inj (there.symm.trans runs)
    exact stopped (wf.onCpu runs ▸ running)
  · intro q waits
    by_cases self : q = p
    · subst self
      right
      dsimp only
      rw [goto_pc, update_self]
      apply resumes
      rw [← wf.onCpu runs]
      intro dead
      have state : m.state q = .sleeping ∨ m.state q = .runnable := waits
      simp [dead] at state
    · rcases wf.parked waits with ⟨c', there⟩ | rest
      · refine Or.inl ⟨c', ?_⟩
        dsimp only
        rw [update_of_ne, there]
        rintro rfl
        exact self (Option.some.inj (there.symm.trans runs))
      · right
        dsimp only
        rw [goto_pc, same self]
        exact rest
  · intro c' q l there needs
    obtain ⟨-, apart, before⟩ := off there
    dsimp only at needs
    rw [goto_pc, same apart] at needs
    exact wf.held before needs
  · intro q np creates
    dsimp only at creates
    rw [goto_pc, forksSame] at creates
    exact wf.newborn creates
  · intro first second np one two
    dsimp only at one two
    rw [goto_pc, forksSame] at one two
    exact wf.owner one two
  · intro q np creates
    dsimp only at creates ⊢
    rw [goto_pc, stackedSame] at creates
    rw [goto_pc, same, wf.stacked creates]
    rintro rfl
    exact wf.on_ne_embryo runs (wf.newborn (Pc.forks_of_stacked creates))
  · intro q
    dsimp only
    rw [goto_pc]
    by_cases self : q = p
    · rw [self, update_self, proper, wf.proper]
    · rw [same self, wf.proper]

omit [DecidableEq C] in
theorem Wf.off_of_ready (wf : Wf m) (idle : m.proc c = none) (locked : m.lock none = some c)
    (ready : m.state q = .runnable) (c' : C) : m.proc c' ≠ some q := by
  intro there
  have running := wf.on_running there (by
    rw [locked, Ne, Option.some.injEq]
    rintro rfl
    simp [idle] at there)
  simp [ready] at running

omit [DecidableEq C] in
theorem Wf.resumes_of_ready (wf : Wf m) (idle : m.proc c = none) (locked : m.lock none = some c)
    (ready : m.state q = .runnable) : (m.pc q).resumes = true := by
  rcases wf.parked (Or.inr ready) with ⟨c', there⟩ | rest
  · exact absurd there (wf.off_of_ready idle locked ready c')
  · exact rest

theorem Wf.pick (wf : Wf m) (idle : m.proc c = none) (scanning : (m.scan c).isSome)
    (ready : m.state q = .runnable) :
    Wf { m.setState q .running with
      proc := update m.proc c (some q)
      scan := update m.scan c none } := by
  have locked : m.lock none = some c := by
    rw [wf.table, Machine.inTable, idle]
    exact scanning
  have off := wf.off_of_ready idle locked ready
  have waits := wf.resumes_of_ready idle locked ready
  obtain ⟨inside, needless, runs⟩ := Pc.resumes_spec waits
  have procs {c' : C} {p : Slot} (there : update m.proc c (some q) c' = some p) :
      c' = c ∧ p = q ∨ c' ≠ c ∧ p ≠ q ∧ m.proc c' = some p := by
    by_cases self : c' = c
    · subst self
      rw [update_self, Option.some.injEq] at there
      exact Or.inl ⟨rfl, there.symm⟩
    · rw [update_of_ne self] at there
      refine Or.inr ⟨self, ?_, there⟩
      rintro rfl
      exact off c' there
  refine ⟨?_, ?_, ?_, ?_, ?_, ?_, ?_, wf.owner, wf.stacked, wf.proper⟩
  · intro c'
    by_cases self : c' = c
    · subst self
      simp [Machine.inTable, Machine.setState, locked, inside]
    · have before := wf.table c'
      simpa [Machine.inTable, Machine.setState, update_of_ne self] using before
  · intro c' c'' p one two
    rcases procs one with ⟨first, same⟩ | ⟨-, apart, first⟩ <;>
      rcases procs two with ⟨second, same'⟩ | ⟨-, apart', second⟩
    · rw [first, second]
    · exact absurd same apart'
    · exact absurd same' apart
    · exact wf.single first second
  · intro c' p there
    dsimp only
    rw [setState_state]
    rcases procs there with ⟨-, rfl⟩ | ⟨-, apart, before⟩
    · rw [update_self, ← runs]
      rfl
    · rw [update_of_ne apart]
      exact wf.onCpu before
  · intro p running
    dsimp only at running ⊢
    rw [setState_state] at running
    by_cases self : p = q
    · exact ⟨c, by rw [update_self, self]⟩
    · rw [update_of_ne self] at running
      obtain ⟨c', there⟩ := wf.running running
      refine ⟨c', ?_⟩
      rw [update_of_ne, there]
      rintro rfl
      simp [idle] at there
  · intro p waiting
    dsimp only at waiting ⊢
    rw [setState_state] at waiting
    by_cases self : p = q
    · simp [self] at waiting
    · rw [update_of_ne self] at waiting
      rcases wf.parked waiting with ⟨c', there⟩ | rest
      · refine Or.inl ⟨c', ?_⟩
        rw [update_of_ne, there]
        rintro rfl
        simp [idle] at there
      · exact Or.inr rest
  · intro c' p l there needs
    rcases procs there with ⟨-, rfl⟩ | ⟨-, -, before⟩
    · have none : (m.pc p).needs = some l := needs
      simp [needless] at none
    · exact wf.held before needs
  · intro p np creates
    dsimp only
    rw [setState_state, update_of_ne]
    · exact wf.newborn creates
    · rintro rfl
      have embryo := wf.newborn creates
      simp [ready] at embryo

theorem Wf.rescan [DecidableEq L] {holder : Option C} {position : Option Nat} (wf : Wf m)
    (idle : m.proc c = none) (before : m.lock none = none ∨ m.lock none = some c)
    (agrees : holder = if position.isSome then some c else none) :
    Wf { m with
      lock := update m.lock none holder
      scan := update m.scan c position } := by
  refine ⟨?_, wf.single, wf.onCpu, wf.running, wf.parked, ?_, wf.newborn, wf.owner, wf.stacked,
    wf.proper⟩
  · intro c'
    by_cases self : c' = c
    · subst self
      cases position <;> simp [Machine.inTable, idle, agrees]
    · have free : m.lock none ≠ some c' := by
        rcases before with unlocked | locked
        · simp [unlocked]
        · simp [locked, Ne.symm self]
      have outside : m.inTable c' = false := by
        rw [Bool.eq_false_iff, Ne, ← wf.table]
        exact free
      have same : Machine.inTable { m with
          lock := update m.lock none holder
          scan := update m.scan c position } c' = m.inTable c' := by
        simp [Machine.inTable, update_of_ne self]
      rw [same, outside]
      cases position <;> simp [agrees, Ne.symm self]
  · intro c' p l runs needs
    dsimp only
    rw [update_of_ne (by simp)]
    exact wf.held runs needs

omit [DecidableEq C] in
theorem Wf.relock [DecidableEq L] {l : L} {holder : Option C} (wf : Wf m)
    (safe : ∀ c p, m.proc c = some p → (m.pc p).needs = some l → holder = some c) :
    Wf { m with lock := update m.lock (some l) holder } := by
  refine ⟨?_, wf.single, wf.onCpu, wf.running, wf.parked, ?_, wf.newborn, wf.owner, wf.stacked,
    wf.proper⟩
  · intro c
    dsimp only
    rw [update_of_ne (by simp)]
    exact wf.table c
  · intro c p k runs needs
    dsimp only
    by_cases same : k = l
    · subst same
      rw [update_self]
      exact safe c p runs needs
    · rw [update_of_ne (by simpa using same)]
      exact wf.held runs needs

omit [DecidableEq C]

theorem Enters.spec {action : Action L K} {place : Pc L K} (enters : Enters action place pc) :
    place.runsAs = .running ∧ pc.runsAs = .running ∧ pc.inTable = true ∧ pc.needs = place.needs ∧
      pc.forks = none ∧ pc.proper = true := by
  cases enters <;> simp [Pc.runsAs, Pc.inTable, Pc.needs, Pc.forks, Pc.proper]

theorem Leaves.spec {action : Action L K} {place : Pc L K} (leaves : Leaves action place pc)
    (proper : place.proper = true) :
    place.runsAs = .running ∧ pc.runsAs = .running ∧ pc.inTable = false ∧ pc.needs = none ∧
      (∀ np, pc.forks = some np → place.forks = some np) ∧
      (∀ np, pc.stacked = some np → place.stacked = some np) ∧ pc.proper = true := by
  cases leaves with
  | yield =>
      obtain ⟨outside, needless, runs⟩ := Pc.interruptible_spec proper
      refine ⟨rfl, runs, outside, needless, fun np forks => forks, fun np stacked => stacked, ?_⟩
      cases pc <;> simp_all [Pc.proper, Pc.interruptible]
  | _ => simp [Pc.runsAs, Pc.inTable, Pc.needs, Pc.forks, Pc.stacked, Pc.proper]

theorem Shifts.spec {action : Action L K} {place : Pc L K} (shifts : Shifts action place pc) :
    place.runsAs = .running ∧ pc.runsAs = .running ∧ pc.inTable = place.inTable ∧ pc.needs = none ∧
      pc.forks = place.forks ∧ pc.stacked = place.stacked ∧ pc.proper = true := by
  cases shifts <;>
    simp [Pc.runsAs, Pc.inTable, Pc.needs, Pc.forks, Pc.stacked, Pc.proper]

theorem Calls.spec {lock : Option L → Option C} {action : Action L K} {place : Pc L K}
    (calls : Calls lock c p action place pc) :
    place.runsAs = .running ∧ pc.runsAs = .running ∧ pc.inTable = place.inTable ∧
      (∀ l, pc.needs = some l → lock (some l) = some c) ∧ pc.forks = none ∧ pc.proper = true := by
  cases calls with
  | lock held =>
      refine ⟨rfl, rfl, rfl, ?_, rfl, rfl⟩
      intro l needs
      obtain rfl := Option.some.inj needs
      exact held
  | _ => simp [Pc.runsAs, Pc.inTable, Pc.needs, Pc.forks, Pc.proper]

theorem Pc.stacked_of_forks {place : Pc L K} (none : place.forks = none) (np : Slot) :
    place.stacked ≠ some np := by
  intro stacked
  simp [Pc.forks_of_stacked stacked] at none

theorem Wf.table_self (wf : Wf m) (runs : m.proc c = some p) :
    m.lock none = some c ↔ (m.pc p).inTable = true := by
  rw [wf.table, Machine.inTable, runs]

theorem Wf.forks_kept (wf : Wf m) (kept : ∀ np, pc.forks = some np → (m.pc p).forks = some np) (np : Slot)
    (forks : pc.forks = some np) : m.state np = .embryo ∧ ∀ q, (m.pc q).forks = some np → q = p :=
  ⟨wf.newborn (kept np forks), fun _ other => wf.owner other (kept np forks)⟩

theorem Wf.moved_quietly (wf : Wf m) (runs : m.proc c = some p)
    (runsAs : pc.runsAs = (m.pc p).runsAs) (inTable : pc.inTable = (m.pc p).inTable)
    (needs : ∀ l, pc.needs = some l → m.lock (some l) = some c) (proper : pc.proper = true)
    (forks : ∀ np, pc.forks = some np → (m.pc p).forks = some np)
    (stacked : ∀ np, pc.stacked = some np → (m.pc p).stacked = some np) : Wf (m.goto p pc) := by
  refine wf.moved ⟨runs, rfl, rfl, rfl, wf.stay runs runsAs, ?_, fun _ _ => Iff.rfl,
    fun _ _ _ held => held, needs, wf.forks_kept forks, fun np creates => wf.stacked (stacked np creates),
    proper⟩
  rw [inTable]
  exact wf.table_self runs

theorem Wf.fork (wf : Wf m) (runs : m.proc c = some p) (user : m.pc p = .user)
    (unlocked : m.lock none = none) (found : m.state q = .unused) :
    Wf { (m.setState q .embryo).goto p (.forkStack q) with
      pid := update m.pid q m.nextpid
      nextpid := m.nextpid + 1
      created := m.created + 1 } := by
  have off (c : C) (there : m.proc c = some q) : False := wf.on_ne_unused there found
  have taken : Wf (m.setState q .embryo) := wf.setState q .embryo off (by simp) (by simp) (Or.inl rfl)
  refine taken.moved (c := c) (p := p) ⟨runs, rfl, rfl, rfl, taken.stay runs ?_, ?_, fun _ _ => Iff.rfl,
    fun _ _ _ held => held, by simp [Pc.needs], ?_, by simp [Pc.stacked], rfl⟩
  · change (Pc.forkStack q : Pc L K).runsAs = (m.pc p).runsAs
    rw [user]
    rfl
  · simp [Machine.goto, Machine.setState, unlocked, Pc.inTable]
  · intro np forks
    obtain rfl := Option.some.inj forks
    refine ⟨by simp, fun r creates => ?_⟩
    have embryo := wf.newborn creates
    simp [found] at embryo

theorem Wf.forkStack (wf : Wf m) (runs : m.proc c = some p) (here : m.pc p = .forkStack q) :
    Wf ((m.goto q .forkret).goto p (.forkCopy q)) := by
  have creates : (m.pc p).forks = some q := by
    rw [here]
    rfl
  have embryo := wf.newborn creates
  have apart : p ≠ q := by
    rintro rfl
    exact wf.on_ne_embryo runs embryo
  have begun := wf.begin embryo
  have same : (m.goto q .forkret).pc p = .forkStack q := by
    rw [goto_pc, update_of_ne apart, here]
  refine begun.moved (c := c) (p := p) ⟨runs, rfl, rfl, rfl, begun.stay runs ?_, ?_, fun _ _ => Iff.rfl,
    fun _ _ _ held => held, by simp [Pc.needs], ?_, ?_, rfl⟩
  · rw [same]
    rfl
  · exact (begun.table_self runs).trans (by rw [same]; rfl)
  · exact begun.forks_kept fun np forks => by rw [same]; exact forks
  · intro np stacked
    obtain rfl := Option.some.inj stacked
    rw [goto_pc, update_self]

theorem Wf.forks_left (wf : Wf m) (creates : (m.pc p).forks = some q) (none : pc.forks = none) (r : Slot) :
    ((m.goto p pc).pc r).forks ≠ some q := by
  rw [goto_pc]
  by_cases self : r = p
  · rw [self, update_self, none]
    simp
  · rw [update_of_ne self]
    intro forks
    exact self (wf.owner forks creates)

theorem Wf.forkFail (wf : Wf m) (runs : m.proc c = some p) (fails : Fails (m.pc p) q) :
    Wf ((m.setState q .unused).goto p .user) := by
  have creates : (m.pc p).forks = some q := by
    obtain ⟨pc, here⟩ : ∃ pc, m.pc p = pc := ⟨_, rfl⟩
    rw [here] at fails ⊢
    cases fails <;> rfl
  have outside : (m.pc p).inTable = false ∧ (m.pc p).runsAs = .running := by
    obtain ⟨pc, here⟩ : ∃ pc, m.pc p = pc := ⟨_, rfl⟩
    rw [here] at fails ⊢
    cases fails <;> exact ⟨rfl, rfl⟩
  have moved : Wf (m.goto p .user) :=
    wf.moved_quietly runs (by rw [outside.2]; rfl) (by rw [outside.1]; rfl) (by simp [Pc.needs]) rfl
      (by simp [Pc.forks]) (by simp [Pc.stacked])
  exact moved.setState q .unused (fun c there => wf.on_ne_embryo there (wf.newborn creates)) (by simp)
    (by simp) (Or.inr (wf.forks_left creates rfl))

theorem Wf.forkReady (wf : Wf m) (runs : m.proc c = some p) (here : m.pc p = .forkReady q) :
    Wf ((m.setState q .runnable).goto p .user) := by
  have creates : (m.pc p).forks = some q := by
    rw [here]
    rfl
  have stacked : m.pc q = .forkret := wf.stacked (p := p) (by rw [here]; rfl)
  have apart : q ≠ p := by
    rintro rfl
    exact wf.on_ne_embryo runs (wf.newborn creates)
  have moved : Wf (m.goto p .user) :=
    wf.moved_quietly runs (by rw [here]; rfl) (by rw [here]; rfl) (by simp [Pc.needs]) rfl
      (by simp [Pc.forks]) (by simp [Pc.stacked])
  refine moved.setState q .runnable (fun c there => wf.on_ne_embryo there (wf.newborn creates)) (by simp)
    ?_ (Or.inr (wf.forks_left creates rfl))
  intro _
  rw [goto_pc, update_of_ne apart, stacked]
  rfl

theorem zombieChild_some (found : m.zombieChild p = some q) :
    m.parent q = some p ∧ m.state q = .zombie := by
  have spec := List.find?_some found
  simpa using spec

theorem Wf.zombie_off (wf : Wf m) (runs : m.proc c = some p) (locked : m.lock none = some c)
    (running : m.state p = .running) (dead : m.state q = .zombie) (c' : C) : m.proc c' ≠ some q := by
  intro there
  by_cases self : c' = c
  · subst self
    obtain rfl := Option.some.inj (there.symm.trans runs)
    simp [running] at dead
  · have alive := wf.on_running there (by simp [locked, Ne.symm self])
    simp [alive] at dead

variable [DecidableEq L]

@[simp] theorem lock_some {lock : Option L → Option C} {holder : Option C} (l : L) :
    update lock none holder (some l) = lock (some l) :=
  update_of_ne (Option.some_ne_none l) _ _

@[simp] theorem lock_none {lock : Option L → Option C} {holder : Option C} (l : L) :
    update lock (some l) holder none = lock none :=
  update_of_ne (Option.some_ne_none l).symm _ _

theorem lock_elsewhere {lock : Option L → Option C} {holder : Option C} {c' : C} (differs : c' ≠ c)
    (before : lock none = none ∨ lock none = some c) (after : holder = none ∨ holder = some c) :
    update lock none holder none = some c' ↔ lock none = some c' := by
  rw [update_self]
  rcases before with free | locked <;> rcases after with none | mine <;>
    simp_all [Ne.symm differs]

variable [DecidableEq C] [DecidableEq K]

omit [DecidableEq C] in
theorem Wf.exit (wf : Wf m) (runs : m.proc c = some p) (other : p ≠ initproc)
    (unlocked : m.lock none = none) :
    Wf (({ m with lock := update m.lock none (some c) }.exit p).goto p .exitSched) := by
  have exits := exit_exits (m := { m with lock := update m.lock none (some c) }) other
  obtain ⟨after, same⟩ :
      ∃ after, after = { m with lock := update m.lock none (some c) }.exit p := ⟨_, rfl⟩
  rw [← same] at exits ⊢
  have running : m.state p = .running := wf.on_running runs (by simp [unlocked])
  have woken : Wf { m with state := update after.state p .running } := by
    refine wf.woken ?_ ?_ rfl rfl rfl rfl
    · intro r
      dsimp only
      by_cases self : r = p
      · rw [self, update_self, running]
        exact Or.inl rfl
      · rw [update_of_ne self]
        exact exits.woken r self
    · intro c' r there
      rw [wf.on_running there (by simp [unlocked])]
      simp
  have frame := exits.frame
  have moved : Moved { m with state := update after.state p .running } (after.goto p .exitSched)
      c p .exitSched := by
    refine ⟨runs, ?_, ?_, ?_, ?_, ?_, fun c' differs => ?_, fun l c' _ held => ?_, by simp [Pc.needs],
      by simp [Pc.forks], by simp [Pc.stacked], rfl⟩
    · rw [frame]
      rfl
    · rw [frame]
      rfl
    · rw [frame]
      rfl
    · have zombie : after.state = update (update after.state p .running) p .zombie := by
        rw [update_idem, ← exits.zombie, update_eq_self]
      exact zombie
    · rw [frame]
      simp [Machine.goto, Pc.inTable]
    · rw [frame]
      exact lock_elsewhere differs (Or.inl unlocked) (Or.inr rfl)
    · rw [frame]
      dsimp only [Machine.goto]
      rw [lock_some]
      exact held
  exact woken.moved moved

omit [DecidableEq C] [DecidableEq K] in
theorem Wf.reap (wf : Wf m) (runs : m.proc c = some p) (here : m.pc p = .waitScan)
    (found : m.zombieChild p = some q) (locked : m.lock none = some c) :
    Wf { (m.reap q).goto p .user with lock := update m.lock none none } := by
  obtain ⟨-, dead⟩ := zombieChild_some found
  have running : m.state p = .running := by
    rw [wf.onCpu runs, here]
    rfl
  have moved : Wf { m.goto p .user with lock := update m.lock none none } := by
    refine wf.moved ⟨runs, rfl, rfl, rfl, wf.stay runs (by rw [here]; rfl), by simp [Pc.inTable],
      fun c' differs => lock_elsewhere differs (Or.inr locked) (Or.inl rfl), fun l c' _ held => ?_,
      by simp [Pc.needs], by simp [Pc.forks], by simp [Pc.stacked], rfl⟩
    dsimp only
    rw [lock_some, held]
  have freed := moved.setState q .unused (wf.zombie_off runs locked running dead) (by simp) (by simp)
    (Or.inr ?_)
  · exact freed.congr rfl rfl rfl rfl rfl
  · intro r creates
    dsimp only at creates
    rw [goto_pc] at creates
    by_cases self : r = p
    · rw [self, update_self] at creates
      simp [Pc.forks] at creates
    · rw [update_of_ne self] at creates
      have embryo := wf.newborn creates
      simp [dead] at embryo

theorem Wf.step {action : Action L K} (wf : Wf m) (moves : Moves m c action next) : Wf next := by
  cases moves with
  | acquire _ unlocked =>
      refine wf.relock fun c' p runs needs => ?_
      simp [wf.held runs needs] at unlocked
  | release open' locked =>
      refine wf.relock fun c' p runs needs => ?_
      have same : c' = c := by
        have held := wf.held runs needs
        rw [locked, Option.some.injEq] at held
        exact held.symm
      subst same
      rw [Machine.interruptible, runs] at open'
      simp [(Pc.interruptible_spec open').2.1] at needs
  | wakeup _ unlocked =>
      refine wf.woken (wakeup1_woken _) ?_ rfl rfl rfl rfl
      intro c' q runs
      rw [wf.on_running runs (by simp [unlocked])]
      simp
  | startScan idle _ unlocked => exact wf.rescan idle (Or.inl unlocked) rfl
  | pick idle inside ready => exact wf.pick idle (by simp [inside]) ready
  | endScan idle _ locked => exact wf.rescan idle (Or.inr locked) rfl
  | enter runs enters unlocked =>
      obtain ⟨before, after, inside, needs, forks, proper⟩ := enters.spec
      refine wf.moved ⟨runs, rfl, rfl, rfl, wf.stay runs (after.trans before.symm), by simp [inside],
        fun c' differs => lock_elsewhere differs (Or.inl unlocked) (Or.inr rfl), fun l c' _ held => ?_,
        fun l lock => ?_, by simp [forks],
        fun np stacked => absurd stacked (Pc.stacked_of_forks forks np), proper⟩
      · dsimp only
        rw [lock_some, held]
      · dsimp only
        rw [lock_some, wf.held runs (needs ▸ lock)]
  | leave runs leaves locked =>
      obtain ⟨before, after, outside, needless, forks, stacked, proper⟩ := leaves.spec (wf.proper _)
      refine wf.moved ⟨runs, rfl, rfl, rfl, wf.stay runs (after.trans before.symm), by simp [outside],
        fun c' differs => lock_elsewhere differs (Or.inr locked) (Or.inl rfl), fun l c' _ held => ?_,
        by simp [needless], wf.forks_kept forks, fun np creates => wf.stacked (stacked np creates), proper⟩
      dsimp only
      rw [lock_some, held]
  | shift runs shifts =>
      obtain ⟨before, after, inside, needless, forks, stacked, proper⟩ := shifts.spec
      exact (wf.moved_quietly runs (after.trans before.symm) inside (by simp [needless]) proper
        (by simp [forks]) (by simp [stacked])).congr rfl rfl rfl rfl rfl
  | call runs calls =>
      obtain ⟨before, after, inside, needs, forks, proper⟩ := calls.spec
      exact (wf.moved_quietly runs (after.trans before.symm) inside needs proper
        (by simp [forks]) (fun np stacked => absurd stacked (Pc.stacked_of_forks forks np))).congr
        rfl rfl rfl rfl rfl
  | wakeup1 runs table =>
      refine wf.woken (wakeup1_woken _) ?_ rfl rfl rfl rfl
      intro c' q there
      have locked : m.lock none = some c := (wf.table_self runs).mpr (by rw [table]; rfl)
      by_cases self : c' = c
      · subst self
        obtain rfl := Option.some.inj (there.symm.trans runs)
        rw [wf.onCpu runs, table]
        simp [Pc.runsAs]
      · rw [wf.on_running there (by simp [locked, Ne.symm self])]
        simp
  | kill runs user unlocked =>
      refine wf.woken (kill_woken _) ?_ (by rw [kill_frame]) (by rw [kill_frame]) (by rw [kill_frame])
        (by rw [kill_frame])
      intro c' q there
      rw [wf.on_running there (by simp [unlocked])]
      simp
  | fork runs user unlocked found => exact wf.fork runs user unlocked found
  | forkFull runs user unlocked => exact wf
  | forkStack runs here => exact wf.forkStack runs here
  | forkFail runs fails => exact wf.forkFail runs fails
  | forkParent runs here =>
      exact (wf.moved_quietly runs (by rw [here]; rfl) (by rw [here]; rfl) (by simp [Pc.needs]) rfl
        (by simp [here, Pc.forks]) (by simp [here, Pc.stacked])).congr rfl rfl rfl rfl rfl
  | forkReady runs here unlocked => exact wf.forkReady runs here
  | exit runs user other unlocked => exact wf.exit runs other unlocked
  | sched runs returns locked only => exact wf.sched runs returns locked
  | reap runs here found locked => exact wf.reap runs here found locked
  | sleepRelease runs here locked =>
      refine wf.moved ⟨runs, rfl, rfl, rfl, wf.stay runs (by rw [here]; rfl), ?_, fun c' differs => ?_,
        fun l c' differs held => ?_, by simp [Pc.needs], by simp [Pc.forks], by simp [Pc.stacked], rfl⟩
      · dsimp only
        rw [lock_none, wf.table_self runs, here]
        rfl
      · dsimp only
        rw [lock_none]
      · dsimp only
        rw [update_of_ne, held]
        rintro same
        rw [Option.some.inj same, locked, Option.some.injEq] at held
        exact differs held.symm
  | sleepMark runs here =>
      refine wf.moved ⟨runs, rfl, rfl, rfl, rfl, ?_, fun _ _ => Iff.rfl, fun _ _ _ held => held,
        by simp [Pc.needs], by simp [Pc.forks], by simp [Pc.stacked], rfl⟩
      exact (wf.table_self runs).trans (by rw [here]; rfl)
  | sleepAcquire runs here unlocked =>
      refine wf.moved ⟨runs, rfl, rfl, rfl, wf.stay runs (by rw [here]; rfl), ?_, fun c' differs => ?_,
        fun l c' differs held => ?_, by simp [Pc.needs], by simp [Pc.forks], by simp [Pc.stacked], rfl⟩
      · dsimp only
        rw [lock_none, wf.table_self runs, here]
        rfl
      · dsimp only
        rw [lock_none]
      · dsimp only
        rw [update_of_ne, held]
        rintro same
        rw [Option.some.inj same, unlocked] at held
        simp at held
  | preempt runs open' none unlocked =>
      refine wf.moved ⟨runs, rfl, rfl, rfl, rfl, by simp [Pc.inTable],
        fun c' differs => lock_elsewhere differs (Or.inl unlocked) (Or.inr rfl), fun l c' _ held => ?_,
        by simp [Pc.needs], wf.forks_kept fun np forks => forks, fun np creates => wf.stacked creates,
        open'⟩
      dsimp only
      rw [lock_some, held]

theorem wf_run [Fintype L] {events : List (C × Action L K)} (reached : Runs.run Proc.step boot events = some m) :
    Wf m := by
  refine Runs.run_invariant (fun _ m => Wf m) boot_wf ?_ events m reached
  intro _ before event after wf stepped
  exact wf.step (moves_of_step stepped)

end Steps

end OsLabs.Proc
