import OsLabs.Proc.ProcTree

/-!
The system calls that read the process table without `ptable.lock`: `sys_pscnt` of `xv6/proc.c`,
which reads the state of one slot after the other, and `sys_getppid` of `xv6/sysproc.c`, which reads
the parent of the caller and then its pid.
-/

namespace OsLabs.Proc

open Function Runs

variable {C L K S : Type*}

/-- What may happen on the CPU of a process that makes no call of its own: the timer, and the
handlers of other interrupts. -/
def Action.interrupts : Action L K → Bool
  | .preempt | .acquire _ | .release _ | .wakeup _ => true
  | _ => false

inductive ReadEvent (C L K : Type*) where
  | read (c : C)
  | other (event : C × Action L K)
deriving DecidableEq, Repr

section Reading

variable [DecidableEq C] [DecidableEq L] [DecidableEq K] [Fintype L]

/-- The machine while process `caller` is in a system call with these local variables, of which
`read` is the next read of the table. -/
def readStep (caller : Slot) (read : Machine C L K → S → Option S) (s : Machine C L K × S) :
    ReadEvent C L K → Option (Machine C L K × S)
  | .read c =>
      if s.1.proc c = some caller ∧ s.1.pc caller = .user then (read s.1 s.2).map fun data => (s.1, data)
      else none
  | .other event =>
      if s.1.proc event.1 = some caller ∧ s.1.pc caller = .user ∧ event.2.interrupts = false then none
      else (step s.1 event).map fun m => (m, s.2)

variable {caller : Slot} {read : Machine C L K → S → Option S} {s next : Machine C L K × S}
  {event : ReadEvent C L K} {events : List (ReadEvent C L K)}

theorem readStep_cases (stepped : readStep caller read s event = some next) :
    (∃ c, event = .read c ∧ (s.1.proc c = some caller ∧ s.1.pc caller = .user) ∧ next.1 = s.1 ∧
      read s.1 s.2 = some next.2) ∨
      ∃ other, event = .other other ∧ step s.1 other = some next.1 ∧ next.2 = s.2 := by
  cases event with
  | read c =>
      simp only [readStep] at stepped
      split at stepped
      · rename_i guard
        obtain ⟨data, given, rfl⟩ := Option.map_eq_some_iff.mp stepped
        exact Or.inl ⟨c, rfl, guard, rfl, given⟩
      · simp at stepped
  | other other =>
      simp only [readStep] at stepped
      split at stepped
      · simp at stepped
      · obtain ⟨m, given, rfl⟩ := Option.map_eq_some_iff.mp stepped
        exact Or.inr ⟨other, rfl, given, rfl⟩

theorem Lawful.readStep (lawful : Lawful s.1) (stepped : readStep caller read s event = some next) :
    Lawful next.1 := by
  rcases readStep_cases stepped with ⟨-, -, -, same, -⟩ | ⟨other, -, went, -⟩
  · rwa [same]
  · exact lawful.step went

end Reading

section Counting

/-- The slots that are not `UNUSED`. -/
def Machine.used (m : Machine C L K) : Finset Slot := Finset.univ.filter fun q => m.state q ≠ .unused

theorem mem_used {m : Machine C L K} {q : Slot} : q ∈ m.used ↔ m.state q ≠ .unused := by
  simp [Machine.used]

/-- The step gives a slot back: `wait` finds a zombie, or `fork` fails. -/
def Machine.frees (m : Machine C L K) (event : C × Action L K) : Bool :=
  match m.proc event.1 with
  | none => false
  | some p =>
      match m.pc p, event.2 with
      | .waitScan, .go _ => (m.zombieChild p).isSome
      | .forkStack _, .go ok | .forkCopy _, .go ok => !ok
      | _, _ => false

def Machine.claims (m : Machine C L K) (event : C × Action L K) : Prop :=
  event.2 = .fork ∧ ∃ q, m.state q = .unused

variable {m next : Machine C L K} {c : C} {action : Action L K}

theorem used_congr (same : ∀ q, next.state q = .unused ↔ m.state q = .unused) : next.used = m.used := by
  ext q
  rw [mem_used, mem_used, not_iff_not, same]

theorem used_insert {q : Slot} {state : ProcState} (states : next.state = update m.state q state)
    (taken : state ≠ .unused) : next.used = insert q m.used := by
  ext r
  rw [mem_used, states, Finset.mem_insert, mem_used]
  by_cases same : r = q
  · simp [same, taken]
  · simp [same]

theorem used_erase {q : Slot} (states : next.state = update m.state q .unused) :
    next.used = m.used.erase q := by
  ext r
  rw [mem_used, states, Finset.mem_erase, mem_used]
  by_cases same : r = q
  · simp [same]
  · simp [same]

variable [DecidableEq C] [DecidableEq L] [DecidableEq K]

theorem used_step (moves : Moves m c action next) (wf : Wf m) :
    next.used = m.used ∨ (m.claims (c, action) ∧ ∃ q, next.used = insert q m.used) ∨
      (m.frees (c, action) = true ∧ ∃ q, next.used = m.used.erase q) := by
  rcases quiet_or_turns moves wf with quiet | turns
  · exact Or.inl (used_congr fun q => quiet.in_use q .unused (by simp))
  · cases turns with
    | @fork p np runs found => exact Or.inr (Or.inl ⟨⟨rfl, np, found⟩, np, used_insert rfl (by simp)⟩)
    | @fail p np runs fails =>
        refine Or.inr (Or.inr ⟨?_, np, used_erase rfl⟩)
        generalize here : m.pc p = pc at fails
        cases fails <;> simp [Machine.frees, runs, here]
    | adopt => exact Or.inl rfl
    | @ready p np _ runs here =>
        have embryo : m.state np = .embryo := wf.newborn (by rw [here]; rfl)
        have member : np ∈ m.used := mem_used.mpr (by simp [embryo])
        have grown : ((m.setState np .runnable).goto p .user).used = insert np m.used := used_insert rfl (by simp)
        exact Or.inl (grown.trans (Finset.insert_eq_self.mpr member))
    | @exit p runs user other unlocked =>
        have exits := exit_exits (m := { m with lock := update m.lock none (some c) }) other
        have running : m.state p = .running := wf.on_running runs (by simp [unlocked])
        exact Or.inl (used_congr fun q => exits.state_iff running q (Or.inl rfl))
    | @reap p q _ runs here found =>
        refine Or.inr (Or.inr ⟨?_, q, used_erase rfl⟩)
        simp [Machine.frees, runs, here, found]

theorem used_grows (moves : Moves m c action next) (wf : Wf m) (keeps : m.frees (c, action) = false) :
    m.used ⊆ next.used := by
  rcases used_step moves wf with same | ⟨-, q, grown⟩ | ⟨frees, -⟩
  · rw [same]
  · rw [grown]
    exact Finset.subset_insert _ _
  · simp [keeps] at frees

theorem used_shrinks (moves : Moves m c action next) (wf : Wf m) (keeps : ¬ m.claims (c, action)) :
    next.used ⊆ m.used := by
  rcases used_step moves wf with same | ⟨claims, -⟩ | ⟨-, q, shrunk⟩
  · rw [same]
  · exact absurd claims keeps
  · rw [shrunk]
    exact Finset.erase_subset _ _

theorem card_used_step (moves : Moves m c action next) (wf : Wf m) :
    next.used.card ≤ m.used.card + 1 ∧ m.used.card ≤ next.used.card + 1 := by
  rcases used_step moves wf with same | ⟨-, q, grown⟩ | ⟨-, q, shrunk⟩
  · rw [same]
    omega
  · have more := Finset.card_insert_le q m.used
    have fewer := Finset.card_le_card (Finset.subset_insert q m.used)
    rw [grown]
    omega
  · have more := Finset.pred_card_le_card_erase (s := m.used) (a := q)
    have fewer := Finset.card_le_card (Finset.erase_subset q m.used)
    rw [shrunk]
    omega

end Counting

section Pscnt

/-- The local variables of `sys_pscnt`: the next slot to read, and the count. -/
structure Scan where
  p : Nat
  cantidadProcesos : Nat
deriving DecidableEq, Repr

/-- One round of the loop of `sys_pscnt`. -/
def Scan.read (m : Machine C L K) (s : Scan) : Option Scan :=
  if inside : s.p < nproc then
    some ⟨s.p + 1, if m.state ⟨s.p, inside⟩ ≠ .unused then s.cantidadProcesos + 1 else s.cantidadProcesos⟩
  else none

def passed (slots : Finset Slot) (p : Nat) : Finset Slot := slots.filter fun q => q.val < p

theorem passed_start (slots : Finset Slot) : (passed slots 0).card = 0 := by
  simp [passed]

theorem passed_end (slots : Finset Slot) : passed slots nproc = slots := by
  simp [passed]

theorem passed_mono {slots more : Finset Slot} (inside : slots ⊆ more) (p : Nat) :
    (passed slots p).card ≤ (passed more p).card :=
  Finset.card_le_card (Finset.filter_subset_filter _ inside)

theorem passed_succ (slots : Finset Slot) {p : Nat} (inside : p < nproc) :
    (passed slots (p + 1)).card = (passed slots p).card + if ⟨p, inside⟩ ∈ slots then 1 else 0 := by
  have apart (q : Slot) : q.val < p + 1 ↔ q.val < p ∨ q = ⟨p, inside⟩ := by
    rw [Fin.ext_iff]
    exact Nat.lt_succ_iff_lt_or_eq
  split
  · rename_i member
    have grown : passed slots (p + 1) = insert ⟨p, inside⟩ (passed slots p) := by
      ext q
      simp only [passed, Finset.mem_filter, Finset.mem_insert, apart]
      constructor
      · rintro ⟨here, before | rfl⟩
        · exact Or.inr ⟨here, before⟩
        · exact Or.inl rfl
      · rintro (rfl | ⟨here, before⟩)
        · exact ⟨member, Or.inr rfl⟩
        · exact ⟨here, Or.inl before⟩
    rw [grown, Finset.card_insert_of_notMem]
    simp [passed]
  · rename_i absent
    congr 1
    ext q
    simp only [passed, Finset.mem_filter, apart]
    constructor
    · rintro ⟨here, before | rfl⟩
      · exact ⟨here, before⟩
      · exact absurd here absent
    · rintro ⟨here, before⟩
      exact ⟨here, Or.inl before⟩

section Rounds

variable {m : Machine C L K} {s next : Scan} {slots : Finset Slot}

theorem Scan.read_low (given : s.read m = some next) (inside : slots ⊆ m.used)
    (low : (passed slots s.p).card ≤ s.cantidadProcesos) :
    (passed slots next.p).card ≤ next.cantidadProcesos := by
  rw [Scan.read] at given
  split at given
  · rename_i more
    obtain rfl := Option.some.inj given
    dsimp only
    rw [passed_succ slots more]
    by_cases member : (⟨s.p, more⟩ : Slot) ∈ slots
    · rw [if_pos member, if_pos (mem_used.mp (inside member))]
      omega
    · rw [if_neg member]
      split <;> omega
  · simp at given

theorem Scan.read_high (given : s.read m = some next) (outside : m.used ⊆ slots)
    (high : s.cantidadProcesos ≤ (passed slots s.p).card) :
    next.cantidadProcesos ≤ (passed slots next.p).card := by
  rw [Scan.read] at given
  split at given
  · rename_i more
    obtain rfl := Option.some.inj given
    dsimp only
    rw [passed_succ slots more]
    by_cases used : m.state ⟨s.p, more⟩ ≠ .unused
    · rw [if_pos used, if_pos (outside (mem_used.mpr used))]
      omega
    · rw [if_neg used]
      split <;> omega
  · simp at given

end Rounds

variable [DecidableEq C] [DecidableEq L] [DecidableEq K] [Fintype L]

/-- `sys_pscnt` of process `caller`, in between the steps of the machine. -/
def sysPscnt (caller : Slot) : Machine C L K × Scan → ReadEvent C L K → Option (Machine C L K × Scan) :=
  readStep caller Scan.read

variable {caller : Slot} {start m : Machine C L K} {s : Scan} {events : List (ReadEvent C L K)}

def KeepsSlots (s : Machine C L K × Scan) : ReadEvent C L K → Prop
  | .read _ => True
  | .other event => s.1.frees event = false

def ClaimsNone (s : Machine C L K × Scan) : ReadEvent C L K → Prop
  | .read _ => True
  | .other event => ¬ s.1.claims event

instance (s : Machine C L K × Scan) : DecidablePred (KeepsSlots s) := fun event =>
  match event with
  | .read _ => .isTrue trivial
  | .other event => inferInstanceAs (Decidable (s.1.frees event = false))

theorem pscnt_between_grown (lawful : Lawful start)
    (ran : run (sysPscnt caller) (start, ⟨0, 0⟩) events = some (m, s))
    (keeps : Along (sysPscnt caller) (fun _ => KeepsSlots) (start, ⟨0, 0⟩) events) :
    (passed start.used s.p).card ≤ s.cantidadProcesos ∧ s.cantidadProcesos ≤ (passed m.used s.p).card := by
  refine (run_invariant_along (fun _ (r : Machine C L K × Scan) => Lawful r.1 ∧ start.used ⊆ r.1.used ∧
    (passed start.used r.2.p).card ≤ r.2.cantidadProcesos ∧
      r.2.cantidadProcesos ≤ (passed r.1.used r.2.p).card) ?_ ?_ events (m, s) keeps ran).2.2
  · simp [lawful, passed_start]
  · intro _ before event after ⟨holds, grown, low, high⟩ kept stepped
    refine ⟨holds.readStep stepped, ?_⟩
    rcases readStep_cases stepped with ⟨c, -, -, same, given⟩ | ⟨other, rfl, went, same⟩
    · rw [same]
      exact ⟨grown, Scan.read_low given grown low, Scan.read_high given (Finset.Subset.refl _) high⟩
    · have larger := used_grows (moves_of_step went) holds.wf kept
      rw [same]
      exact ⟨grown.trans larger, low, high.trans (passed_mono larger _)⟩

theorem pscnt_between_shrunk (lawful : Lawful start)
    (ran : run (sysPscnt caller) (start, ⟨0, 0⟩) events = some (m, s))
    (keeps : Along (sysPscnt caller) (fun _ => ClaimsNone) (start, ⟨0, 0⟩) events) :
    (passed m.used s.p).card ≤ s.cantidadProcesos ∧ s.cantidadProcesos ≤ (passed start.used s.p).card := by
  refine (run_invariant_along (fun _ (r : Machine C L K × Scan) => Lawful r.1 ∧ r.1.used ⊆ start.used ∧
    (passed r.1.used r.2.p).card ≤ r.2.cantidadProcesos ∧
      r.2.cantidadProcesos ≤ (passed start.used r.2.p).card) ?_ ?_ events (m, s) keeps ran).2.2
  · simp [lawful, passed_start]
  · intro _ before event after ⟨holds, shrunk, low, high⟩ kept stepped
    refine ⟨holds.readStep stepped, ?_⟩
    rcases readStep_cases stepped with ⟨c, -, -, same, given⟩ | ⟨other, rfl, went, same⟩
    · rw [same]
      exact ⟨shrunk, Scan.read_low given (Finset.Subset.refl _) low, Scan.read_high given shrunk high⟩
    · have smaller := used_shrinks (moves_of_step went) holds.wf kept
      rw [same]
      exact ⟨smaller.trans shrunk, (passed_mono smaller _).trans low, high⟩

theorem card_used_readStep {before after : Machine C L K × Scan} {event : ReadEvent C L K}
    (lawful : Lawful before.1) (stepped : sysPscnt caller before event = some after) :
    after.1.used.card ≤ before.1.used.card + 1 ∧ before.1.used.card ≤ after.1.used.card + 1 := by
  rcases readStep_cases stepped with ⟨c, -, -, same, -⟩ | ⟨other, -, went, -⟩
  · rw [same]
    omega
  · exact card_used_step (moves_of_step went) lawful.wf

/-- If during the call no slot is given back, or none is taken, the result of `sys_pscnt` is the number
of slots in use at some instant of the call. -/
theorem pscnt_true_count {history : List (C × Action L K)} (reached : run step boot history = some start)
    (ran : run (sysPscnt caller) (start, ⟨0, 0⟩) events = some (m, s)) (finished : s.p = nproc)
    (oneWay : Along (sysPscnt caller) (fun _ => KeepsSlots) (start, ⟨0, 0⟩) events ∨
      Along (sysPscnt caller) (fun _ => ClaimsNone) (start, ⟨0, 0⟩) events) :
    ∃ before after instant, events = before ++ after ∧
      run (sysPscnt caller) (start, ⟨0, 0⟩) before = some instant ∧
        instant.1.used.card = s.cantidadProcesos := by
  have lawful := lawful_run reached
  rcases oneWay with keeps | claims
  · have between := pscnt_between_grown lawful ran keeps
    rw [finished, passed_end, passed_end] at between
    obtain ⟨before, after, instant, split, arrived, equal⟩ :=
      run_crosses (fun r : Machine C L K × Scan => Lawful r.1) (fun r => (r.1.used.card : Int)) (by
        intro r event next holds stepped
        exact ⟨holds.readStep stepped, mod_cast (card_used_readStep holds stepped).1⟩)
        events s.cantidadProcesos lawful ran (by dsimp only; omega) (by dsimp only; omega)
    exact ⟨before, after, instant, split, arrived, by omega⟩
  · have between := pscnt_between_shrunk lawful ran claims
    rw [finished, passed_end, passed_end] at between
    obtain ⟨before, after, instant, split, arrived, equal⟩ :=
      run_crosses (fun r : Machine C L K × Scan => Lawful r.1) (fun r => -(r.1.used.card : Int)) (by
        intro r event next holds stepped
        have small := (card_used_readStep holds stepped).2
        exact ⟨holds.readStep stepped, by omega⟩)
        events (-s.cantidadProcesos) lawful ran (by dsimp only; omega) (by dsimp only; omega)
    exact ⟨before, after, instant, split, arrived, by omega⟩

/-- `init` creates a process. -/
def initForks : List (Bool × Action Unit Unit) :=
  [(false, .fork), (false, .go true), (false, .go true), (false, .go true), (false, .go true)]

/-- `init` runs on the first CPU and its child on the second. -/
def childRuns : List (Bool × Action Unit Unit) :=
  [(false, .go true), (false, .go true), (false, .go true)] ++ initForks ++
    [(true, .go true), (true, .go true), (true, .go true)]

def countsDuringFork : List (ReadEvent Bool Unit Unit) :=
  List.replicate 2 (.read true) ++ initForks.map .other ++ List.replicate 62 (.read true)

theorem pscnt_true_count_fork : ∃ start last before after instant,
    run step boot childRuns = some start ∧
      run (sysPscnt firstChild) (start, ⟨0, 0⟩) countsDuringFork = some (last, ⟨nproc, 3⟩) ∧
      countsDuringFork = before ++ after ∧
      run (sysPscnt firstChild) (start, ⟨0, 0⟩) before = some instant ∧ instant.1.used.card = 3 := by
  let start := (run step boot childRuns).get (by decide +kernel)
  have reached : run step boot childRuns = some start := (Option.some_get _).symm
  have counts : (run (sysPscnt firstChild) (start, ⟨0, 0⟩) countsDuringFork).map Prod.snd =
      some ⟨nproc, 3⟩ := by decide +kernel
  obtain ⟨⟨last, _⟩, ran, rfl⟩ := Option.map_eq_some_iff.mp counts
  obtain ⟨before, after, instant, split, arrived, equal⟩ := pscnt_true_count reached ran rfl
    (Or.inl (alongCheck_sound _ _ _ _ (by decide +kernel)))
  exact ⟨start, last, before, after, instant, reached, ran, split, arrived, equal⟩

/-- The slot of the second process that `init` creates. -/
def secondChild : Slot := ⟨2, by decide⟩

/-- `init` creates three processes and waits for the first; the third exits and the second runs. -/
def threeChildren : List (Bool × Action Unit Unit) :=
  [(false, .go true), (false, .go true), (false, .go true)] ++ initForks ++ initForks ++ initForks ++
    [(true, .go true), (true, .go true), (true, .go true), (true, .exit), (true, .go true), (true, .go true),
      (true, .go true), (false, .wait), (false, .go true), (true, .preempt), (true, .go true), (true, .go true),
      (true, .go true), (true, .exit), (true, .go true), (true, .go true), (true, .go true), (true, .go true),
      (true, .go true)]

/-- While the second child counts, `init` creates a process behind the scan and then waits for the
third child, which is ahead of it. -/
def countsDuringForkAndWait : List (ReadEvent Bool Unit Unit) :=
  List.replicate 2 (.read true) ++ initForks.map .other ++
    [.other (false, .wait), .other (false, .go true)] ++ List.replicate 62 (.read true)

theorem pscnt_untrue_count : ∃ start last, run step boot threeChildren = some start ∧
    run (sysPscnt secondChild) (start, ⟨0, 0⟩) countsDuringForkAndWait = some (last, ⟨nproc, 2⟩) ∧
      ¬ ∃ before after instant, countsDuringForkAndWait = before ++ after ∧
        run (sysPscnt secondChild) (start, ⟨0, 0⟩) before = some instant ∧ instant.1.used.card = 2 := by
  let start := (run step boot threeChildren).get (by decide +kernel)
  have counts : (run (sysPscnt secondChild) (start, ⟨0, 0⟩) countsDuringForkAndWait).map
      (fun r => (r.2, decide (r.1.used.card = 2))) = some (⟨nproc, 2⟩, false) := by decide +kernel
  have never : alongCheck (sysPscnt secondChild) (fun r _ => r.1.used.card ≠ 2) (start, ⟨0, 0⟩)
      countsDuringForkAndWait = true := by decide +kernel
  obtain ⟨⟨last, data⟩, ran, results⟩ := Option.map_eq_some_iff.mp counts
  simp only [Prod.mk.injEq, decide_eq_false_iff_not] at results
  obtain ⟨rfl, different⟩ := results
  refine ⟨start, last, (Option.some_get _).symm, ran, ?_⟩
  rintro ⟨before, after, instant, split, arrived, equal⟩
  exact (alongCheck_sound _ _ _ _ never).everywhere ran different before after instant split arrived equal

end Pscnt

section Getppid

/-- `sys_getppid` before its first read, with the parent of the caller in a register, and at its end. A
read through a null pointer is outside the table. -/
inductive Getppid where
  | begin
  | loaded (parent : Option Slot)
  | returned (pid : BitVec 32)
  | badRead
deriving DecidableEq, Repr

def Getppid.read (caller : Slot) (m : Machine C L K) : Getppid → Option Getppid
  | .begin => some (.loaded (m.parent caller))
  | .loaded (some parent) => some (.returned (m.pid parent))
  | .loaded none => some .badRead
  | .returned _ | .badRead => none

/-- This step is a `wait` that gives slot `q` back. -/
def Machine.reaps (m : Machine C L K) (q : Slot) (event : C × Action L K) : Bool :=
  match m.proc event.1 with
  | none => false
  | some p =>
      match m.pc p, event.2 with
      | .waitScan, .go _ => m.zombieChild p = some q
      | _, _ => false

def KeepsParent (s : Machine C L K × Getppid) : ReadEvent C L K → Prop
  | .read _ => True
  | .other event => ∀ parent, s.2 = .loaded (some parent) → s.1.reaps parent event = false

variable [DecidableEq C] [DecidableEq L] [DecidableEq K]

theorem pid_step {m next : Machine C L K} {c : C} {action : Action L K} {q : Slot}
    (moves : Moves m c action next) (wf : Wf m) (used : m.state q ≠ .unused) (born : m.state q ≠ .embryo)
    (keeps : m.reaps q (c, action) = false) :
    next.state q ≠ .unused ∧ next.state q ≠ .embryo ∧ next.pid q = m.pid q := by
  rcases quiet_or_turns moves wf with quiet | turns
  · refine ⟨?_, ?_, by rw [quiet.pid]⟩
    · rwa [Ne, quiet.in_use q .unused (by simp)]
    · rwa [Ne, quiet.in_use q .embryo (by simp)]
  · have apart {np : Slot} {state : ProcState} (holds : m.state np = state)
        (ends : state = .unused ∨ state = .embryo) : q ≠ np := by
      rintro rfl
      rcases ends with rfl | rfl
      · exact used holds
      · exact born holds
    cases turns with
    | @fork p np runs found =>
        have other := apart found (Or.inl rfl)
        have state : update m.state np .embryo q = m.state q := update_of_ne other _ _
        exact ⟨fun free => used (state.symm.trans free), fun young => born (state.symm.trans young),
          update_of_ne other _ _⟩
    | @fail p np runs fails =>
        have other := apart (wf.newborn (Pc.forks_of_stage fails.stage_eq)) (Or.inr rfl)
        have state : update m.state np .unused q = m.state q := update_of_ne other _ _
        exact ⟨fun free => used (state.symm.trans free), fun young => born (state.symm.trans young), rfl⟩
    | adopt => exact ⟨used, born, rfl⟩
    | @ready p np _ runs here =>
        have other := apart (wf.newborn (by rw [here]; rfl)) (Or.inr rfl)
        have state : update m.state np .runnable q = m.state q := update_of_ne other _ _
        exact ⟨fun free => used (state.symm.trans free), fun young => born (state.symm.trans young), rfl⟩
    | @exit p runs user other unlocked =>
        have exits := exit_exits (m := { m with lock := update m.lock none (some c) }) other
        have running : m.state p = .running := wf.on_running runs (by simp [unlocked])
        refine ⟨fun free => used ((exits.state_iff running q (Or.inl rfl)).mp free),
          fun young => born ((exits.state_iff running q (Or.inr rfl)).mp young), ?_⟩
        rw [Machine.goto, exits.frame]
    | @reap p r _ runs here found =>
        have other : q ≠ r := by
          rintro rfl
          simp [Machine.reaps, runs, here, found] at keeps
        have state : update m.state r .unused q = m.state q := update_of_ne other _ _
        exact ⟨fun free => used (state.symm.trans free), fun young => born (state.symm.trans young),
          update_of_ne other _ _⟩

variable [Fintype L]

/-- `sys_getppid` of process `caller`, in between the steps of the machine. -/
def sysGetppid (caller : Slot) : Machine C L K × Getppid → ReadEvent C L K → Option (Machine C L K × Getppid) :=
  readStep caller (Getppid.read caller)

/-- At an instant of this run the parent of the caller was `parent`, with this pid. -/
def WasParent (caller : Slot) (start : Machine C L K) (events : List (ReadEvent C L K)) (parent : Slot)
    (pid : BitVec 32) : Prop :=
  ∃ before after instant, events = before ++ after ∧
    run (sysGetppid caller) (start, .begin) before = some instant ∧
      instant.1.parent caller = some parent ∧ instant.1.pid parent = pid

variable {caller : Slot} {start m : Machine C L K} {events : List (ReadEvent C L K)} {data : Getppid}

theorem WasParent.concat {parent : Slot} {pid : BitVec 32} (was : WasParent caller start events parent pid)
    (event : ReadEvent C L K) : WasParent caller start (events ++ [event]) parent pid := by
  obtain ⟨before, after, instant, split, arrived, holds⟩ := was
  exact ⟨before, after ++ [event], instant, by rw [split, List.append_assoc], arrived, holds⟩

def Knows (caller : Slot) (start : Machine C L K) (events : List (ReadEvent C L K)) (m : Machine C L K) :
    Getppid → Prop
  | .begin => True
  | .loaded parent => ∃ q, parent = some q ∧ m.state q ≠ .unused ∧ m.state q ≠ .embryo ∧
      WasParent caller start events q (m.pid q)
  | .returned pid => ∃ q, WasParent caller start events q pid
  | .badRead => False

theorem getppid_knows (lawful : Lawful start) (other : caller ≠ initproc)
    (ran : run (sysGetppid caller) (start, .begin) events = some (m, data))
    (keeps : Along (sysGetppid caller) (fun _ => KeepsParent) (start, .begin) events) :
    Knows caller start events m data := by
  have initial : Lawful start ∧ Knows caller start [] start .begin := ⟨lawful, trivial⟩
  refine (run_invariant_reached (fun events (r : Machine C L K × Getppid) => Lawful r.1 ∧
    Knows caller start events r.1 r.2) initial ?_ events (m, data) keeps ran).2
  intro history before event after arrived ⟨holds, knows⟩ kept stepped
  refine ⟨holds.readStep stepped, ?_⟩
  rcases readStep_cases stepped with ⟨c, -, ⟨runs, user⟩, same, given⟩ | ⟨step, rfl, went, same⟩
  · rw [same]
    cases here : before.2 with
    | begin =>
        rw [here] at given
        have loaded := Option.some.inj given
        have inUse := (holds.wf.on_alive runs (by simp [user])).in_use
        obtain ⟨q, child⟩ := holds.family.child inUse.1 inUse.2.1 other
        have parent := (holds.family.parent child).1.in_use
        rw [← loaded]
        refine ⟨q, child, parent.1, parent.2.1, history, [event], before, rfl, arrived, child, rfl⟩
    | loaded parent =>
        rw [here] at knows given
        obtain ⟨q, rfl, -, -, was⟩ := knows
        have returned := Option.some.inj given
        rw [← returned]
        exact ⟨q, was.concat event⟩
    | returned pid => simp [here, Getppid.read] at given
    | badRead => simp [here, Getppid.read] at given
  · rw [same]
    cases here : before.2 with
    | begin => trivial
    | loaded parent =>
        rw [here] at knows
        obtain ⟨q, rfl, used, born, was⟩ := knows
        obtain ⟨used', born', pid⟩ := pid_step (moves_of_step went) holds.wf used born (kept q here)
        exact ⟨q, rfl, used', born', pid ▸ was.concat _⟩
    | returned pid =>
        rw [here] at knows
        obtain ⟨q, was⟩ := knows
        exact ⟨q, was.concat _⟩
    | badRead =>
        rw [here] at knows
        exact knows

/-- A process other than `init`, whose parent is not waited for between the two reads of `sys_getppid`,
reads a slot of the table, and the result is the pid of its parent at some instant of the call. -/
theorem getppid_real_parent {history : List (C × Action L K)} (reached : run step boot history = some start)
    (other : caller ≠ initproc) (ran : run (sysGetppid caller) (start, .begin) events = some (m, data))
    (keeps : Along (sysGetppid caller) (fun _ => KeepsParent) (start, .begin) events) :
    data ≠ .badRead ∧ ∀ pid, data = .returned pid → ∃ parent, WasParent caller start events parent pid := by
  have knows := getppid_knows (lawful_run reached) other ran keeps
  constructor
  · rintro rfl
    exact knows
  · rintro pid rfl
    exact knows

instance (s : Machine C L K × Getppid) : DecidablePred (KeepsParent s) := fun event =>
  match event with
  | .read _ => .isTrue trivial
  | .other event =>
      inferInstanceAs (Decidable (∀ parent, s.2 = .loaded (some parent) → s.1.reaps parent event = false))

/-- The child of `init` asks for its parent, which forks meanwhile. -/
def asksDuringFork : List (ReadEvent Bool Unit Unit) :=
  .read true :: initForks.map .other ++ [.read true]

theorem getppid_real_parent_fork : ∃ start last parent, run step boot childRuns = some start ∧
    run (sysGetppid firstChild) (start, .begin) asksDuringFork = some (last, .returned 1) ∧
      WasParent firstChild start asksDuringFork parent 1 := by
  let start := (run step boot childRuns).get (by decide +kernel)
  have reached : run step boot childRuns = some start := (Option.some_get _).symm
  have returns : (run (sysGetppid firstChild) (start, .begin) asksDuringFork).map Prod.snd =
      some (.returned 1) := by decide +kernel
  obtain ⟨⟨last, _⟩, ran, rfl⟩ := Option.map_eq_some_iff.mp returns
  obtain ⟨-, real⟩ := getppid_real_parent reached (by decide) ran
    (alongCheck_sound _ _ _ _ (by decide +kernel))
  obtain ⟨parent, was⟩ := real 1 rfl
  exact ⟨start, last, parent, reached, ran, was⟩

/-- The child of `init` creates a process and `init` sleeps in `wait`. -/
def grandchildRuns : List (Bool × Action Unit Unit) :=
  childRuns ++ [(true, .fork), (true, .go true), (true, .go true), (true, .go true), (true, .go true),
    (false, .wait), (false, .go true), (false, .go true), (false, .go true), (false, .go true),
    (false, .go true)]

/-- Between the two reads of the grandchild its parent exits and `init` waits for it. -/
def asksDuringWait : List (ReadEvent Bool Unit Unit) :=
  .read false :: [(true, .exit), (true, .go true), (true, .go true), (true, .go true), (true, .go true),
    (true, .go true), (true, .go true)].map .other ++ [.read false]

/-- A process whose parent is waited for between the two reads gets the pid of no parent of it, and
`init` has no parent to read. -/
theorem getppid_no_parent :
    (∃ start last, run step boot grandchildRuns = some start ∧
      run (sysGetppid secondChild) (start, .begin) asksDuringWait = some (last, .returned 0) ∧
        ¬ ∃ parent, WasParent secondChild start asksDuringWait parent 0) ∧
    ∃ start last, run step boot childRuns = some start ∧
      run (sysGetppid initproc) (start, .begin) [.read false, .read false] = some (last, .badRead) := by
  constructor
  · let start := (run step boot grandchildRuns).get (by decide +kernel)
    have returns : (run (sysGetppid secondChild) (start, .begin) asksDuringWait).map
        (fun r => (r.2, decide (∀ q, r.1.parent secondChild = some q → r.1.pid q ≠ 0))) =
          some (.returned 0, true) := by decide +kernel
    have never : alongCheck (sysGetppid secondChild)
        (fun r _ => ∀ q, r.1.parent secondChild = some q → r.1.pid q ≠ 0) (start, .begin)
          asksDuringWait = true := by decide +kernel
    obtain ⟨⟨last, data⟩, ran, results⟩ := Option.map_eq_some_iff.mp returns
    simp only [Prod.mk.injEq, decide_eq_true_eq] at results
    obtain ⟨rfl, different⟩ := results
    refine ⟨start, last, (Option.some_get _).symm, ran, ?_⟩
    rintro ⟨parent, before, after, instant, split, arrived, child, pid⟩
    exact (alongCheck_sound _ _ _ _ never).everywhere ran different before after instant split arrived
      parent child pid
  · let start := (run step boot childRuns).get (by decide +kernel)
    have returns : (run (sysGetppid initproc) (start, .begin) [.read false, .read false]).map Prod.snd =
        some .badRead := by decide +kernel
    obtain ⟨⟨last, _⟩, ran, rfl⟩ := Option.map_eq_some_iff.mp returns
    exact ⟨start, last, (Option.some_get _).symm, ran⟩

end Getppid

end OsLabs.Proc
