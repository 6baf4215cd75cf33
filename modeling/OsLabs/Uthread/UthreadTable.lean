import OsLabs.Uthread.UthreadContext

/-!
`all_thread` as bytes of the process: the state of a slot is the word behind its stack. The loop of
`thread_create` stops behind the last slot when none is free, and the stores go to wherever it stopped. While
the threads leave the state words alone and there is a free slot for every new thread, the words follow the
table of `UthreadCore`.
-/

namespace OsLabs.Uthread

open Function OsLabs.WordMemory OsLabs.StackMachine OsLabs.Runs

def stateWord : ThreadState → Word
  | .free => 0
  | .running => 1
  | .runnable => 2

/-- The library compares a state with `FREE` and with `RUNNABLE` only. -/
def readState (word : Word) : ThreadState :=
  if word = stateWord .free then .free else if word = stateWord .runnable then .runnable else .running

theorem readState_stateWord (state : ThreadState) : readState (stateWord state) = state := by
  cases state <;> decide

theorem readState_free {word : Word} : readState word = .free ↔ word = stateWord .free := by
  rw [readState]
  split
  next same => exact iff_of_true rfl same
  next other => split <;> exact iff_of_false (by simp) other

namespace Layout

variable (layout : Layout)

/-- `all_thread + t`. -/
def slot (t : Nat) : Word := BitVec.ofNat 32 (layout.allThread + t * sizeofThread)

/-- `&t->state`. -/
def slotState (t : Nat) : Word := layout.slot t + BitVec.ofNat 32 (4 + stackSize)

/-- Where the loop of `thread_create` leaves `t`. -/
def searchFree (memory : Memory) : Nat :=
  (Fin.find? fun t : Fin maxThread => read32 memory (layout.slotState t) = stateWord .free).elim maxThread Fin.val

def threadCreate (memory : Memory) (func : Word) : Memory :=
  let t := layout.searchFree memory
  let sp := layout.slot t
  let memory := write32 memory sp (layout.slotState t)
  let memory := write32 memory sp (read32 memory sp - 4)
  let memory := write32 memory (read32 memory sp) func
  let memory := write32 memory sp (read32 memory sp - 32)
  write32 memory (layout.slotState t) (stateWord .runnable)

end Layout

structure Process where
  cpu : Cpu
  currentThread : Fin maxThread
  lastIndex : Fin maxThread

namespace Process

variable (layout : Layout)

def state (p : Process) (t : Fin maxThread) : ThreadState := readState (read32 p.cpu.memory (layout.slotState t))

/-- The table of `UthreadCore` that the bytes stand for. -/
def threads (p : Process) : Threads := ⟨p.state layout, p.currentThread, p.lastIndex⟩

def setState (p : Process) (t : Fin maxThread) (state : ThreadState) : Process :=
  { p with cpu := { p.cpu with memory := write32 p.cpu.memory (layout.slotState t) (stateWord state) } }

/-- `thread_init`. -/
def threadInit (cpu : Cpu) : Process := setState layout ⟨cpu, 0, 0⟩ 0 .running

def threadCreate (p : Process) (func : Word) : Process :=
  { p with cpu := { p.cpu with memory := layout.threadCreate p.cpu.memory func } }

def threadSchedule (p : Process) : Process :=
  let s := p.threads layout
  if p.currentThread ≠ s.target then
    let marked := p.setState layout s.target .running
    ⟨switchCpu layout p.currentThread s.target marked.cpu.call, s.target, s.searched.lastIndex⟩
  else { p with lastIndex := s.searched.lastIndex }

/-- What a call does before it enters `thread_schedule`. -/
def entering (p : Process) : Call → Option Process
  | .create => none
  | .yield => some (p.setState layout p.currentThread .runnable)
  | .exit => some (p.setState layout p.currentThread .free)
  | .schedule => some p

def step (p : Process) : Event → Option Process
  | .compute regs esp eip writes => some { p with cpu := ⟨regs, esp, eip, writeBytes p.cpu.memory writes⟩ }
  | .create func => some (p.threadCreate layout func)
  | .enter call => (p.entering layout call).map (·.threadSchedule layout)

end Process

section Words

variable (layout : Layout) (t : Fin maxThread)

theorem slot_eq : layout.slot t = layout.threadPointer t := rfl

theorem slotState_eq : layout.slotState t = layout.stackTop t := by
  rw [Layout.slotState, Layout.slot, Layout.stackTop, ← BitVec.ofNat_add]
  exact congrArg (BitVec.ofNat 32) (Nat.add_assoc _ _ _).symm

/-- The bytes of `t->state`. -/
def Layout.stateRegion : Region := span (layout.slotState t) 4

theorem stateRegion_eq :
    layout.stateRegion t = ⟨(layout.stackRegion t).high, (layout.threadRegion t).high⟩ := by
  rw [Layout.stateRegion, span, slotState_eq, stackTop_toNat]
  refine congrArg (Region.mk _) ?_
  simp only [Layout.stackRegion, Layout.threadRegion, sizeofThread, stackSize]
  omega

theorem stateRegion_within : (layout.stateRegion t).Within (layout.threadRegion t) := by
  rw [stateRegion_eq]
  simp only [Region.Within, Layout.stackRegion, Layout.threadRegion, sizeofThread, stackSize]
  omega

theorem stateRegion_apart {s t : Fin maxThread} (different : s ≠ t) :
    (layout.stateRegion s).Apart (layout.stateRegion t) :=
  ((threadRegion_apart layout different).mono_left (stateRegion_within layout s)).mono_right
    (stateRegion_within layout t)

theorem spRegion_apart_stateRegion (s t : Fin maxThread) : (layout.spRegion s).Apart (layout.stateRegion t) := by
  by_cases same : s = t
  · rw [same, spRegion_eq, stateRegion_eq]
    left
    simp only [Layout.stackRegion, Layout.threadRegion, stackSize]
    omega
  · exact ((threadRegion_apart layout same).mono_left (spRegion_within layout s)).mono_right
      (stateRegion_within layout t)

theorem stackRegion_apart_stateRegion : (layout.stackRegion t).Apart (layout.stateRegion t) := by
  rw [stateRegion_eq]
  exact Or.inl (Nat.le_refl _)

theorem slotState_fits : (layout.slotState t).toNat + 4 < 2 ^ 32 := by
  have fits := threadRegion_fits layout t
  rw [slotState_eq, stackTop_toNat]
  simp only [Layout.stackRegion, Layout.threadRegion, sizeofThread, stackSize] at *
  omega

theorem write_state_changedIn (memory : Memory) (value : Word) :
    ChangedIn (layout.stateRegion t) memory (write32 memory (layout.slotState t) value) :=
  write32_changedIn memory _ value (slotState_fits layout t)

variable {layout t}

theorem state_of_agree {p next : Process} (kept : Agree (layout.stateRegion t) p.cpu.memory next.cpu.memory) :
    next.state layout t = p.state layout t := by
  rw [Process.state, Process.state, Agree.read32_eq kept (slotState_fits layout t)]

theorem setState_state (p : Process) (state : ThreadState) :
    (p.setState layout t state).state layout = update (p.state layout) t state := by
  funext other
  by_cases same : other = t
  · rw [same, update_self, Process.state, Process.setState, read32_write32, readState_stateWord]
  · rw [update_of_ne same]
    exact state_of_agree ((write_state_changedIn layout t p.cpu.memory (stateWord state)).agree
      (stateRegion_apart layout (Ne.symm same)))

end Words

section Create

variable {layout : Layout} {p : Process} {t : Fin maxThread}

theorem searchFree_eq (layout : Layout) (p : Process) :
    layout.searchFree p.cpu.memory = (p.threads layout).freeSlot.elim maxThread Fin.val := by
  rw [Layout.searchFree, Threads.freeSlot]
  congr 2
  funext t
  rw [Bool.eq_iff_iff, decide_eq_true_eq, beq_iff_eq]
  exact readState_free.symm

theorem searchFree_of_freeSlot (found : (p.threads layout).freeSlot = some t) :
    layout.searchFree p.cpu.memory = t := by
  rw [searchFree_eq, found, Option.elim_some]

theorem freeSlot_of_free (free : ∃ t, p.state layout t = .free) :
    ∃ t, (p.threads layout).freeSlot = some t ∧ p.state layout t = .free := by
  cases found : (p.threads layout).freeSlot with
  | none =>
      obtain ⟨t, free⟩ := free
      exact absurd free (by simpa [Process.threads] using Fin.find?_eq_none_iff.mp found t)
  | some t => exact ⟨t, rfl, by simpa [Process.threads] using (Fin.find?_eq_some_iff.mp found).1⟩

theorem searchFree_of_full (full : ∀ t, p.state layout t ≠ .free) :
    layout.searchFree p.cpu.memory = maxThread := by
  have missing : (p.threads layout).freeSlot = none := by
    rw [Threads.freeSlot, Fin.find?_eq_none_iff]
    intro t
    simpa [Process.threads] using full t
  rw [searchFree_eq, missing, Option.elim_none]

theorem threadCreate_eq (func : Word) (stops : layout.searchFree p.cpu.memory = t) :
    p.threadCreate layout func =
      Process.setState layout { p with cpu := { p.cpu with memory := layout.layFrame t func p.cpu.memory } } t
        .runnable := by
  rw [Process.threadCreate, Layout.threadCreate, Process.setState]
  simp only [stops, Layout.layFrame, ← slotState_eq, ← slot_eq]

theorem threadCreate_changedIn (func : Word) (stops : layout.searchFree p.cpu.memory = t) :
    ChangedIn (layout.threadRegion t) p.cpu.memory (p.threadCreate layout func).cpu.memory := by
  rw [threadCreate_eq func stops]
  exact (layFrame_changedIn layout t func p.cpu.memory).trans
    ((write_state_changedIn layout t _ (stateWord .runnable)).mono (stateRegion_within layout t))

theorem layFrame_agree_state (func : Word) (memory : Memory) (other : Fin maxThread) :
    Agree (layout.stateRegion other) memory (layout.layFrame t func memory) := by
  by_cases same : other = t
  · have sp (memory : Memory) (value : Word) := (write_sp_changedIn layout t memory value).agree
      (spRegion_apart_stateRegion layout t other)
    have last (memory : Memory) : Agree (layout.stateRegion other) memory
        (write32 memory (layout.stackTop t - 4) func) := by
      rw [same]
      exact (write_func_changedIn layout t memory func).agree (stackRegion_apart_stateRegion layout t)
    rw [layFrame_eq]
    exact (((sp _ _).trans (sp _ _)).trans (last _)).trans (sp _ _)
  · exact (layFrame_changedIn layout t func memory).agree
      ((threadRegion_apart layout (Ne.symm same)).mono_right (stateRegion_within layout other))

theorem threadCreate_state (func : Word) (stops : layout.searchFree p.cpu.memory = t) :
    (p.threadCreate layout func).state layout = update (p.state layout) t .runnable := by
  have framed : Process.state layout { p with cpu := { p.cpu with memory := layout.layFrame t func p.cpu.memory } } =
      p.state layout := by
    funext other
    rw [Process.state, Process.state,
      Agree.read32_eq (layFrame_agree_state func p.cpu.memory other) (slotState_fits layout other)]
  rw [threadCreate_eq func stops, setState_state, framed]

/-- Until the next change of its slot a thread keeps its `sp`, its stack and its state. -/
structure Process.Keeps (layout : Layout) (p next : Process) (t : Fin maxThread) : Prop where
  sp : read32 next.cpu.memory (layout.threadPointer t) = read32 p.cpu.memory (layout.threadPointer t)
  stack : Agree (layout.stackRegion t) p.cpu.memory next.cpu.memory
  state : read32 next.cpu.memory (layout.slotState t) = read32 p.cpu.memory (layout.slotState t)

theorem keeps_of_changedIn {next : Process} {other : Fin maxThread} (different : other ≠ t)
    (change : ChangedIn (layout.threadRegion t) p.cpu.memory next.cpu.memory) : p.Keeps layout next other := by
  have kept := change.agree (threadRegion_apart layout different.symm)
  refine ⟨?_, kept.mono (stackRegion_within layout other), ?_⟩
  · exact (kept.mono (spRegion_within layout other)).read32_eq (spRegion_fits layout other)
  · exact (kept.mono (stateRegion_within layout other)).read32_eq (slotState_fits layout other)

end Create

section Follows

variable {layout : Layout} {p next : Process}

theorem threadInit_threads (cpu : Cpu) (zero : ∀ t : Fin maxThread, read32 cpu.memory (layout.slotState t) = 0) :
    (Process.threadInit layout cpu).threads layout = Uthread.threadInit := by
  have free : Process.state layout ⟨cpu, 0, 0⟩ = fun _ => .free := by
    funext t
    rw [Process.state, readState_free, zero]
    rfl
  rw [Process.threads, Process.threadInit, setState_state, free]
  rfl

/-- The event leaves the state words alone, apart from what the library does to them; a new thread finds a free
slot. -/
def Process.Spares (layout : Layout) (p : Process) : Event → Prop
  | .compute _ _ _ writes => ∀ write ∈ writes, ∀ t, ¬(layout.stateRegion t).Holds write.1
  | .create _ => ∃ t, p.state layout t = .free
  | .enter _ => 36 ≤ p.cpu.esp.toNat ∧ ∀ t, Region.Apart ⟨p.cpu.esp.toNat - 36, p.cpu.esp.toNat⟩ (layout.stateRegion t)

theorem threadCreate_threads (func : Word) {t : Fin maxThread} (found : (p.threads layout).freeSlot = some t) :
    (p.threadCreate layout func).threads layout = (p.threads layout).setState t .runnable := by
  have states := threadCreate_state func (searchFree_of_freeSlot found)
  rw [Process.threads, states]
  rfl

theorem entering_threads {call : Call} (p : Process) :
    (p.entering layout call).map (·.threads layout) = (p.threads layout).entering call := by
  cases call with
  | create => rfl
  | yield | exit =>
      rw [Process.entering, Option.map_some, Process.threads, setState_state]
      rfl
  | schedule => rfl

theorem entering_esp {call : Call} {entered : Process} (enters : p.entering layout call = some entered) :
    entered.cpu.esp = p.cpu.esp := by
  cases call with
  | create => simp [Process.entering] at enters
  | yield | exit | schedule =>
      obtain rfl := Option.some.inj enters
      rfl

theorem switch_state (p : Process) (current target lastIndex : Fin maxThread) (room : 36 ≤ p.cpu.esp.toNat)
    (apart : ∀ t, Region.Apart ⟨p.cpu.esp.toNat - 36, p.cpu.esp.toNat⟩ (layout.stateRegion t)) :
    Process.state layout ⟨switchCpu layout current target p.cpu.call, target, lastIndex⟩ = p.state layout := by
  funext t
  refine state_of_agree ?_
  rw [switchCpu_eq]
  exact savedMemory_agree layout current p.cpu room (apart t) (spRegion_apart_stateRegion layout current t)

theorem threadSchedule_threads (room : 36 ≤ p.cpu.esp.toNat)
    (apart : ∀ t, Region.Apart ⟨p.cpu.esp.toNat - 36, p.cpu.esp.toNat⟩ (layout.stateRegion t)) :
    (p.threadSchedule layout).threads layout = (p.threads layout).threadSchedule := by
  rw [Process.threadSchedule, Threads.threadSchedule]
  by_cases switches : (p.threads layout).currentThread ≠ (p.threads layout).target
  · rw [if_pos switches, if_pos (show p.currentThread ≠ _ from switches)]
    have states := switch_state (p.setState layout (p.threads layout).target .running) p.currentThread
      (p.threads layout).target (p.threads layout).searched.lastIndex room apart
    rw [setState_state] at states
    rw [Process.threads, states]
    rfl
  · rw [if_neg switches, if_neg (show ¬p.currentThread ≠ _ from switches)]
    rfl

theorem step_threads {event : Event} (spares : p.Spares layout event) (stepped : p.step layout event = some next) :
    run Threads.step (p.threads layout) event.toCall.toList = some (next.threads layout) := by
  cases event with
  | compute regs esp eip writes =>
      obtain rfl := Option.some.inj stepped
      have states : Process.state layout { p with cpu := ⟨regs, esp, eip, writeBytes p.cpu.memory writes⟩ } =
          p.state layout := by
        funext t
        exact state_of_agree (writeBytes_agree p.cpu.memory writes _ fun write member => spares write member t)
      simp [Event.toCall, Process.threads, states]
  | create func =>
      obtain rfl := Option.some.inj stepped
      obtain ⟨t, found, -⟩ := freeSlot_of_free spares
      rw [threadCreate_threads func found]
      simp [Event.toCall, Threads.step, Threads.threadCreate, found]
  | enter call =>
      obtain ⟨entered, enters, rfl⟩ := Option.map_eq_some_iff.mp stepped
      have table : (p.threads layout).entering call = some (entered.threads layout) := by
        rw [← entering_threads, enters, Option.map_some]
      have same : entered.cpu.esp = p.cpu.esp := entering_esp enters
      rw [threadSchedule_threads (same ▸ spares.1) (same ▸ spares.2)]
      simp [Event.toCall, step_eq_of_entering table]

/-- The words of the table are the table of `UthreadCore`, run by the same calls. -/
theorem run_threads {events : List Event}
    (spares : Along (Process.step layout) (fun _ => Process.Spares layout) p events)
    (reached : run (Process.step layout) p events = some next) :
    run Threads.step (p.threads layout) (events.filterMap Event.toCall) = some (next.threads layout) := by
  refine run_invariant_along (fun events final =>
    run Threads.step (p.threads layout) (events.filterMap Event.toCall) = some (final.threads layout))
    rfl ?_ events next spares reached
  intro history state event final holds spares stepped
  rw [List.filterMap_append, run_append, holds, Option.bind_some]
  have single : [event].filterMap Event.toCall = event.toCall.toList := by
    cases event <;> rfl
  rw [single]
  exact step_threads spares stepped

end Follows

/-- In any process that has a free slot, `thread_create` writes to one slot, which was free, and leaves the other
threads and everything outside that slot as they were. -/
theorem create_writes_free_slot (layout : Layout) (p : Process) (func : Word) (free : ∃ t, p.state layout t = .free) :
    ∃ t, p.state layout t = .free ∧
      ChangedIn (layout.threadRegion t) p.cpu.memory (p.threadCreate layout func).cpu.memory ∧
      (∀ other, other ≠ t → p.Keeps layout (p.threadCreate layout func) other) ∧
      (p.threadCreate layout func).threads layout = (p.threads layout).setState t .runnable := by
  obtain ⟨t, found, free⟩ := freeSlot_of_free free
  have change := threadCreate_changedIn func (searchFree_of_freeSlot found)
  exact ⟨t, free, change, fun other different => keeps_of_changedIn different change, threadCreate_threads func found⟩

theorem sampleCpu_threads :
    (Process.threadInit sampleLayout sampleCpu).threads sampleLayout = Uthread.threadInit :=
  threadInit_threads sampleCpu fun _ => by
    simp only [read32, sampleCpu]
    decide

theorem sampleStates_low (t : Fin maxThread) : (sampleLayout.stateRegion t).high ≤ 0x207dc := by
  have bound : t.val < 8 := t.isLt
  refine (stateRegion_within sampleLayout t).2.trans ?_
  simp only [Layout.threadRegion, sampleLayout, sizeofThread, stackSize]
  omega

theorem run_threads_schedule : ∃ p, run (Process.step sampleLayout) (Process.threadInit sampleLayout sampleCpu)
    [.create 0x500, .enter .schedule] = some p ∧
      run Threads.step Uthread.threadInit [.create, .schedule] = some (p.threads sampleLayout) := by
  have spares : Along (Process.step sampleLayout) (fun _ => Process.Spares sampleLayout)
      (Process.threadInit sampleLayout sampleCpu) ([] ++ [.create 0x500] ++ [.enter .schedule]) := by
    refine .concat (.concat ?_ ?_) ?_
    · intro before event after state split
      simp at split
    · intro state reached
      obtain rfl := Option.some.inj reached
      exact ⟨1, congrFun (congrArg Threads.state sampleCpu_threads) 1⟩
    · intro state reached
      obtain rfl := Option.some.inj reached
      exact ⟨by decide, fun t => Or.inr (sampleStates_low t)⟩
  have followed := run_threads spares rfl
  rw [sampleCpu_threads] at followed
  exact ⟨_, rfl, followed⟩

theorem create_writes_free_slot_first :
    ∃ t, (Process.threadInit sampleLayout sampleCpu).state sampleLayout t = .free ∧
      ∀ other, other ≠ t → (Process.threadInit sampleLayout sampleCpu).Keeps sampleLayout
        ((Process.threadInit sampleLayout sampleCpu).threadCreate sampleLayout 0x500) other := by
  have free : (Process.threadInit sampleLayout sampleCpu).state sampleLayout 1 = .free :=
    congrFun (congrArg Threads.state sampleCpu_threads) 1
  obtain ⟨t, free, -, kept, -⟩ := create_writes_free_slot sampleLayout _ 0x500 ⟨1, free⟩
  exact ⟨t, free, kept⟩

section Full

variable {layout : Layout} {p : Process}

/-- The bytes of `all_thread`. -/
def Layout.table (layout : Layout) : Region := ⟨layout.allThread, layout.allThread + maxThread * sizeofThread⟩

theorem threadRegion_within (layout : Layout) (t : Fin maxThread) : (layout.threadRegion t).Within layout.table := by
  have bound : t.val < 8 := t.isLt
  simp only [Region.Within, Layout.table, Layout.threadRegion, maxThread, sizeofThread, stackSize]
  omega

theorem run_create (func : Word) {count : Nat} {s : Threads}
    (ran : run Threads.step (p.threads layout) (List.replicate count .create) = some s) :
    ∃ q, run (Process.step layout) p (List.replicate count (.create func)) = some q ∧ q.threads layout = s ∧
      ChangedIn layout.table p.cpu.memory q.cpu.memory := by
  induction count generalizing p with
  | zero => exact ⟨p, rfl, Option.some.inj ran, .refl _ _⟩
  | succ count ih =>
      rw [List.replicate_succ, run_cons] at ran ⊢
      obtain ⟨next, created, ran⟩ := Option.bind_eq_some_iff.mp ran
      obtain ⟨t, found, rfl⟩ := Option.map_eq_some_iff.mp created
      rw [← threadCreate_threads func found] at ran
      obtain ⟨q, reached, table, change⟩ := ih ran
      have first := threadCreate_changedIn func (searchFree_of_freeSlot found)
      exact ⟨q, reached, table, (first.mono (threadRegion_within layout t)).trans change⟩

theorem threadCreate_full (full : ∀ t, p.state layout t ≠ .free) (func : Word) :
    read32 (p.threadCreate layout func).cpu.memory (layout.slotState maxThread) = stateWord .runnable := by
  rw [Process.threadCreate, Layout.threadCreate]
  simp only [searchFree_of_full full, read32_write32]

end Full

/-- `main` creates eight threads. The eighth one finds no free slot and is stored behind the table. -/
theorem create_writes_past_table : ∃ p,
    run (Process.step sampleLayout) (Process.threadInit sampleLayout sampleCpu) (List.replicate 7 (.create 0x500)) =
        some p ∧
      (∀ t, p.state sampleLayout t ≠ .free) ∧ sampleLayout.table.high < (sampleLayout.slotState maxThread).toNat ∧
      read32 p.cpu.memory (sampleLayout.slotState maxThread) = 0 ∧
      read32 (p.threadCreate sampleLayout 0x500).cpu.memory (sampleLayout.slotState maxThread) =
        stateWord .runnable := by
  let s := (run Threads.step Uthread.threadInit (List.replicate 7 .create)).get (by decide)
  have ran : run Threads.step Uthread.threadInit (List.replicate 7 .create) = some s := (Option.some_get _).symm
  rw [← sampleCpu_threads] at ran
  obtain ⟨p, reached, table, change⟩ := run_create 0x500 ran
  have full : ∀ t, p.state sampleLayout t ≠ .free := by
    have states : p.state sampleLayout = s.state := congrArg Threads.state table
    rw [states]
    decide
  refine ⟨p, reached, full, by decide, ?_, threadCreate_full full 0x500⟩
  have first : ChangedIn sampleLayout.table sampleCpu.memory
      (Process.threadInit sampleLayout sampleCpu).cpu.memory :=
    ((write_state_changedIn sampleLayout 0 sampleCpu.memory (stateWord .running)).mono
      (stateRegion_within sampleLayout 0)).mono (threadRegion_within sampleLayout 0)
  exact ((first.trans change).agree (Or.inl (by decide))).read32_eq (by decide)

end OsLabs.Uthread
