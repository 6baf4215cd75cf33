import OsLabs.Uthread.UthreadMemory

/-!
Context preservation. A slot that holds a suspended or a newly created thread keeps
its `sp` and the frame under it while the other threads write to their own stacks,
and the switch back to the slot loads exactly that frame.
-/

namespace OsLabs.Uthread

open OsLabs.WordMemory OsLabs.StackMachine

/-- What a slot holds: the processor of a thread as it entered `thread_switch`, with its
return address, or a function that has not started. -/
inductive Context where
  | suspended (regs : Registers) (esp eip : Word)
  | created (func : Word)
deriving DecidableEq, Repr

def Machine.leaves (m : Machine) : Event → Option (Fin maxThread × Context)
  | .compute _ _ _ _ => none
  | .create func => m.threads.freeSlot.map fun t => (t, .created func)
  | .enter call => (m.threads.entering call).bind fun entered =>
      if entered.currentThread ≠ entered.target then
        some (entered.currentThread, .suspended m.cpu.call.regs m.cpu.call.esp m.cpu.eip)
      else none

/-- The processor goes on from the context. The last instruction of `thread_switch` has
popped the return address, so `esp` is one word above its value on entry. -/
def Resumes (layout : Layout) (slot : Fin maxThread) (cpu : Cpu) : Context → Prop
  | .suspended regs esp eip => cpu.regs = regs ∧ cpu.esp = esp + 4 ∧ cpu.eip = eip
  | .created func => cpu.eip = func ∧ cpu.esp = layout.stackTop slot

/-- The running thread writes only to its own stack, which also has room for the return
address and the registers that a switch pushes. -/
def Machine.WritesOwnStack (layout : Layout) (m : Machine) : Event → Prop
  | .compute _ _ _ writes =>
      ∀ write ∈ writes, (m.ownStack layout m.threads.currentThread).Holds write.1
  | .create _ => True
  | .enter _ => (m.ownStack layout m.threads.currentThread).low + 36 ≤ m.cpu.esp.toNat ∧
      m.cpu.esp.toNat ≤ (m.ownStack layout m.threads.currentThread).high

def Machine.PassesOver (slot : Fin maxThread) (m : Machine) (event : Event) : Prop :=
  m.threads.currentThread ≠ slot ∧
    (event.toCall = some .create → m.threads.freeSlot ≠ some slot)

instance (layout : Layout) (m : Machine) : DecidablePred (m.WritesOwnStack layout)
  | .compute _ _ _ writes => List.decidableBAll
      (fun write : Word × Byte => (m.ownStack layout m.threads.currentThread).Holds write.1) writes
  | .create _ => inferInstanceAs (Decidable True)
  | .enter _ => inferInstanceAs (Decidable (_ ∧ _))

instance (slot : Fin maxThread) (m : Machine) : DecidablePred (m.PassesOver slot) :=
  fun _ => inferInstanceAs (Decidable (_ ∧ _))

structure Machine.Parked (layout : Layout) (m : Machine) (slot : Fin maxThread) (sp : Word)
    (regs : Registers) (eip : Word) : Prop where
  pointer : read32 m.cpu.memory (layout.threadPointer slot) = sp
  inside : (span sp 36).Within (m.ownStack layout slot)
  frame : Frame m.cpu.memory sp regs eip

structure Machine.Undisturbed (layout : Layout) (m next : Machine) (slot : Fin maxThread) : Prop where
  stack : next.ownStack layout slot = m.ownStack layout slot
  bytes : Agree (m.ownStack layout slot) m.cpu.memory next.cpu.memory
  sp : Agree (layout.spRegion slot) m.cpu.memory next.cpu.memory

variable {layout : Layout} {m next : Machine} {slot : Fin maxThread}

theorem Machine.Parked.of_undisturbed {sp : Word} {regs : Registers} {eip : Word}
    (parked : m.Parked layout slot sp regs eip) (kept : m.Undisturbed layout next slot) :
    next.Parked layout slot sp regs eip where
  pointer := (kept.sp.read32_eq (spRegion_fits layout slot)).trans parked.pointer
  inside := kept.stack ▸ parked.inside
  frame := by
    have fits := ownStack_fits layout m slot
    have inside := parked.inside
    refine parked.frame.of_agree (kept.bytes.mono inside) ?_
    simp only [Region.Within, span] at inside
    omega

theorem undisturbed_of_compute {regs : Registers} {esp eip : Word} {writes : List (Word × Byte)}
    (other : m.threads.currentThread ≠ slot)
    (own : ∀ write ∈ writes, (m.ownStack layout m.threads.currentThread).Holds write.1) :
    m.Undisturbed layout { m with cpu := ⟨regs, esp, eip, writeBytes m.cpu.memory writes⟩ } slot := by
  have change := writeBytes_changedIn m.cpu.memory writes _ own
  exact ⟨rfl, change.agree (ownStack_apart layout m other),
    change.agree (ownStack_apart_spRegion layout m _ slot)⟩

theorem undisturbed_of_create {func : Word} (created : m.threadCreate layout func = some next)
    (passes : m.threads.freeSlot ≠ some slot) : m.Undisturbed layout next slot := by
  obtain ⟨t, free, filled⟩ := Option.map_eq_some_iff.mp created
  have different : t ≠ slot := fun same => passes (same ▸ free)
  have change := layFrame_changedIn layout t func m.cpu.memory
  subst filled
  refine ⟨?_, change.agree (ownStack_apart_threadRegion layout m different.symm).symm,
    change.agree ((threadRegion_apart layout different).mono_right (spRegion_within layout slot))⟩
  rw [Machine.ownStack, Machine.ownStack]
  by_cases main : slot = 0
  · have kept : (t != 0) = true := by simpa [main] using different
    simp [main, kept]
  · simp [main]

theorem frame_within {region : Region} {cpu : Cpu}
    (room : region.low + 36 ≤ cpu.esp.toNat ∧ cpu.esp.toNat ≤ region.high) :
    36 ≤ cpu.esp.toNat ∧ Region.Within ⟨cpu.esp.toNat - 36, cpu.esp.toNat⟩ region := by
  simp only [Region.Within]
  omega

theorem threadSchedule_switched (switches : m.threads.currentThread ≠ m.threads.target) :
    m.threadSchedule layout =
      { m with
        cpu := switchCpu layout m.threads.currentThread m.threads.target m.cpu.call
        threads := m.threads.threadSchedule } := by
  rw [Machine.threadSchedule, Threads.threadSchedule, if_pos switches, if_pos switches]
  rfl

theorem threadSchedule_stayed (stays : ¬m.threads.currentThread ≠ m.threads.target) :
    m.threadSchedule layout = { m with threads := m.threads.threadSchedule } := by
  rw [Machine.threadSchedule, Threads.threadSchedule, if_neg stays, if_neg stays]

theorem undisturbed_of_threadSchedule (other : m.threads.currentThread ≠ slot)
    (room : (m.ownStack layout m.threads.currentThread).low + 36 ≤ m.cpu.esp.toNat ∧
      m.cpu.esp.toNat ≤ (m.ownStack layout m.threads.currentThread).high) :
    m.Undisturbed layout (m.threadSchedule layout) slot := by
  obtain ⟨low, within⟩ := frame_within room
  by_cases switches : m.threads.currentThread ≠ m.threads.target
  · rw [threadSchedule_switched switches, switchCpu_eq]
    refine ⟨rfl, savedMemory_agree _ _ _ low ?_ ?_, savedMemory_agree _ _ _ low ?_ ?_⟩
    · exact (ownStack_apart layout m other).mono_left within
    · exact ((ownStack_apart_threadRegion layout m other.symm).mono_right
        (spRegion_within layout _)).symm
    · exact (ownStack_apart_spRegion layout m _ slot).mono_left within
    · exact ((threadRegion_apart layout other).mono_left (spRegion_within layout _)).mono_right
        (spRegion_within layout slot)
  · rw [threadSchedule_stayed switches]
    exact ⟨rfl, fun _ _ => rfl, fun _ _ => rfl⟩

theorem entered_ownStack {call : Call} {entered : Threads}
    (enters : m.threads.entering call = some entered) :
    Machine.ownStack layout { m with threads := entered } entered.currentThread =
      m.ownStack layout m.threads.currentThread := by
  rw [(entering_frame enters).1]
  rfl

theorem undisturbed_of_step {event : Event}
    (stepped : m.step layout event = some next) (own : m.WritesOwnStack layout event)
    (passes : m.PassesOver slot event) : m.Undisturbed layout next slot := by
  cases event with
  | compute regs esp eip writes =>
      simp only [Machine.step, Option.some.injEq] at stepped
      subst next
      exact undisturbed_of_compute passes.1 own
  | create func => exact undisturbed_of_create stepped (passes.2 rfl)
  | enter call =>
      obtain ⟨entered, enters, scheduled⟩ := Option.map_eq_some_iff.mp stepped
      subst scheduled
      have current := (entering_frame enters).1
      have kept : Machine.Undisturbed layout { m with threads := entered }
          (Machine.threadSchedule layout { m with threads := entered }) slot := by
        refine undisturbed_of_threadSchedule ?_ ?_
        · exact fun same => passes.1 (current ▸ same)
        · rw [entered_ownStack enters]
          exact own
      exact ⟨kept.stack, kept.bytes, kept.sp⟩

def Machine.Stores (layout : Layout) (m : Machine) (slot : Fin maxThread) : Context → Prop
  | .suspended regs esp eip => m.Parked layout slot (esp - 32) regs eip
  | .created func => ∃ regs, m.Parked layout slot (layout.stackTop slot - 36) regs func

theorem Machine.Stores.of_undisturbed {context : Context} (stores : m.Stores layout slot context)
    (kept : m.Undisturbed layout next slot) : next.Stores layout slot context := by
  cases context with
  | suspended regs esp eip => exact Machine.Parked.of_undisturbed stores kept
  | created func =>
      obtain ⟨regs, parked⟩ := stores
      exact ⟨regs, parked.of_undisturbed kept⟩

theorem stores_of_create {func : Word} {t : Fin maxThread} (free : m.threads.freeSlot = some t)
    (other : m.threads.currentThread ≠ t) (created : m.threadCreate layout func = some next) : next.Stores layout t (.created func) := by
  rw [Machine.threadCreate, free, Option.map_some, Option.some.injEq] at created
  have own : next.ownStack layout t = layout.stackRegion t := by
    rw [← created, Machine.ownStack, if_neg]
    rintro ⟨same, main⟩
    subst same
    simp [other] at main
  have low : (layout.stackTop t - 36).toNat = (layout.stackRegion t).high - 36 :=
    stackTop_sub layout t 36 (by decide)
  refine ⟨savedRegisters next.cpu.memory (layout.stackTop t - 36), ?_, ?_, rfl, ?_⟩
  · rw [← created]
    exact layFrame_sp layout t func m.cpu.memory
  · rw [own]
    simp only [Region.Within, span, low]
    simp only [Layout.stackRegion, stackSize]
    omega
  · rw [← created]
    exact layFrame_func layout t func m.cpu.memory

theorem stores_of_threadSchedule (switches : m.threads.currentThread ≠ m.threads.target)
    (room : (m.ownStack layout m.threads.currentThread).low + 36 ≤ m.cpu.esp.toNat ∧
      m.cpu.esp.toNat ≤ (m.ownStack layout m.threads.currentThread).high) :
    (m.threadSchedule layout).Stores layout m.threads.currentThread
      (.suspended m.cpu.call.regs m.cpu.call.esp m.cpu.eip) := by
  obtain ⟨low, within⟩ := frame_within room
  have lowered : m.cpu.call.esp - 32 = m.cpu.esp - 36 := by
    rw [Cpu.call, push_esp, BitVec.sub_sub]
    rfl
  rw [Machine.Stores, lowered, threadSchedule_switched switches, switchCpu_eq]
  refine ⟨savedMemory_sp layout _ m.cpu, ?_, savedMemory_frame layout _ m.cpu low ?_⟩
  · have sum := toNat_sub_frame low
    change (span (m.cpu.esp - 36) 36).Within (m.ownStack layout m.threads.currentThread)
    simp only [Region.Within, span, sum] at within ⊢
    omega
  · exact (ownStack_apart_spRegion layout m _ _).mono_left within

theorem stores_of_leaves {event : Event} {context : Context}
    (leaves : m.leaves event = some (slot, context)) (stepped : m.step layout event = some next)
    (own : m.WritesOwnStack layout event) (away : next.threads.currentThread ≠ slot) :
    next.Stores layout slot context := by
  cases event with
  | compute regs esp eip writes => simp [Machine.leaves] at leaves
  | create func =>
      obtain ⟨t, free, same⟩ := Option.map_eq_some_iff.mp leaves
      simp only [Prod.mk.injEq] at same
      obtain ⟨rfl, rfl⟩ := same
      refine stores_of_create free ?_ stepped
      obtain ⟨_, _, filled⟩ := Option.map_eq_some_iff.mp stepped
      rwa [← filled] at away
  | enter call =>
      obtain ⟨entered, enters, scheduled⟩ := Option.map_eq_some_iff.mp stepped
      rw [Machine.leaves, enters, Option.bind_some] at leaves
      split at leaves
      next switches =>
        simp only [Option.some.injEq, Prod.mk.injEq] at leaves
        obtain ⟨rfl, rfl⟩ := leaves
        rw [← scheduled]
        refine stores_of_threadSchedule switches ?_
        rw [entered_ownStack enters]
        exact own
      next => simp at leaves

theorem Machine.Stores.resumes {context : Context} (stores : m.Stores layout slot context)
    (other : m.threads.currentThread ≠ slot)
    (room : (m.ownStack layout m.threads.currentThread).low + 36 ≤ m.cpu.esp.toNat ∧
      m.cpu.esp.toNat ≤ (m.ownStack layout m.threads.currentThread).high)
    (resumed : (m.threadSchedule layout).threads.currentThread = slot) :
    Resumes layout slot (m.threadSchedule layout).cpu context := by
  have kept := stores.of_undisturbed (undisturbed_of_threadSchedule other room)
  have target : m.threads.target = slot := by
    rw [machine_threadSchedule_threads, Threads.threadSchedule] at resumed
    split at resumed
    next => exact resumed
    next stays => exact absurd resumed other
  have switches : m.threads.currentThread ≠ m.threads.target := target.symm ▸ other
  rw [threadSchedule_switched switches, switchCpu_eq, target] at kept ⊢
  cases context with
  | suspended regs esp eip =>
      obtain ⟨pointer, _, frame⟩ := kept
      simp only at pointer frame
      refine ⟨?_, ?_, ?_⟩
      · rw [pointer]
        exact frame.1
      · simp only [pointer]
        rw [show (36 : Word) = 32 + 4 from rfl, ← BitVec.add_assoc, BitVec.sub_add_cancel]
      · rw [pointer]
        exact frame.2
  | created func =>
      obtain ⟨regs, pointer, _, frame⟩ := kept
      simp only at pointer frame
      refine ⟨?_, ?_⟩
      · rw [pointer]
        exact frame.2
      · simp only [pointer]
        exact BitVec.sub_add_cancel _ _

theorem Machine.Stores.of_run {context : Context} {events : List Event}
    (stores : m.Stores layout slot context)
    (own : Runs.Along (Machine.step layout) (fun _ => Machine.WritesOwnStack layout) m events)
    (passes : Runs.Along (Machine.step layout) (fun _ => Machine.PassesOver slot) m events)
    (reached : Runs.run (Machine.step layout) m events = some next) :
    next.Stores layout slot context := by
  refine Runs.run_invariant_along (fun _ m => m.Stores layout slot context) stores ?_ events next
    (own.and passes) reached
  intro history state event final stored conditions stepped
  exact stored.of_undisturbed (undisturbed_of_step stepped conditions.1 conditions.2)

/-- An event leaves a context in a slot; other threads run, write to their own stacks,
create threads in other slots and switch among themselves; when a switch comes back
to the slot, the processor goes on from that context. -/
theorem context_preserved (layout : Layout) (m left before after : Machine) (event : Event)
    (between : List Event) (back : Call) (slot : Fin maxThread) (context : Context)
    (leaves : m.leaves event = some (slot, context)) (stepped : m.step layout event = some left)
    (reached : Runs.run (Machine.step layout) left between = some before)
    (returned : before.step layout (.enter back) = some after)
    (resumed : after.threads.currentThread = slot)
    (own : Runs.Along (Machine.step layout) (fun _ => Machine.WritesOwnStack layout) m
      (event :: (between ++ [.enter back])))
    (passes : Runs.Along (Machine.step layout) (fun _ => Machine.PassesOver slot) left
      (between ++ [.enter back])) :
    Resumes layout slot after.cpu context := by
  have later := own.tail stepped
  have away : left.threads.currentThread ≠ slot := by
    cases between with
    | nil => exact passes.head.1
    | cons first rest => exact passes.head.1
  have stored := (stores_of_leaves leaves stepped own.head away).of_run later.of_append
    passes.of_append reached
  obtain ⟨entered, enters, scheduled⟩ := Option.map_eq_some_iff.mp returned
  rw [← scheduled] at resumed ⊢
  have current := (entering_frame enters).1
  have room := later.last reached
  refine Machine.Stores.resumes (m := { before with threads := entered }) ?_ ?_ ?_ resumed
  · exact stored.of_undisturbed ⟨rfl, fun _ _ => rfl, fun _ _ => rfl⟩
  · rw [current]
    exact (passes.last reached).1
  · rw [entered_ownStack enters]
    exact room

def sampleLayout : Layout where
  allThread := 0x3000
  processStack := ⟨0x20000, 0x21000⟩
  tableFits := by decide
  processFits := by decide
  separate := Or.inr (by decide)

def sampleCpu : Cpu where
  regs := ⟨1, 2, 3, 4, 5, 6, 7⟩
  esp := 0x20800
  eip := 0x40
  memory := fun _ => 0

def sampleWork : Event :=
  .compute ⟨11, 12, 13, 14, 15, 16, 17⟩ 0x7000 0x508 [(0x7000, 0xff), (0x6f00, 0xff)]

theorem context_preserved_main :
    ∃ m left before after,
      Runs.run (Machine.step sampleLayout) (boot sampleCpu) [.create 0x500] = some m ∧
      m.step sampleLayout (.enter .schedule) = some left ∧
      Resumes sampleLayout 1 left.cpu (.created 0x500) ∧
      Runs.run (Machine.step sampleLayout) left [sampleWork] = some before ∧
      before.step sampleLayout (.enter .yield) = some after ∧
      Resumes sampleLayout 0 after.cpu (.suspended sampleCpu.regs (sampleCpu.esp - 4) 0x40) := by
  let m := ((boot sampleCpu).step sampleLayout (.create 0x500)).get (by decide +kernel)
  let left := (m.step sampleLayout (.enter .schedule)).get (by decide +kernel)
  let before := (Runs.run (Machine.step sampleLayout) left [sampleWork]).get (by decide +kernel)
  let after := (before.step sampleLayout (.enter .yield)).get (by decide +kernel)
  have created : (boot sampleCpu).step sampleLayout (.create 0x500) = some m :=
    (Option.some_get _).symm
  have stepped : m.step sampleLayout (.enter .schedule) = some left := (Option.some_get _).symm
  have reached : Runs.run (Machine.step sampleLayout) left [sampleWork] = some before :=
    (Option.some_get _).symm
  have returned : before.step sampleLayout (.enter .yield) = some after := (Option.some_get _).symm
  have own : Runs.Along (Machine.step sampleLayout) (fun _ => Machine.WritesOwnStack sampleLayout)
      (boot sampleCpu) [.create 0x500, .enter .schedule, sampleWork, .enter .yield] :=
    Runs.alongCheck_sound _ _ _ _ (by decide +kernel)
  refine ⟨m, left, before, after, ?_, stepped, ?_, reached, returned, ?_⟩
  · rw [Runs.run_cons, created]
    rfl
  · exact context_preserved sampleLayout (boot sampleCpu) m m left (.create 0x500) [] .schedule 1
      (.created 0x500) (by decide +kernel) created rfl stepped (by decide +kernel)
      (Runs.alongCheck_sound _ _ _ _ (by decide +kernel)) (Runs.alongCheck_sound _ _ _ _ (by decide +kernel))
  · exact context_preserved sampleLayout m left before after (.enter .schedule) [sampleWork] .yield 0
      _ (by decide +kernel) stepped reached returned (by decide +kernel) (own.tail created)
      (Runs.alongCheck_sound _ _ _ _ (by decide +kernel))

/-- `main` calls `thread_exit` with no other thread, which returns to it with its slot
free; the next thread it creates takes that slot and never starts. The first switch to
the slot resumes `main`. -/
theorem created_in_own_slot_lost :
    ∃ m created final,
      Runs.run (Machine.step sampleLayout) (boot sampleCpu) [.enter .exit] = some m ∧
      m.threads.currentThread = 0 ∧ m.leaves (.create 0x500) = some (0, .created 0x500) ∧
      m.step sampleLayout (.create 0x500) = some created ∧
      Runs.Along (Machine.step sampleLayout) (fun _ => Machine.WritesOwnStack sampleLayout)
        created [.create 0x600, .enter .schedule, sampleWork, .enter .yield] ∧
      Runs.run (Machine.step sampleLayout) created
        [.create 0x600, .enter .schedule, sampleWork, .enter .yield] = some final ∧
      final.threads.currentThread = 0 ∧ final.cpu.eip = sampleCpu.eip ∧
      ¬Resumes sampleLayout 0 final.cpu (.created 0x500) := by
  let m := (Runs.run (Machine.step sampleLayout) (boot sampleCpu) [.enter .exit]).get
    (by decide +kernel)
  let created := (m.step sampleLayout (.create 0x500)).get (by decide +kernel)
  let final := (Runs.run (Machine.step sampleLayout) created
    [.create 0x600, .enter .schedule, sampleWork, .enter .yield]).get (by decide +kernel)
  have resumed : final.cpu.eip = sampleCpu.eip := by decide +kernel
  refine ⟨m, created, final, (Option.some_get _).symm, by decide +kernel, by decide +kernel,
    (Option.some_get _).symm, Runs.alongCheck_sound _ _ _ _ (by decide +kernel),
    (Option.some_get _).symm, by decide +kernel, resumed, ?_⟩
  rintro ⟨started, _⟩
  rw [resumed] at started
  exact absurd started (by decide)

end OsLabs.Uthread
