import OsLabs.Foundation.StackMachine
import OsLabs.Uthread.UthreadCore

/-!
The library over byte memory: `all_thread` with its stacks, the frame that
`thread_create` lays out and the instructions of `uthread_switch.S`. The table of
thread states is the one of `UthreadCore`.
-/

namespace OsLabs.Uthread

open OsLabs.WordMemory OsLabs.StackMachine

def stackSize : Nat := 8192

def sizeofThread : Nat := 4 + stackSize + 4

/-- Where `all_thread` and the process stack are. `main` runs on the process stack. -/
structure Layout where
  allThread : Nat
  processStack : Region
  tableFits : allThread + maxThread * sizeofThread < 2 ^ 32
  processFits : processStack.high < 2 ^ 32
  separate : processStack.Apart ⟨allThread, allThread + maxThread * sizeofThread⟩

def Layout.threadRegion (layout : Layout) (t : Fin maxThread) : Region :=
  ⟨layout.allThread + t.val * sizeofThread, layout.allThread + (t.val + 1) * sizeofThread⟩

def Layout.threadPointer (layout : Layout) (t : Fin maxThread) : Word :=
  BitVec.ofNat 32 (layout.threadRegion t).low

def Layout.stackRegion (layout : Layout) (t : Fin maxThread) : Region :=
  ⟨(layout.threadRegion t).low + 4, (layout.threadRegion t).low + 4 + stackSize⟩

def Layout.stackTop (layout : Layout) (t : Fin maxThread) : Word :=
  BitVec.ofNat 32 (layout.stackRegion t).high

/-- `mainInSlot` is not in the program: it says that no other thread has created one in
slot 0, so that the thread there is `main`. -/
structure Machine where
  cpu : Cpu
  threads : Threads
  mainInSlot : Bool

def boot (cpu : Cpu) : Machine where
  cpu := cpu
  threads := threadInit
  mainInSlot := true

def Machine.ownStack (layout : Layout) (m : Machine) (t : Fin maxThread) : Region :=
  if t = 0 ∧ m.mainInSlot = true then layout.processStack else layout.stackRegion t

def Layout.layFrame (layout : Layout) (t : Fin maxThread) (func : Word) (memory : Memory) : Memory :=
  let sp := layout.threadPointer t
  let memory := write32 memory sp (layout.stackTop t)
  let memory := write32 memory sp (read32 memory sp - 4)
  let memory := write32 memory (read32 memory sp) func
  write32 memory sp (read32 memory sp - 32)

def Machine.threadCreate (layout : Layout) (m : Machine) (func : Word) : Option Machine :=
  m.threads.freeSlot.map fun t =>
    { cpu := { m.cpu with memory := layout.layFrame t func m.cpu.memory }
      threads := m.threads.setState t .runnable
      mainInSlot := m.mainInSlot && (t != 0 || m.threads.currentThread == 0) }

def setEax (cpu : Cpu) (value : Word) : Cpu := { cpu with regs := { cpu.regs with eax := value } }

/-- `uthread_switch.S`, one line for each instruction that touches the processor. -/
def switchCpu (layout : Layout) (current next : Fin maxThread) (cpu : Cpu) : Cpu :=
  let cpu := cpu.pusha
  let cpu := setEax cpu (layout.threadPointer current)
  let cpu := { cpu with memory := write32 cpu.memory cpu.regs.eax cpu.esp }
  let cpu := setEax cpu (layout.threadPointer next)
  let cpu := { cpu with esp := read32 cpu.memory cpu.regs.eax }
  cpu.popa.ret

def Machine.threadSwitch (layout : Layout) (m : Machine) (next : Fin maxThread) : Machine :=
  { m with
    cpu := switchCpu layout m.threads.currentThread next m.cpu
    threads := m.threads.threadSwitch next }

def Machine.threadSchedule (layout : Layout) (m : Machine) : Machine :=
  let next := m.threads.target
  if m.threads.currentThread ≠ next then
    { m with cpu := m.cpu.call, threads := m.threads.searched.setState next .running }.threadSwitch
      layout next
  else { m with threads := m.threads.searched }

/-- What the running thread does: run its own code, which may set the registers and
store bytes, create a thread, or call into the scheduler. -/
inductive Event where
  | compute (regs : Registers) (esp eip : Word) (writes : List (Word × Byte))
  | create (func : Word)
  | enter (call : Call)
deriving DecidableEq, Repr

def Machine.step (layout : Layout) (m : Machine) : Event → Option Machine
  | .compute regs esp eip writes =>
      some { m with cpu := ⟨regs, esp, eip, writeBytes m.cpu.memory writes⟩ }
  | .create func => m.threadCreate layout func
  | .enter call => (m.threads.entering call).map fun entered =>
      { m with threads := entered }.threadSchedule layout

def Event.toCall : Event → Option Call
  | .compute _ _ _ _ => none
  | .create _ => some .create
  | .enter call => some call

theorem machine_threadSchedule_threads (layout : Layout) (m : Machine) :
    (m.threadSchedule layout).threads = m.threads.threadSchedule := by
  rw [Machine.threadSchedule, Threads.threadSchedule]
  split <;> rfl

end OsLabs.Uthread
