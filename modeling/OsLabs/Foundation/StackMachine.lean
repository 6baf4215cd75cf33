import OsLabs.Foundation.WordMemory

/-!
The part of a 32-bit x86 processor that a context switch needs: the general
registers, the stack pointer, the program counter and the instructions that move
them to and from the stack.
-/

namespace OsLabs.StackMachine

open OsLabs.WordMemory

structure Registers where
  eax : Word
  ecx : Word
  edx : Word
  ebx : Word
  ebp : Word
  esi : Word
  edi : Word
deriving DecidableEq, Repr

structure Cpu where
  regs : Registers
  esp : Word
  eip : Word
  memory : Memory

def Cpu.push (cpu : Cpu) (value : Word) : Cpu :=
  { cpu with esp := cpu.esp - 4, memory := write32 cpu.memory (cpu.esp - 4) value }

/-- Pushes the return address. The callee's own code is given by its model, so `eip`
keeps the address at which the caller goes on. -/
def Cpu.call (cpu : Cpu) : Cpu := cpu.push cpu.eip

def Cpu.ret (cpu : Cpu) : Cpu :=
  { cpu with eip := read32 cpu.memory cpu.esp, esp := cpu.esp + 4 }

def Cpu.pusha (cpu : Cpu) : Cpu :=
  [cpu.regs.eax, cpu.regs.ecx, cpu.regs.edx, cpu.regs.ebx, cpu.esp, cpu.regs.ebp, cpu.regs.esi,
    cpu.regs.edi].foldl Cpu.push cpu

def savedRegisters (memory : Memory) (address : Word) : Registers where
  edi := read32 memory address
  esi := read32 memory (address + 4)
  ebp := read32 memory (address + 8)
  ebx := read32 memory (address + 16)
  edx := read32 memory (address + 20)
  ecx := read32 memory (address + 24)
  eax := read32 memory (address + 28)

def Cpu.popa (cpu : Cpu) : Cpu :=
  { cpu with regs := savedRegisters cpu.memory cpu.esp, esp := cpu.esp + 32 }

@[simp] theorem push_regs (cpu : Cpu) (value : Word) : (cpu.push value).regs = cpu.regs := rfl

@[simp] theorem push_esp (cpu : Cpu) (value : Word) : (cpu.push value).esp = cpu.esp - 4 := rfl

theorem foldl_push (cpu : Cpu) (values : List Word) :
    values.foldl Cpu.push cpu =
      { cpu with
        esp := cpu.esp - BitVec.ofNat 32 (4 * values.length)
        memory := storeWords cpu.memory (cpu.esp - BitVec.ofNat 32 (4 * values.length))
          values.reverse } := by
  induction values generalizing cpu with
  | nil => simp [storeWords]
  | cons value rest ih =>
      have lower : cpu.esp - 4 - BitVec.ofNat 32 (4 * rest.length) =
          cpu.esp - BitVec.ofNat 32 (4 * (rest.length + 1)) := by
        rw [Nat.mul_succ, Nat.add_comm, BitVec.ofNat_add, ← BitVec.sub_sub]
        rfl
      have upper : cpu.esp - BitVec.ofNat 32 (4 * (rest.length + 1)) +
          BitVec.ofNat 32 (4 * rest.length) = cpu.esp - 4 := by
        rw [← lower, BitVec.sub_add_cancel]
      simp only [List.foldl_cons, ih, Cpu.push, List.reverse_cons, storeWords_append, storeWords,
        List.length_reverse, List.length_cons, lower, upper]

def frameWords (cpu : Cpu) : List Word :=
  [cpu.regs.edi, cpu.regs.esi, cpu.regs.ebp, cpu.esp - 4, cpu.regs.ebx, cpu.regs.edx,
    cpu.regs.ecx, cpu.regs.eax, cpu.eip]

theorem call_pusha (cpu : Cpu) :
    cpu.call.pusha =
      { cpu with
        esp := cpu.esp - 36
        memory := storeWords cpu.memory (cpu.esp - 36) (frameWords cpu) } := by
  have pushed : cpu.call.pusha = (frameWords cpu).reverse.foldl Cpu.push cpu := by
    simp only [Cpu.pusha, Cpu.call, push_regs, push_esp, frameWords, List.reverse_cons,
      List.reverse_nil, List.nil_append, List.cons_append, List.foldl_cons]
  rw [pushed, foldl_push, List.length_reverse, List.reverse_reverse]
  rfl

theorem toNat_sub_frame {cpu : Cpu} (room : 36 ≤ cpu.esp.toNat) :
    (cpu.esp - 36).toNat = cpu.esp.toNat - 36 :=
  BitVec.toNat_sub_of_le (x := cpu.esp) (y := 36) room

theorem call_pusha_changedIn (cpu : Cpu) (room : 36 ≤ cpu.esp.toNat) :
    ChangedIn ⟨cpu.esp.toNat - 36, cpu.esp.toNat⟩ cpu.memory cpu.call.pusha.memory := by
  have low := toNat_sub_frame room
  have top := cpu.esp.isLt
  have change := storeWords_changedIn cpu.memory (cpu.esp - 36) (frameWords cpu)
    (by simp only [frameWords, List.length_cons, List.length_nil]; omega)
  rw [call_pusha]
  refine change.mono ?_
  simp only [frameWords, List.length_cons, List.length_nil, span, Region.Within]
  omega

def Frame (memory : Memory) (address : Word) (regs : Registers) (eip : Word) : Prop :=
  savedRegisters memory address = regs ∧ read32 memory (address + 32) = eip

theorem call_pusha_frame (cpu : Cpu) (room : 36 ≤ cpu.esp.toNat) :
    Frame cpu.call.pusha.memory (cpu.esp - 36) cpu.regs cpu.eip := by
  have low := toNat_sub_frame room
  have top := cpu.esp.isLt
  have stored : ∀ index value, (frameWords cpu)[index]? = some value →
      read32 cpu.call.pusha.memory (cpu.esp - 36 + BitVec.ofNat 32 (4 * index)) = value := by
    intro index value found
    rw [call_pusha]
    refine read32_storeWords _ _ _ _ _ ?_ found
    simp only [frameWords, List.length_cons, List.length_nil]
    omega
  refine ⟨?_, stored 8 _ rfl⟩
  rw [savedRegisters, Registers.mk.injEq]
  refine ⟨stored 7 _ rfl, stored 6 _ rfl, stored 5 _ rfl, stored 4 _ rfl, stored 2 _ rfl,
    stored 1 _ rfl, ?_⟩
  simpa using stored 0 _ rfl

theorem ret_popa (cpu : Cpu) :
    cpu.popa.ret =
      { cpu with
        regs := savedRegisters cpu.memory cpu.esp
        eip := read32 cpu.memory (cpu.esp + 32)
        esp := cpu.esp + 36 } := by
  simp only [Cpu.ret, Cpu.popa, BitVec.add_assoc]
  rfl

theorem Frame.of_agree {before after : Memory} {address : Word} {regs : Registers} {eip : Word}
    (frame : Frame before address regs eip) (agree : Agree (span address 36) before after)
    (fits : address.toNat + 36 < 2 ^ 32) : Frame after address regs eip := by
  have word : ∀ offset : Word, offset.toNat + 4 ≤ 36 →
      read32 after (address + offset) = read32 before (address + offset) := by
    intro offset inside
    have sum : (address + offset).toNat = address.toNat + offset.toNat :=
      BitVec.toNat_add_of_lt (by omega)
    refine (agree.mono ?_).read32_eq (by omega)
    simp only [span, Region.Within]
    omega
  have base : read32 after address = read32 before address := by simpa using word 0 (by decide)
  refine ⟨?_, (word 32 (by decide)).trans frame.2⟩
  rw [← frame.1]
  simp only [savedRegisters, base, word 4 (by decide), word 8 (by decide), word 16 (by decide),
    word 20 (by decide), word 24 (by decide), word 28 (by decide)]

end OsLabs.StackMachine
