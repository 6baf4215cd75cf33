import OsLabs.Uthread.UthreadMachine

/-!
Where the library writes: the slots of `all_thread` and the process stack are apart,
`thread_create` writes inside one slot, and a switch writes a frame on the stack of
the outgoing thread and the `sp` of its slot.
-/

namespace OsLabs.Uthread

open OsLabs.WordMemory OsLabs.StackMachine

section Regions

variable (layout : Layout) (m : Machine)

theorem threadRegion_fits (t : Fin maxThread) : (layout.threadRegion t).high < 2 ^ 32 := by
  have fits : layout.allThread + 65600 < 2 ^ 32 := layout.tableFits
  have bound : t.val < 8 := t.isLt
  simp only [Layout.threadRegion, sizeofThread, stackSize]
  omega

theorem threadPointer_toNat (t : Fin maxThread) :
    (layout.threadPointer t).toNat = (layout.threadRegion t).low := by
  have fits := threadRegion_fits layout t
  simp only [Layout.threadPointer, Layout.threadRegion, sizeofThread, stackSize,
    BitVec.toNat_ofNat] at *
  omega

theorem stackTop_toNat (t : Fin maxThread) :
    (layout.stackTop t).toNat = (layout.stackRegion t).high := by
  have fits := threadRegion_fits layout t
  simp only [Layout.stackTop, Layout.stackRegion, Layout.threadRegion, sizeofThread, stackSize,
    BitVec.toNat_ofNat] at *
  omega

def Layout.spRegion (t : Fin maxThread) : Region := span (layout.threadPointer t) 4

theorem spRegion_eq (t : Fin maxThread) :
    layout.spRegion t = ⟨(layout.threadRegion t).low, (layout.threadRegion t).low + 4⟩ := by
  rw [Layout.spRegion, span, threadPointer_toNat]

theorem ownStack_fits (t : Fin maxThread) : (m.ownStack layout t).high < 2 ^ 32 := by
  have fits := threadRegion_fits layout t
  rw [Machine.ownStack]
  split
  next => exact layout.processFits
  next =>
    simp only [Layout.stackRegion, Layout.threadRegion, sizeofThread, stackSize] at *
    omega

theorem threadRegion_apart {s t : Fin maxThread} (different : s ≠ t) :
    (layout.threadRegion s).Apart (layout.threadRegion t) := by
  have values : s.val ≠ t.val := fun same => different (Fin.ext same)
  simp only [Region.Apart, Layout.threadRegion, sizeofThread, stackSize]
  omega

theorem spRegion_within (t : Fin maxThread) : (layout.spRegion t).Within (layout.threadRegion t) := by
  rw [spRegion_eq]
  simp only [Region.Within, Layout.threadRegion, sizeofThread, stackSize]
  omega

theorem stackRegion_within (t : Fin maxThread) :
    (layout.stackRegion t).Within (layout.threadRegion t) := by
  simp only [Region.Within, Layout.stackRegion, Layout.threadRegion, sizeofThread, stackSize]
  omega

theorem processStack_apart (t : Fin maxThread) :
    layout.processStack.Apart (layout.threadRegion t) := by
  have separate : layout.processStack.Apart ⟨layout.allThread, layout.allThread + 65600⟩ :=
    layout.separate
  have bound : t.val < 8 := t.isLt
  simp only [Region.Apart, Layout.threadRegion, sizeofThread, stackSize] at *
  omega

theorem ownStack_apart_threadRegion {s t : Fin maxThread} (different : s ≠ t) :
    (m.ownStack layout s).Apart (layout.threadRegion t) := by
  rw [Machine.ownStack]
  split
  next => exact processStack_apart layout t
  next => exact (threadRegion_apart layout different).mono_left (stackRegion_within layout s)

theorem ownStack_apart {s t : Fin maxThread} (different : s ≠ t) :
    (m.ownStack layout s).Apart (m.ownStack layout t) := by
  by_cases main : t = 0 ∧ m.mainInSlot = true
  · have other : ¬(s = 0 ∧ m.mainInSlot = true) := fun also => different (also.1.trans main.1.symm)
    rw [Machine.ownStack, Machine.ownStack, if_pos main, if_neg other]
    exact ((processStack_apart layout s).mono_right (stackRegion_within layout s)).symm
  · have inside : (m.ownStack layout t).Within (layout.threadRegion t) := by
      rw [Machine.ownStack, if_neg main]
      exact stackRegion_within layout t
    exact (ownStack_apart_threadRegion layout m different).mono_right inside

theorem ownStack_apart_spRegion (s t : Fin maxThread) :
    (m.ownStack layout s).Apart (layout.spRegion t) := by
  by_cases same : s = t
  · subst s
    rw [Machine.ownStack]
    split
    next => exact (processStack_apart layout t).mono_right (spRegion_within layout t)
    next =>
      rw [spRegion_eq]
      exact Or.inr (Nat.le_refl _)
  · exact (ownStack_apart_threadRegion layout m same).mono_right (spRegion_within layout t)

theorem spRegion_fits (t : Fin maxThread) : (layout.threadPointer t).toNat + 4 < 2 ^ 32 := by
  have fits := threadRegion_fits layout t
  rw [threadPointer_toNat]
  simp only [Layout.threadRegion, sizeofThread, stackSize] at *
  omega

theorem stackTop_sub (t : Fin maxThread) (count : Word) (below : count.toNat ≤ 8192) :
    (layout.stackTop t - count).toNat = (layout.stackRegion t).high - count.toNat := by
  rw [BitVec.toNat_sub_of_le, stackTop_toNat]
  rw [BitVec.le_def, stackTop_toNat]
  simp only [Layout.stackRegion, stackSize]
  omega

end Regions

section Frames

variable (layout : Layout) (t : Fin maxThread)

theorem write_sp_changedIn (memory : Memory) (value : Word) :
    ChangedIn (layout.spRegion t) memory (write32 memory (layout.threadPointer t) value) :=
  write32_changedIn memory _ value (spRegion_fits layout t)

theorem returnSlot_within : (span (layout.stackTop t - 4) 4).Within (layout.stackRegion t) := by
  have low : (layout.stackTop t - 4).toNat = (layout.stackRegion t).high - 4 :=
    stackTop_sub layout t 4 (by decide)
  simp only [Region.Within, span, low]
  simp only [Layout.stackRegion, stackSize]
  omega

theorem write_func_changedIn (memory : Memory) (func : Word) :
    ChangedIn (layout.stackRegion t) memory (write32 memory (layout.stackTop t - 4) func) := by
  have low : (layout.stackTop t - 4).toNat = (layout.stackRegion t).high - 4 :=
    stackTop_sub layout t 4 (by decide)
  have fits := threadRegion_fits layout t
  refine (write32_changedIn memory _ func ?_).mono (returnSlot_within layout t)
  rw [low]
  simp only [Layout.stackRegion, Layout.threadRegion, sizeofThread, stackSize] at *
  omega

theorem stackRegion_apart_spRegion : (layout.stackRegion t).Apart (layout.spRegion t) := by
  rw [spRegion_eq]
  exact Or.inr (Nat.le_refl _)

theorem layFrame_eq (func : Word) (memory : Memory) :
    layout.layFrame t func memory =
      write32 (write32 (write32 (write32 memory (layout.threadPointer t) (layout.stackTop t))
        (layout.threadPointer t) (layout.stackTop t - 4)) (layout.stackTop t - 4) func)
        (layout.threadPointer t) (layout.stackTop t - 36) := by
  have kept := ((write_func_changedIn layout t (write32 (write32 memory (layout.threadPointer t)
    (layout.stackTop t)) (layout.threadPointer t) (layout.stackTop t - 4)) func).agree
      (stackRegion_apart_spRegion layout t)).read32_eq (spRegion_fits layout t)
  rw [read32_write32] at kept
  simp only [Layout.layFrame, read32_write32, kept, BitVec.sub_sub]
  rfl

theorem layFrame_sp (func : Word) (memory : Memory) :
    read32 (layout.layFrame t func memory) (layout.threadPointer t) = layout.stackTop t - 36 := by
  rw [layFrame_eq, read32_write32]

theorem layFrame_func (func : Word) (memory : Memory) :
    read32 (layout.layFrame t func memory) (layout.stackTop t - 36 + 32) = func := by
  have low : (layout.stackTop t - 4).toNat = (layout.stackRegion t).high - 4 :=
    stackTop_sub layout t 4 (by decide)
  have fits := threadRegion_fits layout t
  have same : layout.stackTop t - 36 + 32 = layout.stackTop t - 4 := by
    rw [show (36 : Word) = 4 + 32 from rfl, ← BitVec.sub_sub, BitVec.sub_add_cancel]
  rw [same, layFrame_eq, ((write_sp_changedIn layout t _ _).agree
    ((stackRegion_apart_spRegion layout t).mono_left (returnSlot_within layout t)).symm).read32_eq,
    read32_write32]
  rw [low]
  simp only [Layout.stackRegion, Layout.threadRegion, sizeofThread, stackSize] at *
  omega

theorem layFrame_changedIn (func : Word) (memory : Memory) :
    ChangedIn (layout.threadRegion t) memory (layout.layFrame t func memory) := by
  have sp : ∀ memory value, ChangedIn (layout.threadRegion t) memory
      (write32 memory (layout.threadPointer t) value) := fun memory value =>
    (write_sp_changedIn layout t memory value).mono (spRegion_within layout t)
  have last : ∀ memory, ChangedIn (layout.threadRegion t) memory
      (write32 memory (layout.stackTop t - 4) func) := fun memory =>
    (write_func_changedIn layout t memory func).mono (stackRegion_within layout t)
  rw [layFrame_eq]
  exact (((sp _ _).trans (sp _ _)).trans (last _)).trans (sp _ _)

end Frames

section Switch

variable (layout : Layout) (current next : Fin maxThread) (cpu : Cpu)

def savedMemory : Memory :=
  write32 cpu.call.pusha.memory (layout.threadPointer current) (cpu.esp - 36)

theorem switchCpu_eq :
    switchCpu layout current next cpu.call =
      { regs := savedRegisters (savedMemory layout current cpu)
          (read32 (savedMemory layout current cpu) (layout.threadPointer next))
        esp := read32 (savedMemory layout current cpu) (layout.threadPointer next) + 36
        eip := read32 (savedMemory layout current cpu)
          (read32 (savedMemory layout current cpu) (layout.threadPointer next) + 32)
        memory := savedMemory layout current cpu } := by
  have lowered : cpu.call.pusha.esp = cpu.esp - 36 := by rw [call_pusha]
  simp only [switchCpu, ret_popa, setEax, savedMemory, lowered]

theorem savedMemory_sp :
    read32 (savedMemory layout current cpu) (layout.threadPointer current) = cpu.esp - 36 :=
  read32_write32 _ _ _

theorem savedMemory_agree {region : Region} (room : 36 ≤ cpu.esp.toNat)
    (apartFrame : Region.Apart ⟨cpu.esp.toNat - 36, cpu.esp.toNat⟩ region)
    (apartSp : (layout.spRegion current).Apart region) :
    Agree region cpu.memory (savedMemory layout current cpu) :=
  ((call_pusha_changedIn cpu room).agree apartFrame).trans
    ((write_sp_changedIn layout current _ _).agree apartSp)

theorem savedMemory_frame (room : 36 ≤ cpu.esp.toNat)
    (apart : Region.Apart ⟨cpu.esp.toNat - 36, cpu.esp.toNat⟩ (layout.spRegion current)) :
    Frame (savedMemory layout current cpu) (cpu.esp - 36) cpu.regs cpu.eip := by
  have low := toNat_sub_frame room
  have top := cpu.esp.isLt
  refine (call_pusha_frame cpu room).of_agree ((write_sp_changedIn layout current _ _).agree ?_)
    (by omega)
  refine apart.symm.mono_right ?_
  simp only [Region.Within, span, low]
  omega

end Switch

end OsLabs.Uthread
