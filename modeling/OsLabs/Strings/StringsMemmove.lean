import OsLabs.Foundation.WordMemory

/-!
The two `memmove`s: the kernel's chooses the direction of the copy, and the user
library's always copies upwards.
-/

namespace OsLabs.Strings

open Function OsLabs.WordMemory

/-- `while(n-- > 0) *dst++ = *src++;` -/
def copyUp : Nat → Memory → Word → Word → Memory
  | 0, memory, _, _ => memory
  | n + 1, memory, dst, src => copyUp n (update memory dst (memory src)) (dst + 1) (src + 1)

/-- `while(n-- > 0) *--d = *--s;` -/
def copyDown : Nat → Memory → Word → Word → Memory
  | 0, memory, _, _ => memory
  | n + 1, memory, d, s => copyDown n (update memory (d - 1) (memory (s - 1))) (d - 1) (s - 1)

/-- `memmove` of ulib.c; its `n` is an `int`. -/
def Ulib.memmove (memory : Memory) (vdst vsrc n : Word) : Memory := copyUp n.toInt.toNat memory vdst vsrc

/-- `memmove` of string.c; its `n` is a `uint`. -/
def Kernel.memmove (memory : Memory) (dst src n : Word) : Memory :=
  if src < dst ∧ src + n > dst then copyDown n.toNat memory (dst + n) (src + n)
  else copyUp n.toNat memory dst src

def moved (memory : Memory) (dst src : Word) (n : Nat) : Memory := fun address =>
  if (span dst n).Holds address then memory (src + (address - dst)) else memory address

variable {memory : Memory} {dst src : Word} {n : Nat}

theorem copyUp_succ (n : Nat) (memory : Memory) (dst src : Word) :
    copyUp (n + 1) memory dst src = update (copyUp n memory dst src)
      (dst + BitVec.ofNat 32 n) (copyUp n memory dst src (src + BitVec.ofNat 32 n)) := by
  induction n generalizing memory dst src with
  | zero =>
      rw [copyUp, copyUp, copyUp]
      simp
  | succ n ih =>
      rw [copyUp, ih, copyUp]
      congr 1
      · bv_omega
      · congr 1
        bv_omega

theorem moved_zero : moved memory dst src 0 = memory := by
  funext address
  refine if_neg ?_
  simp only [span, Region.Holds]
  omega

theorem moved_succ_last (dstFits : dst.toNat + (n + 1) ≤ 2 ^ 32) :
    moved memory dst src (n + 1) =
      update (moved memory dst src n) (dst + BitVec.ofNat 32 n) (memory (src + BitVec.ofNat 32 n)) := by
  funext address
  by_cases last : address = dst + BitVec.ofNat 32 n
  · subst last
    rw [update_self, moved, if_pos]
    · congr 1
      bv_omega
    · simp only [span, Region.Holds]
      bv_omega
  · rw [update_of_ne last, moved, moved]
    have same : (span dst (n + 1)).Holds address ↔ (span dst n).Holds address := by
      simp only [span, Region.Holds]
      bv_omega
    rw [if_congr same rfl rfl]

theorem moved_succ_first (srcFits : src.toNat + (n + 1) ≤ 2 ^ 32) (dstFits : dst.toNat + (n + 1) ≤ 2 ^ 32)
    (below : src.toNat < dst.toNat) :
    moved memory dst src (n + 1) = moved (update memory (dst + BitVec.ofNat 32 n)
      (memory (src + BitVec.ofNat 32 n))) dst src n := by
  rw [moved_succ_last dstFits]
  funext address
  by_cases last : address = dst + BitVec.ofNat 32 n
  · subst last
    rw [update_self, moved, if_neg, update_self]
    simp only [span, Region.Holds]
    bv_omega
  · rw [update_of_ne last, moved, moved, update_of_ne last]
    split
    · rename_i inside
      simp only [span, Region.Holds] at inside
      rw [update_of_ne]
      bv_omega
    · rfl

theorem copyUp_moved (srcFits : src.toNat + n ≤ 2 ^ 32) (dstFits : dst.toNat + n ≤ 2 ^ 32)
    (safe : ¬(src.toNat < dst.toNat ∧ dst.toNat < src.toNat + n)) :
    copyUp n memory dst src = moved memory dst src n := by
  induction n with
  | zero => rw [moved_zero, copyUp]
  | succ n ih =>
      rw [copyUp_succ, ih (by omega) (by omega) (by omega), moved_succ_last dstFits]
      congr 1
      refine if_neg ?_
      simp only [span, Region.Holds]
      bv_omega

theorem copyDown_moved (srcFits : src.toNat + n ≤ 2 ^ 32) (dstFits : dst.toNat + n ≤ 2 ^ 32)
    (below : src.toNat < dst.toNat) :
    copyDown n memory (dst + BitVec.ofNat 32 n) (src + BitVec.ofNat 32 n) = moved memory dst src n := by
  induction n generalizing memory with
  | zero => rw [moved_zero, copyDown]
  | succ n ih =>
      have left : dst + BitVec.ofNat 32 (n + 1) - 1 = dst + BitVec.ofNat 32 n := by bv_omega
      have right : src + BitVec.ofNat 32 (n + 1) - 1 = src + BitVec.ofNat 32 n := by bv_omega
      rw [copyDown, left, right, ih (by omega) (by omega), moved_succ_first srcFits dstFits below]

theorem kernel_moved {n : Word} (srcFits : src.toNat + n.toNat ≤ 2 ^ 32)
    (dstFits : dst.toNat + n.toNat ≤ 2 ^ 32) :
    Kernel.memmove memory dst src n = moved memory dst src n.toNat := by
  rw [Kernel.memmove]
  split
  · rename_i overlap
    have down : copyDown n.toNat memory _ _ = _ :=
      copyDown_moved srcFits dstFits (BitVec.lt_def.mp overlap.1)
    rwa [BitVec.ofNat_toNat, BitVec.setWidth_eq] at down
  · rename_i upwards
    exact copyUp_moved srcFits dstFits (by bv_omega)

theorem toNat_toInt {n : Word} (nonneg : 0 ≤ n.toInt) : n.toInt.toNat = n.toNat := by
  rw [BitVec.toInt_eq_toNat_cond] at nonneg ⊢
  split at nonneg
  · rename_i small
    rw [if_pos small, Int.toNat_natCast]
  · have := n.isLt
    omega

theorem copyUp_at {index : Nat} (dstFits : dst.toNat + n ≤ 2 ^ 32) (below : index < n) :
    copyUp n memory dst src (dst + BitVec.ofNat 32 index) =
      copyUp index memory dst src (src + BitVec.ofNat 32 index) := by
  induction n with
  | zero => omega
  | succ n ih =>
      rw [copyUp_succ]
      rcases Nat.lt_succ_iff_lt_or_eq.mp below with earlier | rfl
      · rw [update_of_ne (by bv_omega), ih (by omega) earlier]
      · rw [update_self]

/-- With an overlap upwards, the byte where the destination starts is read after it is written. -/
theorem copyUp_overlap (dstFits : dst.toNat + n ≤ 2 ^ 32)
    (overlap : src.toNat < dst.toNat ∧ dst.toNat < src.toNat + n) :
    ∃ memory, copyUp n memory dst src ≠ moved memory dst src n := by
  obtain ⟨gap, distance⟩ : ∃ gap, gap = dst.toNat - src.toNat := ⟨_, rfl⟩
  have reached : src + BitVec.ofNat 32 gap = dst + BitVec.ofNat 32 0 := by bv_omega
  have inside : (span dst n).Holds (dst + BitVec.ofNat 32 gap) := by
    simp only [span, Region.Holds]
    bv_omega
  refine ⟨fun address => if address = src then 1 else 0, fun same => ?_⟩
  have there := congrFun same (dst + BitVec.ofNat 32 gap)
  rw [copyUp_at dstFits (by omega), reached, copyUp_at (by omega) (by omega), copyUp, moved,
    if_pos inside, if_pos (by bv_omega), if_neg (by bv_omega)] at there
  exact absurd there (by decide)

/-- The kernel's `memmove` moves, and the user library's does the same exactly when the destination
does not start inside the source. -/
theorem memmove_agree (dst src n : Word) (nonneg : 0 ≤ n.toInt)
    (srcFits : src.toNat + n.toNat ≤ 2 ^ 32) (dstFits : dst.toNat + n.toNat ≤ 2 ^ 32) :
    (∀ memory, Kernel.memmove memory dst src n = moved memory dst src n.toNat) ∧
      ((∀ memory, Ulib.memmove memory dst src n = moved memory dst src n.toNat) ↔
        ¬(src.toNat < dst.toNat ∧ dst.toNat < src.toNat + n.toNat)) := by
  refine ⟨fun memory => kernel_moved srcFits dstFits, ?_⟩
  simp only [Ulib.memmove, toNat_toInt nonneg]
  constructor
  · intro moves overlap
    obtain ⟨memory, differs⟩ := copyUp_overlap dstFits overlap
    exact differs (moves memory)
  · intro outside memory
    exact copyUp_moved srcFits dstFits outside

def counting : Memory := fun address => address.setWidth 8

theorem memmove_agree_down :
    Ulib.memmove counting 3 5 4 = Kernel.memmove counting 3 5 4 ∧
      Kernel.memmove counting 3 5 4 = moved counting 3 5 4 := by
  obtain ⟨kernel, ulib⟩ := memmove_agree 3 5 4 (by decide) (by decide) (by decide)
  exact ⟨(ulib.mpr (by decide) counting).trans (kernel counting).symm, kernel counting⟩

/-- Two bytes moved up by one: the second byte read is the first one written. -/
theorem ulib_memmove_overlap :
    Kernel.memmove counting 6 5 2 7 = 6 ∧ Ulib.memmove counting 6 5 2 7 = 5 := by
  decide

end OsLabs.Strings
