import OsLabs.Foundation.WordMemory

/-!
How system calls fetch their arguments from user memory. Every fetch keeps the addresses it has
read.
-/

namespace OsLabs.Syscall

open OsLabs.WordMemory

def kernbase : Nat := 0x80000000

structure Proc where
  sz : Word
  esp : Word
  memory : Memory

structure Fetched (α : Type) where
  value : α
  reads : List Word

/-- Fetch the int at `addr`. -/
def fetchint (curproc : Proc) (addr : Word) : Option (Fetched Word) :=
  if addr ≥ curproc.sz ∨ addr + 4 > curproc.sz then none
  else some ⟨read32 curproc.memory addr, [addr, addr + 1, addr + 2, addr + 3]⟩

/-- The loop of `fetchstr`: the first NUL from `s` on and below `ep`. -/
def findNul (memory : Memory) (ep s : Word) : Option (Fetched Word) :=
  if _ : s < ep then
    if memory s = 0 then some ⟨s, [s]⟩
    else (findNul memory ep (s + 1)).map fun later => { later with reads := s :: later.reads }
  else none
termination_by ep.toNat - s.toNat
decreasing_by bv_omega

structure Str where
  pointer : Word
  length : Word

/-- Fetch the string at `addr`. -/
def fetchstr (curproc : Proc) (addr : Word) : Option (Fetched Str) :=
  if addr ≥ curproc.sz then none
  else (findNul curproc.memory curproc.sz addr).map fun nul => ⟨⟨addr, nul.value - addr⟩, nul.reads⟩

/-- Fetch the `n`th argument. -/
def argint (curproc : Proc) (n : Word) : Option (Fetched Word) :=
  fetchint curproc (curproc.esp + 4 + 4 * n)

/-- Fetch the `n`th argument as a pointer to a block of `size` bytes. -/
def argptr (curproc : Proc) (n size : Word) : Option (Fetched Word) := do
  let i ← argint curproc n
  if size.slt 0 ∨ i.value ≥ curproc.sz ∨ i.value + size > curproc.sz then none else some i

/-- Fetch the `n`th argument as a string. -/
def argstr (curproc : Proc) (n : Word) : Option (Fetched Str) := do
  let addr ← argint curproc n
  let str ← fetchstr curproc addr.value
  return { str with reads := addr.reads ++ str.reads }

def Inside (curproc : Proc) (reads : List Word) : Prop := ∀ address ∈ reads, address.toNat < curproc.sz.toNat

variable {curproc : Proc}

theorem fetchint_inside (low : curproc.sz.toNat ≤ kernbase) {addr : Word} {got : Fetched Word}
    (done : fetchint curproc addr = some got) :
    Inside curproc got.reads ∧ addr.toNat + 4 ≤ curproc.sz.toNat ∧ (addr + 4).toNat = addr.toNat + 4 := by
  rw [fetchint] at done
  split at done
  · simp at done
  · rename_i passed
    obtain rfl := Option.some.inj done
    simp only [kernbase] at low
    have bound : addr.toNat + 4 ≤ curproc.sz.toNat := by bv_omega
    refine ⟨?_, bound, by bv_omega⟩
    intro address member
    simp only [List.mem_cons, List.not_mem_nil, or_false] at member
    rcases member with rfl | rfl | rfl | rfl <;> bv_omega

theorem findNul_inside {memory : Memory} {ep s : Word} {got : Fetched Word}
    (done : findNul memory ep s = some got) :
    s.toNat ≤ got.value.toNat ∧ got.value.toNat < ep.toNat ∧ memory got.value = 0 ∧
      (∀ address, s.toNat ≤ address.toNat → address.toNat < got.value.toNat → memory address ≠ 0) ∧
      ∀ address ∈ got.reads, address.toNat < ep.toNat := by
  induction s using findNul.induct memory ep generalizing got with
  | case1 s below found =>
      rw [findNul, dif_pos below, if_pos found] at done
      obtain rfl := Option.some.inj done
      refine ⟨le_rfl, BitVec.lt_def.mp below, found, ?_, ?_⟩
      · intro address after before
        exact absurd (Nat.lt_of_le_of_lt after before) (Nat.lt_irrefl _)
      · intro address member
        rw [List.mem_singleton.mp member]
        exact BitVec.lt_def.mp below
  | case2 s below other ih =>
      rw [findNul, dif_pos below, if_neg other] at done
      obtain ⟨later, found, rfl⟩ := Option.map_eq_some_iff.mp done
      obtain ⟨after, inside, zero, nonzero, reads⟩ := ih found
      have next : (s + 1).toNat = s.toNat + 1 := by bv_omega
      refine ⟨by simp only; omega, inside, zero, ?_, ?_⟩
      · intro address from_s before
        by_cases first : address = s
        · rw [first]
          exact other
        · exact nonzero address (by bv_omega) before
      · intro address member
        rcases List.mem_cons.mp member with rfl | member
        · exact BitVec.lt_def.mp below
        · exact reads address member
  | case3 s beyond =>
      rw [findNul, dif_neg beyond] at done
      simp at done

theorem argint_inside (low : curproc.sz.toNat ≤ kernbase) {n : Word} {got : Fetched Word}
    (done : argint curproc n = some got) : Inside curproc got.reads := (fetchint_inside low done).1

theorem argptr_inside (low : curproc.sz.toNat ≤ kernbase) {n size : Word} {got : Fetched Word}
    (done : argptr curproc n size = some got) :
    Inside curproc got.reads ∧ got.value.toNat + size.toNat ≤ curproc.sz.toNat ∧
      (got.value + size).toNat = got.value.toNat + size.toNat := by
  obtain ⟨i, fetched, checks⟩ := Option.bind_eq_some_iff.mp done
  split at checks
  · simp at checks
  · rename_i passed
    obtain rfl := Option.some.inj checks
    simp only [not_or] at passed
    obtain ⟨nonneg, start, last⟩ := passed
    have positive : size.toNat < 2 ^ 31 := by
      have signed : 0 ≤ size.toInt := by simpa [BitVec.slt] using nonneg
      rw [BitVec.toInt_eq_toNat_cond] at signed
      split at signed <;> omega
    simp only [kernbase] at low
    have exactly : (i.value + size).toNat = i.value.toNat + size.toNat := by bv_omega
    refine ⟨argint_inside low fetched, ?_, exactly⟩
    rw [← exactly]
    bv_omega

def Str.Terminated (curproc : Proc) (str : Str) : Prop :=
  str.pointer.toNat + str.length.toNat < curproc.sz.toNat ∧
    curproc.memory (str.pointer + str.length) = 0 ∧
    ∀ address, str.pointer.toNat ≤ address.toNat → address.toNat < str.pointer.toNat + str.length.toNat →
      curproc.memory address ≠ 0

theorem fetchstr_inside {addr : Word} {got : Fetched Str} (done : fetchstr curproc addr = some got) :
    Inside curproc got.reads ∧ got.value.pointer = addr ∧ got.value.Terminated curproc := by
  rw [fetchstr] at done
  split at done
  · simp at done
  · obtain ⟨nul, found, rfl⟩ := Option.map_eq_some_iff.mp done
    obtain ⟨after, inside, zero, nonzero, reads⟩ := findNul_inside found
    have length : (nul.value - addr).toNat = nul.value.toNat - addr.toNat := by bv_omega
    refine ⟨reads, rfl, ?_, ?_, ?_⟩
    · simp only [length]
      omega
    · have last : addr + (nul.value - addr) = nul.value := by bv_omega
      rw [last]
      exact zero
    · intro address from_start before
      simp only [length] at before
      exact nonzero address from_start (by simp only at from_start; omega)

theorem argstr_inside (low : curproc.sz.toNat ≤ kernbase) {n : Word} {got : Fetched Str}
    (done : argstr curproc n = some got) :
    Inside curproc got.reads ∧ got.value.Terminated curproc := by
  obtain ⟨addr, fetched, rest⟩ := Option.bind_eq_some_iff.mp done
  obtain ⟨str, string, whole⟩ := Option.bind_eq_some_iff.mp rest
  obtain rfl := Option.some.inj whole
  obtain ⟨reads, -, terminated⟩ := fetchstr_inside string
  refine ⟨?_, terminated⟩
  intro address member
  rcases List.mem_append.mp member with first | second
  · exact argint_inside low fetched address first
  · exact reads address second

/-- The processes that agree on the size, the stack pointer and the memory below the size. -/
structure Alike (curproc other : Proc) : Prop where
  sz : other.sz = curproc.sz
  esp : other.esp = curproc.esp
  memory : ∀ address, address.toNat < curproc.sz.toNat → other.memory address = curproc.memory address

section Alike

variable {other : Proc} (alike : Alike curproc other)

include alike

theorem Alike.fetchint (low : curproc.sz.toNat ≤ kernbase) (addr : Word) :
    fetchint other addr = fetchint curproc addr := by
  rw [Syscall.fetchint, Syscall.fetchint, alike.sz]
  refine ite_congr rfl (fun _ => rfl) fun passed => ?_
  simp only [kernbase] at low
  have bytes := fun address below => alike.memory address below
  rw [read32, read32, bytes addr (by bv_omega), bytes (addr + 1) (by bv_omega), bytes (addr + 2) (by bv_omega),
    bytes (addr + 3) (by bv_omega)]

theorem Alike.findNul (s : Word) :
    findNul other.memory curproc.sz s = findNul curproc.memory curproc.sz s := by
  induction s using findNul.induct curproc.memory curproc.sz with
  | case1 s below found =>
      rw [Syscall.findNul, Syscall.findNul.eq_def curproc.memory _ s, dif_pos below, dif_pos below,
        alike.memory s (BitVec.lt_def.mp below), if_pos found, if_pos found]
  | case2 s below nonzero ih =>
      rw [Syscall.findNul, Syscall.findNul.eq_def curproc.memory _ s, dif_pos below, dif_pos below,
        alike.memory s (BitVec.lt_def.mp below), if_neg nonzero, if_neg nonzero, ih]
  | case3 s beyond =>
      rw [Syscall.findNul, Syscall.findNul.eq_def curproc.memory _ s, dif_neg beyond, dif_neg beyond]

theorem Alike.fetchstr (addr : Word) : fetchstr other addr = fetchstr curproc addr := by
  rw [Syscall.fetchstr, Syscall.fetchstr, alike.sz, alike.findNul]

theorem Alike.argint (low : curproc.sz.toNat ≤ kernbase) (n : Word) : argint other n = argint curproc n := by
  rw [Syscall.argint, Syscall.argint, alike.esp, alike.fetchint low]

theorem Alike.args (low : curproc.sz.toNat ≤ kernbase) (n size : Word) :
    argptr other n size = argptr curproc n size ∧ argstr other n = argstr curproc n := by
  simp only [argptr, argstr, alike.argint low, alike.sz, alike.fetchstr, and_self]

end Alike

/-- Whatever a fetch reads or hands on lies below the size of the process, the sums in its checks do
not wrap, and no memory from there on makes a difference. -/
theorem user_pointers_confined (curproc : Proc) (low : curproc.sz.toNat ≤ kernbase) :
    (∀ addr got, fetchint curproc addr = some got →
      Inside curproc got.reads ∧ (addr + 4).toNat = addr.toNat + 4) ∧
    (∀ n got, argint curproc n = some got → Inside curproc got.reads) ∧
    (∀ n size got, argptr curproc n size = some got →
      Inside curproc got.reads ∧ got.value.toNat + size.toNat ≤ curproc.sz.toNat ∧
        (got.value + size).toNat = got.value.toNat + size.toNat) ∧
    (∀ n got, argstr curproc n = some got → Inside curproc got.reads ∧ got.value.Terminated curproc) ∧
    ∀ other, Alike curproc other → ∀ n size, argint other n = argint curproc n ∧
      argptr other n size = argptr curproc n size ∧ argstr other n = argstr curproc n := by
  refine ⟨?_, fun n got => argint_inside low, fun n size got => argptr_inside low,
    fun n got => argstr_inside low, fun other alike n size => ⟨alike.argint low n, alike.args low n size⟩⟩
  intro addr got done
  obtain ⟨reads, -, exactly⟩ := fetchint_inside low done
  exact ⟨reads, exactly⟩

/-- A process of one page whose first argument points to a string of two bytes. -/
def smallProc : Proc where
  sz := 4096
  esp := 4080
  memory := fun address => if address = 4085 then 8 else if address = 2048 ∨ address = 2049 then 65 else 0

theorem user_pointers_confined_small : smallProc.sz.toNat ≤ kernbase ∧
    ∃ got, argptr smallProc 0 2048 = some got ∧ got.value.toNat + 2048 ≤ 4096 := by
  have low : smallProc.sz.toNat ≤ kernbase := by decide
  obtain ⟨got, done⟩ := Option.isSome_iff_exists.mp (by decide : (argptr smallProc 0 2048).isSome = true)
  exact ⟨low, got, done, ((user_pointers_confined smallProc low).2.2.1 0 2048 got done).2.1⟩

end OsLabs.Syscall
