import OsLabs.Vm.VmSetup

/-!
`growproc`, behind `sbrk`. A request that would bring the size to 0 or below is where it goes wrong: `deallocuvm`
returns the new size, which is then taken for an error, and the sum wraps around.
-/

namespace OsLabs.Vm

open ByteField Holdings Outcomes

variable {k : Kernel} {pool extra : Multiset Frame} {m m' : Mem} {s s' : Space} {sz : Nat}

def Filled (s : Space) (sz : Nat) : Prop := ∀ v < userPages, (s.lookup v).isSome ↔ v < pages sz

theorem Filled.absent (filled : Filled s sz) {v : Nat} (above : pages sz ≤ v) (user : v < userPages) :
    s.lookup v = none := by
  rw [← Option.not_isSome_iff_eq_none, filled v user]
  omega

theorem Filled.lt_kernbase (filled : Filled s sz) (sane : Sane k pool extra m s) : sz < kernbase := by
  by_contra large
  have whole : userPages ≤ pages sz := by
    simp only [userPages, pages, kernbase, pgsize] at *
    omega
  have present (v : Nat) (user : v < userPages) : ∃ pte, s.lookup v = some pte :=
    Option.isSome_iff_exists.mp ((filled v user).mpr (by omega))
  have few : (Finset.range userPages).card ≤ (Finset.range (phystop / pgsize)).card := by
    refine Finset.card_le_card_of_injOn (fun v => ((s.lookup v).map Pte.frame).getD 0) (fun v inside => ?_) ?_
    · obtain ⟨pte, found⟩ := present v (Finset.mem_range.mp inside)
      have valid := sane.valid _ (sane.mem_frames (Sane.frame_mem (Finset.mem_range.mp inside) found))
      simp only [found, Option.map_some, Option.getD_some]
      exact Finset.mem_coe.mpr (Finset.mem_range.mpr valid.2)
    · intro v first w second same
      obtain ⟨p, here⟩ := present v (Finset.mem_range.mp first)
      obtain ⟨q, there⟩ := present w (Finset.mem_range.mp second)
      simp only [here, there, Option.map_some, Option.getD_some] at same
      exact sane.page_inj (Finset.mem_range.mp first) (Finset.mem_range.mp second) here there same
  rw [Finset.card_range, Finset.card_range] at few
  exact absurd few (by decide)

theorem Grows.filled {newsz : Nat} {result : Mem × Space} (filled : Filled s sz) (larger : sz ≤ newsz)
    (grows : Grows k pool extra m s (pages sz) (pages newsz) result) : Filled result.2 newsz := by
  have order := pages_mono larger
  intro v user
  by_cases new : pages sz ≤ v ∧ v < pages newsz
  · obtain ⟨f, -, found, -⟩ := grows.fresh v new.1 new.2
    rw [found]
    exact iff_of_true rfl new.2
  · rw [grows.lookup v (userPages_lt user) new, filled v user]
    omega

theorem Unmaps.filled {newsz : Nat} {result : Mem × Space} (filled : Filled s sz) (smaller : newsz ≤ sz)
    (unmaps : Unmaps k pool extra m s (pages newsz) (pages sz) result) : Filled result.2 newsz := by
  have order := pages_mono smaller
  intro v user
  rw [unmaps.lookup v (userPages_lt user)]
  by_cases gone : pages newsz ≤ v ∧ v < pages sz
  · rw [if_pos gone]
    exact iff_of_false (by simp) (by omega)
  · rw [if_neg gone, filled v user]
    omega

theorem Unchanged.view {result : Mem × Space} (unchanged : Unchanged k pool extra m s result)
    (sane : Sane k pool extra m s) {v : Nat} (user : v < userPages) :
    view result.1 result.2 v = Vm.view m s v := by
  rw [Vm.view, Vm.view, unchanged.lookup v (userPages_lt user)]
  cases found : s.lookup v with
  | none => rfl
  | some pte =>
      rw [Option.map_some, Option.map_some, unchanged.data]
      exact sane.not_free (Sane.frame_mem user found)

inductive Grown (k : Kernel) (pool extra : Multiset Frame) (m : Mem) (s : Space) (sz : Nat) (n : Int) :
    Mem × Space × Nat × Int → Prop
  | refused (m' : Mem) (s' : Space) (asked : sz = 0 ∨ 0 < sz + n)
      (unchanged : Unchanged k pool extra m s (m', s')) : Grown k pool extra m s sz n (m', s', sz, -1)
  | grown (m' : Mem) (s' : Space) (newsz : Nat) (size : (newsz : Int) = sz + n) (larger : sz ≤ newsz)
      (grows : Grows k pool extra m s (pages sz) (pages newsz) (m', s')) : Grown k pool extra m s sz n (m', s', newsz, 0)
  | shrunk (m' : Mem) (s' : Space) (newsz : Nat) (size : (newsz : Int) = sz + n) (smaller : newsz < sz)
      (positive : 0 < newsz) (unmaps : Unmaps k pool extra m s (pages newsz) (pages sz) (m', s')) :
      Grown k pool extra m s sz n (m', s', newsz, 0)
  | emptied (m' : Mem) (s' : Space) (size : sz + n = 0) (positive : 0 < sz)
      (unmaps : Unmaps k pool extra m s 0 (pages sz) (m', s')) : Grown k pool extra m s sz n (m', s', sz, -1)
  | wrapped (m' : Mem) (s' : Space) (size : sz + n < 0) (positive : 0 < sz)
      (unchanged : Unchanged k pool extra m s (m', s')) : Grown k pool extra m s sz n (m', s', sz, 0)

theorem Unmaps.unchanged {first last : Nat} {result : Mem × Space} (order : last ≤ first)
    (unmaps : Unmaps k pool extra m s first last result) : Unchanged k pool extra m s result :=
  ⟨unmaps.sane, unmaps.kept, fun v inside => by rw [unmaps.lookup v inside, if_neg (by omega)],
    fun f _ => unmaps.data f fun v low high => by omega⟩

theorem growproc_spec (sane : Sane k pool extra m s) (filled : Filled s sz) (n : BitVec 32) :
    Meets (fun _ => False) (Grown k pool extra m s sz n.toInt) (k.growproc m s sz n) := by
  have low := filled.lt_kernbase sane
  have bound := n.isLt
  have sign := n.toInt_eq_toNat_cond
  rw [Kernel.growproc]
  dsimp only
  by_cases more : 0 < n.toInt
  · have sum : (sz + n.toNat) % uintRange = sz + n.toNat := by
      simp only [kernbase, uintRange] at *
      omega
    have positive : sz + n.toNat ≠ 0 := by omega
    have size : ((sz + n.toNat : Nat) : Int) = sz + n.toInt := by omega
    rw [if_pos more, sum]
    refine (allocuvm_spec sane fun v above user => filled.absent above user).bind ?_
    rintro ⟨m', s', -⟩ (⟨rfl, -, larger, grows⟩ | ⟨-, smaller, -⟩ | ⟨rfl, unchanged, -⟩)
    · dsimp only
      rw [if_neg positive]
      exact .grown m' s' _ size larger grows
    · omega
    · exact .refused m' s' (by omega) unchanged
  · rw [if_neg more]
    by_cases less : n.toInt < 0
    · rw [if_pos less]
      refine (deallocuvm_spec (pages_le_userPages low.le) sane).bind ?_
      rintro ⟨m', s', -⟩ ⟨unmaps, rfl⟩
      dsimp only at unmaps ⊢
      by_cases wraps : sz + n.toInt < 0
      · have sum : sz ≤ (sz + n.toNat) % uintRange := by
          simp only [kernbase, uintRange] at *
          omega
        have unchanged := unmaps.unchanged (pages_mono sum)
        rw [Nat.min_eq_left sum]
        by_cases zero : sz = 0
        · rw [if_pos zero]
          exact .refused m' s' (Or.inl zero) unchanged
        · rw [if_neg zero]
          exact .wrapped m' s' wraps (by omega) unchanged
      · have sum : (((sz + n.toNat) % uintRange : Nat) : Int) = sz + n.toInt := by
          simp only [kernbase, uintRange] at *
          omega
        generalize (sz + n.toNat) % uintRange = newsz at *
        have smaller : newsz < sz := by omega
        rw [Nat.min_eq_right smaller.le]
        by_cases zero : newsz = 0
        · rw [if_pos zero]
          rw [zero] at unmaps
          exact .emptied m' s' (by omega) (by omega) unmaps
        · rw [if_neg zero]
          exact .shrunk m' s' newsz sum smaller (by omega) unmaps
    · rw [if_neg less]
      refine .grown m s sz (by omega) le_rfl ⟨sane, Kept.refl s, fun _ _ _ => rfl, fun v low high => ?_,
        fun _ free => free, fun _ _ => rfl, fun _ _ => rfl, fun lucky => lucky, Nat.le_add_right _ _⟩
      omega

theorem growproc_lucky {n : BitVec 32} (sane : Sane k pool extra m s) (filled : Filled s sz) (more : 0 < n.toInt)
    (low : sz + n.toNat < kernbase) (luck : m.luck = [])
    (enough : 2 * (pages (sz + n.toNat) - pages sz) ≤ m.free.length) :
    ∃ m' s', k.growproc m s sz n = .ok (m', s', sz + n.toNat, 0) ∧ Sane k pool extra m' s' := by
  have sign := n.toInt_eq_toNat_cond
  have positive : sz + n.toNat ≠ 0 := by omega
  have sum : (sz + n.toNat) % uintRange = sz + n.toNat := Nat.mod_eq_of_lt (low.trans (by decide))
  obtain ⟨⟨m', s', size⟩, returns, ⟨rfl, -, -, grows⟩ | ⟨-, smaller, -⟩ | ⟨-, -, short⟩⟩ :=
    (@allocuvm_spec k pool extra m s sz (sz + n.toNat) sane fun v above user => filled.absent above user).returns
  · refine ⟨m', s', ?_, grows.sane⟩
    rw [Kernel.growproc]
    dsimp only
    rw [if_pos more, sum, returns, ok_bind]
    dsimp only
    rw [if_neg positive]
    rfl
  · omega
  · have less := short luck
    omega

/-- `sbrk` is all or nothing exactly for the requests that do not ask for a size of 0 or less. -/
theorem growproc_all_or_nothing (sane : Sane k pool extra m s) (filled : Filled s sz) (n : BitVec 32) :
    ∃ m' s' sz' r, k.growproc m s sz n = .ok (m', s', sz', r) ∧
      (((r = 0 ∧ (sz' : Int) = sz + n.toInt ∧ Filled s' sz') ∨
        (r = -1 ∧ sz' = sz ∧ ∀ v < userPages, view m' s' v = view m s v)) ↔
          sz = 0 ∨ 0 < sz + n.toInt) := by
  obtain ⟨⟨m', s', sz', r⟩, returns, grown⟩ := (growproc_spec sane filled n).returns
  refine ⟨m', s', sz', r, returns, ?_⟩
  cases grown with
  | refused _ _ asked unchanged =>
      exact iff_of_true (Or.inr ⟨rfl, rfl, fun v user => unchanged.view sane user⟩) asked
  | grown _ _ _ size larger grows =>
      exact iff_of_true (Or.inl ⟨rfl, size, grows.filled filled larger⟩) (by omega)
  | shrunk _ _ _ size smaller positive unmaps =>
      exact iff_of_true (Or.inl ⟨rfl, size, unmaps.filled filled smaller.le⟩) (by omega)
  | emptied _ _ size positive unmaps =>
      refine iff_of_false ?_ (by omega)
      rintro (⟨failed, -⟩ | ⟨-, -, same⟩)
      · exact absurd failed (by decide)
      · have some : 0 < pages sz := lt_of_lt_of_le (by decide : 0 < pages 1) (pages_mono positive)
        have mapped := (filled 0 (by decide)).mpr some
        have gone := unmaps.lookup 0 (by decide)
        rw [if_pos ⟨le_rfl, some⟩] at gone
        have seen := congrArg Option.isSome (same 0 (by decide))
        simp only [view, Option.isSome_map, mapped] at seen
        simp [gone] at seen
  | wrapped _ _ size positive unchanged =>
      refine iff_of_false ?_ (by omega)
      rintro (⟨-, asked, -⟩ | ⟨failed, -⟩)
      · omega
      · exact absurd failed (by decide)

section OnePage

def smallKernel : Kernel := ⟨277, 260, by decide, by decide, by decide⟩

def onePage : Space := ((Space.empty 300).addTable (pdx 0) 301).setPte 0 (some ⟨302, ⟨true, true⟩⟩)

def noMemory : Mem := ⟨[], [], fun _ _ => 0⟩

theorem onePage_lookup {v : Nat} (inside : v < npages) :
    onePage.lookup v = if v = 0 then some ⟨302, ⟨true, true⟩⟩ else none := by
  rw [onePage, lookup_setPte (by rw [table_addTable_self]; rfl) inside (by decide), lookup_addTable rfl]
  rfl

theorem onePage_frames : onePage.frames = {302, 301, 300} := by
  rw [onePage, frames_put (by rw [table_addTable_self]; rfl) (by decide) (by rw [lookup_addTable rfl]; rfl),
    frames_addTable rfl, frames_empty]
  rfl

theorem onePage_sane : Sane smallKernel {302, 301, 300} 0 noMemory onePage := by
  refine ⟨by rw [onePage_frames]; rfl, by decide, fun f inside => ?_⟩
  simp only [Multiset.insert_eq_cons, Multiset.mem_cons, Multiset.mem_singleton] at inside
  rcases inside with rfl | rfl | rfl <;> exact ⟨by decide, by decide⟩

def plenty : Mem := ⟨List.range' 310 700, [], fun _ _ => 1⟩

theorem plenty_sane : Sane smallKernel (↑plenty.free + {302, 301, 300}) 0 plenty onePage := by
  refine ⟨by rw [onePage_frames, add_zero], ?_, fun f inside => ?_⟩
  · rw [Multiset.nodup_add]
    refine ⟨Multiset.coe_nodup.mpr List.nodup_range', by decide, Multiset.disjoint_left.mpr fun free inside => ?_⟩
    have low := (List.mem_range'_1.mp (Multiset.mem_coe.mp free)).1
    simp only [Multiset.insert_eq_cons, Multiset.mem_cons, Multiset.mem_singleton] at inside
    rcases inside with rfl | rfl | rfl <;> exact absurd low (by decide)
  · rcases Multiset.mem_add.mp inside with free | held
    · obtain ⟨low, high⟩ := List.mem_range'_1.mp (Multiset.mem_coe.mp free)
      exact ⟨le_trans (by decide) low, lt_of_lt_of_le high (by decide)⟩
    · exact onePage_sane.valid f held

theorem onePage_filled : Filled onePage 4096 := by
  intro v user
  have single : pages 4096 = 1 := by decide
  rw [onePage_lookup (userPages_lt user), single]
  by_cases here : v = 0
  · rw [if_pos here, here]
    decide
  · rw [if_neg here]
    exact iff_of_false (by simp) (by omega)

theorem growproc_all_or_nothing_kept :
    (onePage.lookup 0).isSome ∧ ∃ m' s' sz' r, smallKernel.growproc noMemory onePage 4096 (-4095) = .ok (m', s', sz', r) ∧
      ((r = 0 ∧ (sz' : Int) = 4096 + (-4095 : BitVec 32).toInt ∧ Filled s' sz') ∨
        (r = -1 ∧ sz' = 4096 ∧ ∀ v < userPages, view m' s' v = view noMemory onePage v)) := by
  obtain ⟨m', s', sz', r, returns, exactly⟩ := growproc_all_or_nothing onePage_sane onePage_filled (-4095)
  exact ⟨rfl, m', s', sz', r, returns, exactly.mpr (by decide)⟩

/-- A request to give up the whole memory is refused, and the memory is gone. -/
theorem growproc_to_zero_not_nothing :
    Sane smallKernel {302, 301, 300} 0 noMemory onePage ∧ Filled onePage 4096 ∧
      ∃ m' s', smallKernel.growproc noMemory onePage 4096 (-4096) = .ok (m', s', 4096, -1) ∧
        (onePage.lookup 0).isSome ∧ s'.lookup 0 = none :=
  ⟨onePage_sane, onePage_filled, _, _, rfl, rfl, rfl⟩

/-- A request to give up more than that is granted, and nothing has changed. -/
example : ∃ m' s', smallKernel.growproc noMemory onePage 4096 (-4097) = .ok (m', s', 4096, 0) :=
  ⟨_, _, rfl⟩

end OnePage

end OsLabs.Vm
