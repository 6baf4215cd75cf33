import OsLabs.Exec.ExecArgs

/-!
`sys_pgcnt`. It counts entries by their flags; what it counts is a function of the size, since all pages below the
size are there and all but the guard page are for the user, from `exec` on through requests for memory and `fork`.
-/

namespace OsLabs.Exec

open ByteField Holdings Outcomes Vm

variable {k : Kernel} {pool extra : Multiset Frame} {m m' : Mem} {s s' d : Space} {sz guard floor : Nat}

/-- The images that come from `exec` by requests that do not go below the size it set, and by `fork`: the space, the
size and the size that `exec` set. Between the calls the memory may become anything that is sane for the space. -/
inductive Lineage (k : Kernel) : Space → Nat → Nat → Prop
  | exec {pool extra : Multiset Frame} {m m' : Mem} {e e' : Files} {p p' : Proc} {path : List Byte}
      {program : Option (List Byte)} {argv : List (List Byte)} (sane : Sane k pool extra m p.space)
      (unlocked : e.locked = false) (returns : exec k e m p path program argv = .ok (e', m', p', 0)) :
      Lineage k p'.space p'.sz p'.sz
  | sbrk {pool extra : Multiset Frame} {m m' : Mem} {s s' : Space} {sz sz' floor : Nat} {n : BitVec 32} {r : Int}
      (lineage : Lineage k s sz floor) (sane : Sane k pool extra m s) (above : (floor : Int) ≤ sz + n.toInt)
      (returns : k.growproc m s sz n = .ok (m', s', sz', r)) : Lineage k s' sz' floor
  | fork {pool extra : Multiset Frame} {m m' : Mem} {s d : Space} {sz floor : Nat} (lineage : Lineage k s sz floor)
      (sane : Sane k pool extra m s) (returns : k.copyuvm m s sz = .ok (m', some d)) : Lineage k d sz floor

structure Marked (s : Space) (sz guard : Nat) : Prop where
  low : sz < kernbase
  filled : Filled s sz
  above : (guard + 2) * pgsize ≤ sz
  users : ∀ v < userPages, ∀ pte, s.lookup v = some pte → pte.perm.u = decide (v ≠ guard)
  kernel : ∀ v, userPages ≤ v → v < npages → ∀ pte, s.lookup v = some pte → pte.perm.u = false

theorem Image.marked (image : Image s guard) (sane : Sane k pool extra m s) : Marked s ((guard + 2) * pgsize) guard :=
  ⟨image.filled.lt_kernbase sane, image.filled, le_rfl, fun v user pte found => by rw [image.users v user pte found],
    image.kernel⟩

theorem Marked.grown {n r : Int} {sz' : Nat} (marked : Marked s sz guard) (above : ((guard + 2) * pgsize : Nat) ≤ sz + n)
    (grown : Grown k pool extra m s sz n (m', s', sz', r)) : Marked s' sz' guard := by
  have positive : 0 < (guard + 2) * pgsize := Nat.mul_pos (by omega) (by decide)
  cases grown with
  | refused _ _ _ unchanged =>
      refine ⟨marked.low, fun v user => ?_, marked.above, fun v user pte found => ?_, fun v low high pte found => ?_⟩
      · rw [unchanged.lookup v (userPages_lt user)]
        exact marked.filled v user
      · rw [unchanged.lookup v (userPages_lt user)] at found
        exact marked.users v user pte found
      · rw [unchanged.lookup v high] at found
        exact marked.kernel v low high pte found
  | grown _ _ _ size larger grows =>
      have filled := grows.filled marked.filled larger
      refine ⟨filled.lt_kernbase grows.sane, filled, by omega, fun v user pte found => ?_, fun v low high pte found => ?_⟩
      · by_cases new : pages sz ≤ v ∧ v < pages sz'
        · obtain ⟨f, -, fresh, -⟩ := grows.fresh v new.1 new.2
          have order := pages_mono marked.above
          rw [pages_mul] at order
          rw [fresh] at found
          rw [← Option.some.inj found]
          simp only [true_eq_decide_iff]
          omega
        · rw [grows.lookup v (userPages_lt user) new] at found
          exact marked.users v user pte found
      · rw [grows.kept.kernel v low high] at found
        exact marked.kernel v low high pte found
  | shrunk _ _ _ size smaller _ unmaps =>
      refine ⟨smaller.trans marked.low, unmaps.filled marked.filled smaller.le, by omega, fun v user pte found => ?_,
        fun v low high pte found => ?_⟩
      · rw [unmaps.lookup v (userPages_lt user)] at found
        by_cases gone : pages sz' ≤ v ∧ v < pages sz
        · rw [if_pos gone] at found
          exact absurd found nofun
        · rw [if_neg gone] at found
          exact marked.users v user pte found
      · rw [unmaps.kept.kernel v low high] at found
        exact marked.kernel v low high pte found
  | emptied _ _ size positive _ => omega
  | wrapped _ _ size positive _ => omega

theorem Marked.copied (marked : Marked s sz guard) (copying : Copying k m s (pages sz) m' d) : Marked d sz guard := by
  refine ⟨marked.low, copying.filled marked.filled, marked.above, fun v user pte found => ?_, copying.kernel⟩
  have same := copying.view marked.filled user
  rw [view, found, Option.map_some, eq_comm, view, Option.map_eq_some_iff] at same
  obtain ⟨p, there, equal⟩ := same
  rw [← (Page.mk.inj equal).1]
  exact marked.users v user p there

theorem exec_image {m m' : Mem} {e e' : Files} {p p' : Proc} {path : List Byte} {program : Option (List Byte)}
    {argv : List (List Byte)} (sane : Sane k pool extra m p.space) (unlocked : e.locked = false)
    (returns : exec k e m p path program argv = .ok (e', m', p', 0)) :
    ∃ guard, p'.sz = (guard + 2) * pgsize ∧ Image p'.space guard ∧ Sane k pool extra m' p'.space := by
  have spec := exec_ends sane unlocked path program argv
  rw [returns] at spec
  rcases spec with ⟨m₁, same, -⟩ | ⟨m₁, p₁, guard, same, size, image, sane', -⟩
  · simp at same
  · obtain ⟨-, rfl, rfl⟩ : _ ∧ _ ∧ _ := by simpa using same
    exact ⟨guard, size, image, sane'⟩

theorem Lineage.marked (lineage : Lineage k s sz floor) : ∃ guard, floor = (guard + 2) * pgsize ∧ Marked s sz guard := by
  induction lineage with
  | exec sane unlocked returns =>
      obtain ⟨guard, size, image, sane'⟩ := exec_image sane unlocked returns
      refine ⟨guard, size, ?_⟩
      rw [size]
      exact image.marked sane'
  | @sbrk _ _ _ _ _ _ _ _ _ n _ lineage sane above returns ih =>
      obtain ⟨guard, rfl, marked⟩ := ih
      have spec := growproc_spec sane marked.filled n
      rw [returns] at spec
      exact ⟨guard, rfl, marked.grown above spec⟩
  | fork lineage sane returns ih =>
      obtain ⟨guard, rfl, marked⟩ := ih
      have spec := copyuvm_spec sane marked.filled
      rw [returns] at spec
      rcases spec with ⟨d, same, copying⟩ | ⟨none, -⟩
      · obtain rfl := Option.some.inj same
        exact ⟨guard, rfl, marked.copied copying⟩
      · exact absurd none (by simp)

theorem Marked.userAt_isSome (marked : Marked s sz guard) {v : Nat} (inside : v < npages) :
    (s.userAt v).isSome ↔ v < pages sz ∧ v ≠ guard := by
  have few := pages_le_userPages marked.low.le
  by_cases user : v < userPages
  · cases found : s.lookup v with
    | none =>
        have absent := (marked.filled v user).not.mp (by rw [found]; simp)
        rw [Space.userAt, found]
        exact iff_of_false (by simp) fun both => absent both.1
    | some pte =>
        have present := (marked.filled v user).mp (by rw [found]; rfl)
        rw [Space.userAt, found, Option.bind_some, marked.users v user pte found]
        by_cases hidden : v = guard
        · simp [hidden]
        · simp [hidden, present]
  · refine iff_of_false (fun some => ?_) fun both => by omega
    obtain ⟨f, shown⟩ := Option.isSome_iff_exists.mp some
    obtain ⟨pte, found, accessible, -⟩ := userAt_eq_some.mp shown
    rw [marked.kernel v (by omega) inside pte found] at accessible
    exact Bool.false_ne_true accessible

def flagged (s : Space) (place : Index × Index) : Bool :=
  (s.table place.1).any fun t => (t.pte place.2).any (·.perm.u)

theorem sysPgcnt_eq_card (s : Space) : sysPgcnt s = (Finset.univ.filter fun place => flagged s place).card := by
  rw [Finset.card_filter, ← Finset.univ_product_univ, Finset.sum_product, sysPgcnt, ← Fin.sum_univ_def]
  refine Finset.sum_congr rfl fun i _ => ?_
  cases table : s.table i with
  | none => simp [flagged, table]
  | some t =>
      rw [Option.elim_some, Table.count, ← Fin.sum_univ_def]
      refine Finset.sum_congr rfl fun j _ => ?_
      rw [flagged, table, Option.any_some]

theorem flagged_iff (s : Space) (v : Nat) : flagged s (pdx v, ptx v) = (s.userAt v).isSome := by
  rw [flagged, Space.userAt, Space.lookup]
  cases table : s.table (pdx v) with
  | none => simp
  | some t =>
      cases entry : t.pte (ptx v) with
      | none => simp [entry]
      | some pte => cases user : pte.perm.u <;> simp [entry, user]

theorem exists_page (place : Index × Index) : ∃ v < npages, (pdx v, ptx v) = place := by
  obtain ⟨⟨i, first⟩, ⟨j, second⟩⟩ := place
  have row : i < 1024 := first
  have column : j < 1024 := second
  refine ⟨i * nentries + j, ?_, ?_⟩
  · simp only [npages, nentries]
    omega
  · refine Prod.ext (Fin.ext ?_) (Fin.ext ?_)
    · simp only [pdx, nentries]
      omega
    · simp only [ptx, nentries]
      omega

theorem Marked.pgcnt (marked : Marked s sz guard) : sysPgcnt s = pages sz - 1 := by
  have few := pages_le_userPages marked.low.le
  have order := pages_mono marked.above
  rw [pages_mul] at order
  have counted : (Finset.univ.filter fun place => flagged s place) =
      ((Finset.range (pages sz)).erase guard).image fun v => (pdx v, ptx v) := by
    ext place
    obtain ⟨v, inside, rfl⟩ := exists_page place
    rw [Finset.mem_filter_univ, Finset.mem_image, flagged_iff, marked.userAt_isSome inside]
    refine ⟨fun both => ⟨v, ?_, rfl⟩, ?_⟩
    · exact Finset.mem_erase.mpr ⟨both.2, Finset.mem_range.mpr both.1⟩
    · rintro ⟨w, member, same⟩
      obtain ⟨differs, below⟩ := Finset.mem_erase.mp member
      have bound := Finset.mem_range.mp below
      have user : w < userPages := by omega
      have equal : w = v := page_ext (userPages_lt user) inside (Prod.mk.inj same).1 (Prod.mk.inj same).2
      rw [← equal]
      exact ⟨bound, differs⟩
  rw [sysPgcnt_eq_card, counted, Finset.card_image_of_injOn, Finset.card_erase_of_mem, Finset.card_range]
  · exact Finset.mem_range.mpr (by omega)
  · intro v first w second same
    have low := Finset.mem_range.mp (Finset.mem_of_mem_erase (Finset.mem_coe.mp first))
    have high := Finset.mem_range.mp (Finset.mem_of_mem_erase (Finset.mem_coe.mp second))
    exact page_ext (userPages_lt (by omega)) (userPages_lt (by omega)) (Prod.mk.inj same).1 (Prod.mk.inj same).2

/-- `sys_pgcnt` counts all pages of the image but one, the guard page that `exec` made, and no page of the kernel. -/
theorem pgcnt_exact (lineage : Lineage k s sz floor) :
    sysPgcnt s = pages sz - 1 ∧
      ∃ guard, floor = (guard + 2) * pgsize ∧ guard < pages sz ∧
        ∀ v < npages, (s.userAt v).isSome ↔ v < pages sz ∧ v ≠ guard := by
  obtain ⟨guard, size, marked⟩ := lineage.marked
  have order := pages_mono marked.above
  rw [pages_mul] at order
  exact ⟨marked.pgcnt, guard, size, by omega, fun v inside => marked.userAt_isSome inside⟩

def stocked (first : Nat) : Mem := ⟨List.range' first 1000, [], fun _ _ => 1⟩

theorem stocked_sane {m : Mem} {first : Nat} (sane : Sane k pool extra m s) (low : k.first ≤ first)
    (high : first + 1000 ≤ phystop / pgsize) (apart : ∀ f ∈ s.frames, f < first) :
    Sane k (↑(stocked first).free + s.frames) 0 (stocked first) s := by
  have frames : s.frames ≤ pool := by
    rw [← sane.total]
    exact Multiset.le_add_left _ _
  refine ⟨by rw [add_zero], ?_, fun f inside => ?_⟩
  · refine Multiset.nodup_add.mpr ⟨Multiset.coe_nodup.mpr List.nodup_range', Multiset.nodup_of_le frames sane.nodup,
      Multiset.disjoint_left.mpr fun free inside => ?_⟩
    exact absurd (apart _ inside) (not_lt.mpr (List.mem_range'_1.mp (Multiset.mem_coe.mp free)).1)
  · rcases Multiset.mem_add.mp inside with free | held
    · obtain ⟨above, below⟩ := List.mem_range'_1.mp (Multiset.mem_coe.mp free)
      exact ⟨low.trans above, below.trans_le high⟩
    · exact sane.valid f (Multiset.mem_of_le frames held)

theorem stocked_frames {m : Mem} {first : Nat} {s₀ : Space} (sane : Sane k (↑(stocked first).free + s₀.frames) 0 m s)
    (apart : ∀ f ∈ s₀.frames, f < first) {f : Frame} (inside : f ∈ s.frames) : f < first + 1000 := by
  rcases Multiset.mem_add.mp (sane.mem_frames inside) with free | held
  · exact (List.mem_range'_1.mp (Multiset.mem_coe.mp free)).2
  · exact Nat.lt_add_right 1000 (apart f held)

/-- The program starts, asks for a page with `sbrk` and forks: the child has the page that it asked for and the stack. -/
theorem pgcnt_exact_echo : ∃ m' p' m₁ s₁ m₂ d,
    exec smallKernel ⟨0, 0, false⟩ plenty ⟨onePage, 4096, 0, 4096, []⟩ [101] (some emptyProgram) [[101], [104, 105]] =
        .ok (⟨0, 0, false⟩, m', p', 0) ∧
      smallKernel.growproc (stocked 2000) p'.space p'.sz 4096 = .ok (m₁, s₁, 3 * pgsize, 0) ∧
      smallKernel.copyuvm (stocked 4000) s₁ (3 * pgsize) = .ok (m₂, some d) ∧ sysPgcnt d = 2 := by
  obtain ⟨m', ⟨s, sz, eip, esp, name⟩, returns, size⟩ := emptyProgram_runs
  obtain rfl : sz = 2 * pgsize := size
  have started : Lineage smallKernel s (2 * pgsize) (2 * pgsize) :=
    .exec (p := ⟨onePage, 4096, 0, 4096, []⟩) plenty_sane rfl returns
  obtain ⟨-, -, -, sane⟩ := exec_image (p := ⟨onePage, 4096, 0, 4096, []⟩) plenty_sane rfl returns
  have apart (f : Frame) (inside : f ∈ s.frames) : f < 2000 := by
    rcases Multiset.mem_add.mp (sane.mem_frames inside) with free | held
    · exact (List.mem_range'_1.mp (Multiset.mem_coe.mp free)).2.trans (by decide)
    · simp only [Multiset.insert_eq_cons, Multiset.mem_cons, Multiset.mem_singleton] at held
      rcases held with rfl | rfl | rfl <;> decide
  have stock₁ : Sane smallKernel _ 0 (stocked 2000) s := stocked_sane sane (by decide) (by decide) apart
  obtain ⟨guard, -, marked⟩ := started.marked
  obtain ⟨m₁, s₁, grown, sane₁⟩ := growproc_lucky (n := 4096) stock₁ marked.filled (by decide) (by decide) rfl
    (by rw [stocked, List.length_range']; decide)
  rw [show 2 * pgsize + (4096 : BitVec 32).toNat = 3 * pgsize by decide] at grown
  have larger := started.sbrk stock₁ (by decide) grown
  obtain ⟨guard₁, -, marked₁⟩ := larger.marked
  have stock₂ : Sane smallKernel _ 0 (stocked 4000) s₁ := stocked_sane sane₁ (by decide) (by decide) fun f inside =>
    (stocked_frames sane₁ apart inside).trans (by decide)
  obtain ⟨m₂, d, forked⟩ := copyuvm_lucky stock₂ marked₁.filled rfl (by rw [stocked, List.length_range']; decide)
  refine ⟨m', _, m₁, s₁, m₂, d, returns, grown, forked, ?_⟩
  rw [(pgcnt_exact (larger.fork stock₂ forked)).1]
  decide

end OsLabs.Exec
