import OsLabs.Vm.VmGrow

/-!
`copyuvm`. The new space is built out of the pages that were free, so nothing that is written to it can reach the
space that is copied.
-/

namespace OsLabs.Vm

open Function ByteField Holdings Outcomes

variable {k : Kernel} {pool extra : Multiset Frame} {m m' m₀ : Mem} {s d d' : Space} {sz vpn : Nat}

structure Copying (k : Kernel) (m₀ : Mem) (s : Space) (vpn : Nat) (m : Mem) (d : Space) : Prop where
  sane : Sane k ↑m₀.free 0 m d
  done : ∀ v < vpn, view m d v = view m₀ s v
  rest : ∀ v, vpn ≤ v → v < userPages → d.lookup v = none
  kernel : ∀ v, userPages ≤ v → v < npages → ∀ pte, d.lookup v = some pte → pte.perm.u = false
  data : ∀ f, f ∉ m₀.free → m.data f = m₀.data f

theorem Copying.start (setUp : SetUp k m₀ m d) : Copying k m₀ s 0 m d :=
  ⟨setUp.sane, fun v below => absurd below (Nat.not_lt_zero v), fun _ _ user => setUp.absent user, setUp.kernel,
    fun _ _ => by rw [setUp.data]⟩

theorem view_congr {v : Nat} (lookup : d'.lookup v = d.lookup v)
    (data : ∀ pte, d.lookup v = some pte → m'.data pte.frame = m.data pte.frame) : view m' d' v = view m d v := by
  rw [view, view, lookup]
  cases found : d.lookup v with
  | none => rfl
  | some pte => rw [Option.map_some, Option.map_some, data pte found]

theorem Copying.next {mem : Frame} {pte : Pte} (copying : Copying k m₀ s vpn m d) (user : vpn < userPages)
    (found : s.lookup vpn = some pte) (used : pte.frame ∉ m₀.free) (taken : mem ∈ m.free)
    (sane : Sane k ↑m₀.free 0 m' d') (kept : Kept d d')
    (lookup : ∀ v < npages, d'.lookup v = if v = vpn then some ⟨mem, pte.perm⟩ else d.lookup v)
    (data : m'.data = update m.data mem (m.data pte.frame)) : Copying k m₀ s (vpn + 1) m' d' := by
  have others {f : Frame} (differs : f ≠ mem) : m'.data f = m.data f := by
    rw [data, update_of_ne differs]
  have held : mem ∈ m₀.free := copying.sane.mem_free taken
  refine ⟨sane, fun v below => ?_, fun v above low => ?_, fun v low high p there => ?_, fun f outside => ?_⟩
  · by_cases here : v = vpn
    · subst here
      rw [view, view, lookup v (userPages_lt user), if_pos rfl, found, Option.map_some, Option.map_some, data,
        update_self, copying.data pte.frame used]
    · have earlier : v < userPages := by omega
      rw [← copying.done v (by omega)]
      refine view_congr (by rw [lookup v (userPages_lt earlier), if_neg here]) fun p there => others ?_
      rintro rfl
      exact copying.sane.not_free (Sane.frame_mem earlier there) taken
  · rw [lookup v (userPages_lt low), if_neg (by omega), copying.rest v (by omega) low]
  · rw [kept.kernel v low high] at there
    exact copying.kernel v low high p there
  · rw [others, copying.data f outside]
    rintro rfl
    exact outside held

def CopyEnds (k : Kernel) (m₀ : Mem) (s : Space) (last : Nat) (m : Mem) (need : Nat) (r : Mem × Option Space) :
    Prop :=
  (∃ d, r.2 = some d ∧ Copying k m₀ s last r.1 d) ∨
    r.2 = none ∧ Released m₀ r.1 ∧ (m.luck = [] → m.free.length < need)

theorem CopyEnds.later {last need need' : Nat} {r : Mem × Option Space} (ends : CopyEnds k m₀ s last m need r)
    (luck : m'.luck = [] → m.luck = []) (less : m'.free.length + need ≤ m.free.length + need') :
    CopyEnds k m₀ s last m' need' r := by
  rcases ends with copied | ⟨failed, released, short⟩
  · exact Or.inl copied
  · refine Or.inr ⟨failed, released, fun lucky => ?_⟩
    have few := short (luck lucky)
    omega

theorem copyLoop_spec (count : Nat) (copying : Copying k m₀ s vpn m d) (user : vpn + count ≤ userPages)
    (present : ∀ v, vpn ≤ v → v < vpn + count → ∃ pte, s.lookup v = some pte ∧ pte.frame ∉ m₀.free) :
    Meets (fun _ => False) (CopyEnds k m₀ s (vpn + count) m (2 * count)) (k.copyLoop s count vpn m d) := by
  induction count generalizing vpn m d with
  | zero => exact Or.inl ⟨d, rfl, copying⟩
  | succ count ih =>
      have users : vpn < userPages := by omega
      obtain ⟨pte, found, used⟩ := present vpn le_rfl (by omega)
      obtain ⟨t, table⟩ := Option.isSome_iff_exists.mp (table_of_lookup found)
      have entry : t.pte (ptx vpn) = some pte := by rw [← lookup_eq table, found]
      rw [Kernel.copyLoop, table]
      dsimp only
      rw [entry]
      dsimp only
      rcases kalloc_cases m with ⟨luck, lucky, result⟩ | ⟨mem, free, luck, first, lucky, result⟩
      · have same : Sane k ↑m₀.free 0 { m with luck := luck } d := copying.sane.of_free rfl
        rw [result]
        refine (freevm_released same copying.data).bind fun m' released => Or.inr ⟨rfl, released, fun none => ?_⟩
        rw [(lucky none).2, List.length_nil]
        omega
      · have taken : mem ∈ m.free := first ▸ List.mem_cons_self
        have sane : Sane k ↑m₀.free {mem} (Mem.copyPage { m with free := free, luck := luck } mem pte.frame) d :=
          (copying.sane.kalloc first luck).of_free rfl
        have length : m.free.length = free.length + 1 := by rw [first, List.length_cons]
        rw [result]
        dsimp only
        refine (mappages_user sane users (copying.rest vpn le_rfl users) pte.perm).bind ?_
        rintro ⟨m', d', done⟩ maps
        cases done with
        | true =>
            obtain ⟨sane', lookup⟩ := maps.done rfl
            have next : Copying k m₀ s (vpn + 1) m' d' :=
              copying.next users found used taken sane' maps.kept lookup maps.data
            have all := ih next (by omega) fun v low high => present v (by omega) (by omega)
            rw [show vpn + 1 + count = vpn + (count + 1) by omega] at all
            have few : free.length ≤ m'.free.length + 1 := maps.few
            exact all.imp fun r ends => ends.later (fun full => (maps.luck (lucky full)).1) (by omega)
        | false =>
            obtain ⟨rfl, held⟩ := maps.failed rfl
            obtain ⟨freed, sane'⟩ := Sane.kfree (show Sane k ↑m₀.free (mem ::ₘ 0) m' d' from held)
            rw [if_neg Bool.false_ne_true, freed, ok_bind]
            have short (full : m.luck = []) : m.free.length < 2 * (count + 1) := by
              have none : free = [] := (maps.luck (lucky full)).2 rfl
              rw [length, none, List.length_nil]
              omega
            refine (freevm_released sane' fun f outside => ?_).bind fun m'' released => Or.inr ⟨rfl, released, short⟩
            have differs : f ≠ mem := by
              rintro rfl
              exact outside (copying.sane.mem_free taken)
            calc update m'.data mem (fun _ => 1) f
                = m'.data f := update_of_ne differs _ _
              _ = update m.data mem (m.data pte.frame) f := by rw [maps.data]; rfl
              _ = m.data f := update_of_ne differs _ _
              _ = m₀.data f := copying.data f outside

theorem copyuvm_spec (sane : Sane k pool extra m s) (filled : Filled s sz) :
    Meets (fun _ => False) (CopyEnds k m s (pages sz) m (userEntries + 2 + 2 * pages sz)) (k.copyuvm m s sz) := by
  have nodup := sane.nodup
  rw [← sane.total, Multiset.nodup_add, Multiset.nodup_add] at nodup
  have low := pages_le_userPages (filled.lt_kernbase sane).le
  rw [Kernel.copyuvm]
  refine (setupkvm_spec (Multiset.coe_nodup.mp nodup.1.1) fun f free => sane.valid f (sane.mem_free free)).bind ?_
  rintro ⟨m', -⟩ (⟨d, rfl, setUp⟩ | ⟨rfl, released, few⟩)
  · have all := copyLoop_spec (s := s) (pages sz) (Copying.start setUp) (by omega) fun v _ below => ?_
    · rw [Nat.zero_add] at all
      have left := setUp.length_free
      exact all.imp fun r ends => ends.later setUp.luck (by omega)
    · have user : v < userPages := by omega
      obtain ⟨pte, found⟩ := Option.isSome_iff_exists.mp ((filled v user).mpr (by omega))
      exact ⟨pte, found, sane.not_free (Sane.frame_mem user found)⟩
  · exact Or.inr ⟨rfl, released, fun full => by have less := few full; omega⟩

theorem copyuvm_lucky (sane : Sane k pool extra m s) (filled : Filled s sz) (luck : m.luck = [])
    (enough : userEntries + 2 + 2 * pages sz ≤ m.free.length) : ∃ m' d, k.copyuvm m s sz = .ok (m', some d) := by
  obtain ⟨⟨m', -⟩, returns, ⟨d, rfl, -⟩ | ⟨-, -, short⟩⟩ := (copyuvm_spec sane filled).returns
  · exact ⟨m', d, returns⟩
  · have few := short luck
    omega

theorem Copying.view (copying : Copying k m₀ s (pages sz) m d) (filled : Filled s sz) {v : Nat} (user : v < userPages) :
    Vm.view m d v = Vm.view m₀ s v := by
  by_cases below : v < pages sz
  · exact copying.done v below
  · rw [Vm.view, Vm.view, copying.rest v (by omega) user, filled.absent (by omega) user]
    rfl

theorem Copying.filled (copying : Copying k m₀ s (pages sz) m d) (filled : Filled s sz) : Filled d sz := by
  intro v user
  have same := congrArg Option.isSome (copying.view filled user)
  rw [Vm.view, Vm.view, Option.isSome_map, Option.isSome_map] at same
  rw [same, filled v user]

theorem Copying.fresh (copying : Copying k m₀ s vpn m d) {f : Frame} (inside : f ∈ d.frames) : f ∈ m₀.free :=
  Multiset.mem_coe.mp (copying.sane.mem_frames inside)

/-- `copyuvm` copies the address space, or gives back what it took. -/
theorem copyuvm_copies (sane : Sane k pool extra m s) (filled : Filled s sz) :
    (∃ m' d, k.copyuvm m s sz = .ok (m', some d) ∧ Filled d sz ∧ (∀ v < userPages, view m' d v = view m s v) ∧
        (∀ v < userPages, ∀ p, d.lookup v = some p → p.frame ∈ m.free ∧ p.frame ∉ m'.free) ∧
        (∀ v w, v < userPages → w < userPages → ∀ p q, d.lookup v = some p → d.lookup w = some q →
          p.frame = q.frame → v = w) ∧
        (∀ f ∈ s.frames, m'.data f = m.data f)) ∨
      ∃ m', k.copyuvm m s sz = .ok (m', none) ∧ m'.free.Perm m.free := by
  obtain ⟨⟨m', d⟩, returns, ends⟩ := (copyuvm_spec sane filled).returns
  rcases ends with ⟨d, rfl, copying⟩ | ⟨rfl, released, -⟩
  · refine Or.inl ⟨m', d, returns, copying.filled filled, fun v user => copying.view filled user,
      fun v user p found => ?_, fun v w first second p q here there same => ?_, fun f inside => ?_⟩
    · have inside := Sane.frame_mem user found
      exact ⟨copying.fresh inside, copying.sane.not_free inside⟩
    · exact copying.sane.page_inj first second here there same
    · exact copying.data f (sane.not_free inside)
  · exact Or.inr ⟨m', returns, released.free⟩

theorem copyuvm_copies_onePage :
    (onePage.lookup 0).isSome ∧
      ((∃ m' d, smallKernel.copyuvm plenty onePage 4096 = .ok (m', some d) ∧ Filled d 4096 ∧
          (∀ v < userPages, view m' d v = view plenty onePage v) ∧
          (∀ v < userPages, ∀ p, d.lookup v = some p → p.frame ∈ plenty.free ∧ p.frame ∉ m'.free) ∧
          (∀ v w, v < userPages → w < userPages → ∀ p q, d.lookup v = some p → d.lookup w = some q →
            p.frame = q.frame → v = w) ∧
          (∀ f ∈ onePage.frames, m'.data f = plenty.data f)) ∨
        ∃ m', smallKernel.copyuvm plenty onePage 4096 = .ok (m', none) ∧ m'.free.Perm plenty.free) :=
  ⟨rfl, copyuvm_copies plenty_sane onePage_filled⟩

end OsLabs.Vm
