import OsLabs.Vm.VmGrow

/-!
`deallocuvm` in the 32-bit arithmetic of the source, against a loop that goes through the pages one by one. The jump
over a missing page table goes to the next multiple of 4 MB, and below `KERNBASE` there is one.
-/

namespace OsLabs.Vm

open Function Outcomes

abbrev Word := BitVec 32

def pgroundup (sz : Word) : Word := (sz + 4096#32 - 1#32) &&& ~~~4095#32

/-- `PDX` and `PTX`. -/
def dirIndex (va : Word) : Word := va >>> 22 &&& 0x3FF#32

def tableIndex (va : Word) : Word := va >>> 12 &&& 0x3FF#32

def pgaddr (d t o : Word) : Word := d <<< 22 ||| t <<< 12 ||| o

theorem index_lt (x : Word) : (x &&& 0x3FF#32).toNat < nentries := by
  rw [BitVec.toNat_and]
  exact lt_of_le_of_lt Nat.and_le_right (by decide)

/-- The entry that `walkpgdir` points to without `alloc`, where there is a page table. -/
def Space.walk (s : Space) (va : Word) : Option (Option Pte) :=
  (s.table ⟨(dirIndex va).toNat, index_lt _⟩).map fun t => t.pte ⟨(tableIndex va).toNat, index_lt _⟩

/-- `*pte = 0`. -/
def Space.clear (s : Space) (va : Word) : Space :=
  { s with table := fun i =>
      if i.val = (dirIndex va).toNat then
        (s.table i).map fun t => { t with pte := fun j => if j.val = (tableIndex va).toNat then none else t.pte j }
      else s.table i }

namespace Kernel

variable (k : Kernel)

/-- The loop of `deallocuvm`. -/
def deallocWords (oldsz : Word) : Nat → Word → Mem → Space → Except Failure (Mem × Space)
  | 0, _, _, _ => .error .fuel
  | fuel + 1, a, m, s =>
      if a < oldsz then
        match s.walk a with
        | none => deallocWords oldsz fuel (pgaddr (dirIndex a + 1#32) 0#32 0#32 - 4096#32 + 4096#32) m s
        | some none => deallocWords oldsz fuel (a + 4096#32) m s
        | some (some pte) =>
            if pte.frame = 0 then .error (.panic "kfree")
            else do
              let m ← m.kfree k pte.frame
              deallocWords oldsz fuel (a + 4096#32) m (s.clear a)
      else pure (m, s)

def deallocuvmWords (fuel : Nat) (m : Mem) (s : Space) (oldsz newsz : Word) : Except Failure (Mem × Space × Word) :=
  if oldsz ≤ newsz then pure (m, s, oldsz)
  else do
    let (m, s) ← k.deallocWords oldsz fuel (pgroundup newsz) m s
    pure (m, s, newsz)

def freePage (start : Mem × Space) (vpn : Nat) : Except Failure (Mem × Space) :=
  match start.2.lookup vpn with
  | none => pure start
  | some pte => do
      let m ← start.1.kfree k pte.frame
      pure (m, start.2.setPte vpn none)

def freePages (first last : Nat) (start : Mem × Space) : Except Failure (Mem × Space) :=
  (List.range' first (last - first)).foldlM k.freePage start

/-- What `kfree` takes. -/
def Takes (frame : Frame) : Prop := k.first ≤ frame ∧ frame < phystop / pgsize

end Kernel

def Space.framesIn (s : Space) (first last : Nat) : List Frame :=
  (List.range' first (last - first)).filterMap fun v => (s.lookup v).map Pte.frame

/-- The pages present in a range were freed, in their order, and their entries cleared, and nothing else changed. -/
structure Cleared (m : Mem) (s : Space) (first last : Nat) (result : Mem × Space) : Prop where
  free : result.1.free = (s.framesIn first last).reverse ++ m.free
  luck : result.1.luck = m.luck
  data : ∀ f, result.1.data f = if f ∈ s.framesIn first last then fun _ => 1 else m.data f
  dir : result.2.dir = s.dir
  tables : ∀ i, (result.2.table i).map Table.page = (s.table i).map Table.page
  lookup : ∀ v < npages, result.2.lookup v = if first ≤ v ∧ v < last then none else s.lookup v

section Words

variable {a oldsz : Word} {s : Space}

theorem toNat_index (x : Word) : (x &&& 0x3FF#32).toNat = x.toNat % nentries := by
  rw [BitVec.toNat_and]
  exact Nat.and_two_pow_sub_one_eq_mod x.toNat 10

theorem toNat_dirIndex (va : Word) : (dirIndex va).toNat = (pdx (va.toNat / pgsize)).val := by
  rw [dirIndex, toNat_index, BitVec.toNat_ushiftRight, Nat.shiftRight_eq_div_pow, pdx_val, Nat.div_div_eq_div_mul]
  rfl

theorem toNat_tableIndex (va : Word) : (tableIndex va).toNat = (ptx (va.toNat / pgsize)).val := by
  rw [tableIndex, toNat_index, BitVec.toNat_ushiftRight, Nat.shiftRight_eq_div_pow]
  rfl

theorem and_page_mask (x : Word) : x &&& ~~~4095#32 = (x >>> 12) <<< 12 := by
  have mask : ∀ i < 32, (~~~4095#32).getLsbD i = decide (12 ≤ i) := by decide
  apply BitVec.eq_of_getLsbD_eq
  intro i bound
  rw [BitVec.getLsbD_and, mask i bound, BitVec.getLsbD_shiftLeft, BitVec.getLsbD_ushiftRight]
  by_cases low : 12 ≤ i
  · rw [Nat.add_sub_cancel' low]
    simp [low, bound]
  · simp [low, Nat.lt_of_not_le low]

theorem toNat_pgroundup {sz : Word} (low : sz.toNat ≤ kernbase) : (pgroundup sz).toNat = pages sz.toNat * pgsize := by
  have sum : (sz + 4096#32 - 1#32).toNat = sz.toNat + 4095 := by
    simp only [kernbase] at low
    bv_omega
  rw [pgroundup, and_page_mask, BitVec.toNat_shiftLeft, BitVec.toNat_ushiftRight, sum, Nat.shiftRight_eq_div_pow,
    Nat.shiftLeft_eq]
  simp only [kernbase] at low
  simp only [pages, pgsize]
  omega

theorem toNat_nextTable (a : Word) (low : a.toNat < kernbase) :
    (pgaddr (dirIndex a + 1#32) 0#32 0#32 - 4096#32 + 4096#32).toNat
      = ((pdx (a.toNat / pgsize)).val + 1) * nentries * pgsize := by
  have next : (dirIndex a + 1#32).toNat = (pdx (a.toNat / pgsize)).val + 1 := by
    rw [BitVec.toNat_add, toNat_dirIndex]
    have bound : (pdx (a.toNat / pgsize)).val < 1024 := (pdx (a.toNat / pgsize)).isLt
    exact Nat.mod_eq_of_lt (by rw [show (1#32).toNat = 1 from rfl]; omega)
  have small : (pdx (a.toNat / pgsize)).val < 512 := by
    rw [pdx_val]
    simp only [kernbase, nentries, pgsize] at *
    omega
  rw [BitVec.sub_add_cancel]
  simp only [pgaddr, BitVec.zero_shiftLeft, BitVec.or_zero]
  rw [BitVec.toNat_shiftLeft, next, Nat.shiftLeft_eq]
  generalize (pdx (a.toNat / pgsize)).val = entry at small
  simp only [nentries, pgsize]
  omega

theorem walk_eq (s : Space) (a : Word) :
    s.walk a = (s.table (pdx (a.toNat / pgsize))).map fun t => t.pte (ptx (a.toNat / pgsize)) := by
  have dir : (⟨(dirIndex a).toNat, index_lt _⟩ : Index) = pdx (a.toNat / pgsize) := Fin.ext (toNat_dirIndex a)
  have table : (⟨(tableIndex a).toNat, index_lt _⟩ : Index) = ptx (a.toNat / pgsize) := Fin.ext (toNat_tableIndex a)
  rw [Space.walk, dir, table]

theorem clear_eq (s : Space) (a : Word) : s.clear a = s.setPte (a.toNat / pgsize) none := by
  have entry (t : Table) : (fun j : Index => if j.val = (tableIndex a).toNat then none else t.pte j)
      = update t.pte (ptx (a.toNat / pgsize)) none := by
    funext j
    simp only [toNat_tableIndex, update_apply, Fin.val_inj]
  have tables : (s.clear a).table = (s.setPte (a.toNat / pgsize) none).table := by
    funext i
    rw [Space.clear, Space.setPte]
    by_cases here : i = pdx (a.toNat / pgsize)
    · subst here
      cases found : s.table (pdx (a.toNat / pgsize)) with
      | none => simp [found, toNat_dirIndex]
      | some t => simp [found, toNat_dirIndex, entry]
    · have apart : i.val ≠ (dirIndex a).toNat := by
        rw [toNat_dirIndex]
        exact fun same => here (Fin.ext same)
      cases found : s.table (pdx (a.toNat / pgsize)) with
      | none => simp [apart]
      | some t => simp [apart, update_of_ne here]
  have dir : (s.clear a).dir = (s.setPte (a.toNat / pgsize) none).dir := by rw [dir_setPte, Space.clear]
  calc s.clear a = ⟨(s.clear a).dir, (s.clear a).table⟩ := rfl
    _ = ⟨(s.setPte (a.toNat / pgsize) none).dir, (s.setPte (a.toNat / pgsize) none).table⟩ := by rw [tables, dir]

theorem deallocWords_eq (k : Kernel) (low : oldsz.toNat ≤ kernbase) (fuel : Nat) (m : Mem) (s : Space)
    (aligned : a.toNat % pgsize = 0) :
    k.deallocWords oldsz fuel a m s = k.deallocLoop oldsz.toNat fuel (a.toNat / pgsize) m s := by
  induction fuel generalizing a m s with
  | zero => rfl
  | succ fuel ih =>
      have whole : a.toNat / pgsize * pgsize = a.toNat := Nat.div_mul_cancel (Nat.dvd_of_mod_eq_zero aligned)
      rw [Kernel.deallocWords, Kernel.deallocLoop, whole, walk_eq]
      by_cases more : a < oldsz
      · have below : a.toNat < oldsz.toNat := more
        have page : (a + 4096#32).toNat = a.toNat + pgsize := by
          simp only [kernbase, pgsize] at *
          bv_omega
        have next (m : Mem) (s : Space) : k.deallocWords oldsz fuel (a + 4096#32) m s
            = k.deallocLoop oldsz.toNat fuel (a.toNat / pgsize + 1) m s := by
          rw [ih m s (by rw [page, Nat.add_mod_right, aligned]), page, Nat.add_div_right _ (by decide)]
        rw [if_pos more, if_pos below]
        cases table : s.table (pdx (a.toNat / pgsize)) with
        | none =>
            have jump := toNat_nextTable a (by omega)
            dsimp only [Option.map_none]
            rw [ih m s (by rw [jump, Nat.mul_mod_left]), jump, Nat.mul_div_cancel _ (by decide)]
        | some t =>
            dsimp only [Option.map_some]
            cases entry : t.pte (ptx (a.toNat / pgsize)) with
            | none => exact next m s
            | some pte =>
                dsimp only
                simp only [clear_eq, next]
      · have past : ¬a.toNat < oldsz.toNat := more
        rw [if_neg more, if_neg past]

end Words

section Pages

variable {k : Kernel} {m : Mem} {s : Space} {first last : Nat}

theorem freePages_nil (k : Kernel) (start : Mem × Space) (done : last ≤ first) :
    k.freePages first last start = pure start := by
  rw [Kernel.freePages, Nat.sub_eq_zero_of_le done]
  rfl

theorem freePages_cons (k : Kernel) (start : Mem × Space) (more : first < last) :
    k.freePages first last start = (do
      let next ← k.freePage start first
      k.freePages (first + 1) last next) := by
  rw [Kernel.freePages, show last - first = last - (first + 1) + 1 by omega, List.range'_succ, List.foldlM_cons]
  rfl

theorem freePage_absent (k : Kernel) (m : Mem) (absent : s.lookup first = none) :
    k.freePage (m, s) first = pure (m, s) := by
  rw [Kernel.freePage, absent]

theorem freePages_skip (k : Kernel) (m : Mem) {next : Nat} (forward : first ≤ next)
    (absent : ∀ v, first ≤ v → v < next → s.lookup v = none) :
    k.freePages first last (m, s) = k.freePages next last (m, s) := by
  induction forward using Nat.decreasingInduction with
  | self => rfl
  | of_succ first order ih =>
      rw [← ih fun v low high => absent v (by omega) high]
      by_cases more : first < last
      · rw [freePages_cons k _ more, freePage_absent k m (absent first le_rfl order), pure_bind]
      · rw [freePages_nil k _ (by omega), freePages_nil k _ (by omega)]

theorem kfree_zero (k : Kernel) (m : Mem) : m.kfree k 0 = .error (.panic "kfree") := by
  have low : 0 < k.first := lt_of_le_of_lt (Nat.zero_le _) (lt_of_lt_of_le k.text k.order)
  rw [Mem.kfree, if_pos (Or.inl low)]

theorem deallocLoop_eq (k : Kernel) {oldsz : Nat} (user : pages oldsz ≤ userPages) (fuel : Nat) (m : Mem) (s : Space)
    {vpn : Nat} (enough : pages oldsz - vpn < fuel) :
    k.deallocLoop oldsz fuel vpn m s = k.freePages vpn (pages oldsz) (m, s) := by
  induction fuel generalizing vpn m s with
  | zero => exact absurd enough (Nat.not_lt_zero _)
  | succ fuel ih =>
      rw [Kernel.deallocLoop]
      by_cases more : vpn < pages oldsz
      · rw [if_pos (lt_pages_iff.mp more)]
        have inside := userPages_lt (lt_of_lt_of_le more user)
        cases table : s.table (pdx vpn) with
        | none =>
            have next := lt_next_table inside
            dsimp only
            rw [ih m s (by omega), freePages_skip k m next.le fun v low high => ?_]
            exact lookup_eq_none (pdx_of_lt_next_table inside low high ▸ table)
        | some t =>
            have found := lookup_eq table
            rw [freePages_cons k _ more]
            dsimp only
            cases entry : t.pte (ptx vpn) with
            | none =>
                rw [freePage_absent k m (found.trans entry), pure_bind]
                exact ih m s (by omega)
            | some pte =>
                rw [Kernel.freePage, found, entry]
                dsimp only
                by_cases zero : pte.frame = 0
                · rw [if_pos zero, zero, kfree_zero]
                  rfl
                · rw [if_neg zero, bind_assoc]
                  simp only [pure_bind]
                  exact bind_congr fun m => ih m _ (by omega)
      · rw [if_neg fun low => more (lt_pages_iff.mpr low), freePages_nil k _ (by omega)]

theorem kfree_takes {frame : Frame} (takes : k.Takes frame) :
    m.kfree k frame = .ok { m.memset frame 1 with free := frame :: m.free } := by
  rw [Mem.kfree, if_neg]
  exact not_or.mpr ⟨Nat.not_lt.mpr takes.1, Nat.not_le.mpr takes.2⟩

theorem kfree_refuses {frame : Frame} (refused : ¬k.Takes frame) : m.kfree k frame = .error (.panic "kfree") := by
  rw [Kernel.Takes, not_and_or, Nat.not_le, Nat.not_lt] at refused
  rw [Mem.kfree, if_pos refused]

theorem framesIn_nil (s : Space) (done : last ≤ first) : s.framesIn first last = [] := by
  rw [Space.framesIn, Nat.sub_eq_zero_of_le done]
  rfl

theorem framesIn_cons (s : Space) (more : first < last) :
    s.framesIn first last = ((s.lookup first).map Pte.frame).toList ++ s.framesIn (first + 1) last := by
  rw [Space.framesIn, show last - first = last - (first + 1) + 1 by omega, List.range'_succ, List.filterMap_cons]
  cases (s.lookup first).map Pte.frame <;> rfl

theorem framesIn_setPte {vpn : Nat} (table : (s.table (pdx vpn)).isSome) (inside : vpn < npages) (before : vpn < first)
    (bound : last ≤ npages) : (s.setPte vpn none).framesIn first last = s.framesIn first last := by
  apply List.filterMap_congr
  intro v member
  rw [List.mem_range'_1] at member
  rw [lookup_setPte table (by omega) inside, if_neg (by omega)]

theorem Cleared.nothing (done : last ≤ first) : Cleared m s first last (m, s) := by
  refine ⟨?_, rfl, fun f => ?_, rfl, fun _ => rfl, fun v bound => ?_⟩
  · rw [framesIn_nil s done]
    rfl
  · rw [framesIn_nil s done, if_neg List.not_mem_nil]
  · rw [if_neg (by omega)]

theorem Cleared.skip {result : Mem × Space} (more : first < last) (absent : s.lookup first = none)
    (cleared : Cleared m s (first + 1) last result) : Cleared m s first last result := by
  have frames : s.framesIn first last = s.framesIn (first + 1) last := by
    rw [framesIn_cons s more, absent]
    rfl
  refine ⟨frames ▸ cleared.free, cleared.luck, frames ▸ cleared.data, cleared.dir, cleared.tables, fun v bound => ?_⟩
  rw [cleared.lookup v bound]
  by_cases here : v = first
  · rw [here, absent, ite_self, ite_self]
  · congr 1
    rw [eq_iff_iff]
    omega

theorem Cleared.one {result : Mem × Space} {pte : Pte} (more : first < last) (bound : last ≤ npages)
    (found : s.lookup first = some pte)
    (cleared : Cleared { m.memset pte.frame 1 with free := pte.frame :: m.free } (s.setPte first none) (first + 1) last
      result) : Cleared m s first last result := by
  have table := table_of_lookup found
  have inside : first < npages := lt_of_lt_of_le more bound
  have rest := framesIn_setPte table inside (Nat.lt_succ_self first) bound
  have frames : s.framesIn first last = pte.frame :: s.framesIn (first + 1) last := by
    rw [framesIn_cons s more, found]
    rfl
  refine ⟨?_, cleared.luck, fun f => ?_, cleared.dir.trans (dir_setPte s first none), fun i => ?_, fun v bound => ?_⟩
  · rw [cleared.free, rest, frames, List.reverse_cons, List.append_assoc]
    rfl
  · rw [cleared.data f, rest, frames]
    by_cases later : f ∈ s.framesIn (first + 1) last
    · rw [if_pos later, if_pos (List.mem_cons_of_mem _ later)]
    · rw [if_neg later]
      by_cases here : f = pte.frame
      · rw [if_pos (here ▸ List.mem_cons_self), here]
        exact update_self ..
      · rw [if_neg (List.not_mem_cons_of_ne_of_not_mem here later)]
        exact update_of_ne here ..
  · rw [cleared.tables i, page_setPte]
  · rw [cleared.lookup v bound, lookup_setPte table bound inside]
    by_cases here : v = first
    · rw [if_pos here, ite_self, if_pos (by omega)]
    · rw [if_neg here]
      congr 1
      rw [eq_iff_iff]
      omega

theorem freePages_cleared (bound : last ≤ npages) (order : first ≤ last)
    (taken : ∀ f ∈ s.framesIn first last, k.Takes f) :
    ∃ result, k.freePages first last (m, s) = .ok result ∧ Cleared m s first last result := by
  induction order using Nat.decreasingInduction generalizing m s with
  | self =>
      exact ⟨(m, s), freePages_nil k _ le_rfl, Cleared.nothing le_rfl⟩
  | of_succ first more ih =>
      rw [freePages_cons k _ more]
      rw [framesIn_cons s more] at taken
      cases found : s.lookup first with
      | none =>
          rw [freePage_absent k m found, pure_bind]
          obtain ⟨result, ran, cleared⟩ := ih (m := m) fun f member => taken f (List.mem_append_right _ member)
          exact ⟨result, ran, cleared.skip more found⟩
      | some pte =>
          rw [found] at taken
          have inside : first < npages := lt_of_lt_of_le more bound
          have rest := framesIn_setPte (table_of_lookup found) inside (Nat.lt_succ_self first) bound
          rw [Kernel.freePage, found]
          dsimp only
          rw [kfree_takes (taken pte.frame (List.mem_append_left _ List.mem_cons_self)), ok_bind, pure_bind]
          obtain ⟨result, ran, cleared⟩ := ih (m := { m.memset pte.frame 1 with free := pte.frame :: m.free })
            (s := s.setPte first none) fun f member => taken f (List.mem_append_right _ (rest ▸ member))
          exact ⟨result, ran, cleared.one more bound found⟩

theorem freePages_panics (bound : last ≤ npages) (order : first ≤ last) {f : Frame}
    (member : f ∈ s.framesIn first last) (refused : ¬k.Takes f) : k.freePages first last (m, s) = .error (.panic "kfree") := by
  induction order using Nat.decreasingInduction generalizing m s with
  | self =>
      rw [framesIn_nil s le_rfl] at member
      exact absurd member List.not_mem_nil
  | of_succ first more ih =>
      rw [freePages_cons k _ more]
      rw [framesIn_cons s more, List.mem_append] at member
      cases found : s.lookup first with
      | none =>
          rw [found] at member
          rw [freePage_absent k m found, pure_bind]
          exact ih (member.resolve_left List.not_mem_nil)
      | some pte =>
          rw [found] at member
          have inside : first < npages := lt_of_lt_of_le more bound
          have rest := framesIn_setPte (table_of_lookup found) inside (Nat.lt_succ_self first) bound
          rw [Kernel.freePage, found]
          dsimp only
          by_cases takes : k.Takes pte.frame
          · rw [kfree_takes takes, ok_bind, pure_bind]
            refine ih (rest.symm ▸ member.resolve_left fun here => ?_)
            rw [Option.map_some, Option.toList_some, List.mem_singleton] at here
            exact refused (here ▸ takes)
          · rw [kfree_refuses takes]
            rfl

end Pages

section Dealloc

variable {k : Kernel} {m : Mem} {s : Space} {oldsz newsz : Word} {fuel : Nat}

theorem pages_kernbase {sz : Nat} (low : sz ≤ kernbase) : pages sz ≤ userPages :=
  (pages_mono low).trans (by decide)

theorem deallocuvmWords_eq (low : oldsz.toNat ≤ kernbase) (enough : pages oldsz.toNat < fuel)
    (smaller : newsz < oldsz) : k.deallocuvmWords fuel m s oldsz newsz
      = (k.freePages (pages newsz.toNat) (pages oldsz.toNat) (m, s)).map fun result => (result.1, result.2, newsz) := by
  have less : newsz.toNat < oldsz.toNat := smaller
  have rounded := toNat_pgroundup (less.le.trans low)
  rw [Kernel.deallocuvmWords, if_neg (BitVec.not_le.mpr smaller)]
  rw [deallocWords_eq k low fuel m s (by rw [rounded, Nat.mul_mod_left]), rounded, Nat.mul_div_cancel _ (by decide),
    deallocLoop_eq k (pages_kernbase low) fuel m s (by omega)]
  rfl

/-- Whatever page tables are missing, `deallocuvm` does what a loop over all pages from `PGROUNDUP(newsz)` up to `oldsz`
does: it ends, with the pages present there freed and cleared and everything else as it was, unless `kfree` panics
over one of them. -/
theorem deallocuvm_page_by_page (k : Kernel) (m : Mem) (s : Space) (oldsz newsz : Word) (fuel : Nat)
    (low : oldsz.toNat ≤ kernbase) (enough : pages oldsz.toNat < fuel) :
    k.deallocuvmWords fuel m s oldsz newsz
        = (k.freePages (pages newsz.toNat) (pages oldsz.toNat) (m, s)).map
          (fun result => (result.1, result.2, if newsz < oldsz then newsz else oldsz)) ∧
      ((∀ f ∈ s.framesIn (pages newsz.toNat) (pages oldsz.toNat), k.Takes f) →
        ∃ m' s', k.deallocuvmWords fuel m s oldsz newsz = .ok (m', s', if newsz < oldsz then newsz else oldsz) ∧
          Cleared m s (pages newsz.toNat) (pages oldsz.toNat) (m', s')) ∧
      ((∃ f ∈ s.framesIn (pages newsz.toNat) (pages oldsz.toNat), ¬k.Takes f) →
        k.deallocuvmWords fuel m s oldsz newsz = .error (.panic "kfree")) := by
  have bound : pages oldsz.toNat ≤ npages := (pages_kernbase low).trans (by decide)
  have plain : k.deallocuvmWords fuel m s oldsz newsz
      = (k.freePages (pages newsz.toNat) (pages oldsz.toNat) (m, s)).map
        (fun result => (result.1, result.2, if newsz < oldsz then newsz else oldsz)) := by
    by_cases smaller : newsz < oldsz
    · simp only [if_pos smaller]
      exact deallocuvmWords_eq low enough smaller
    · have larger : oldsz ≤ newsz := BitVec.not_lt.mp smaller
      rw [Kernel.deallocuvmWords, if_pos larger, freePages_nil k _ (pages_mono larger)]
      simp only [if_neg smaller]
      rfl
  refine ⟨plain, fun taken => ?_, fun ⟨f, member, refused⟩ => ?_⟩
  · by_cases order : pages newsz.toNat ≤ pages oldsz.toNat
    · obtain ⟨result, ran, cleared⟩ := freePages_cleared (m := m) bound order taken
      refine ⟨result.1, result.2, ?_, cleared⟩
      rw [plain, ran]
      rfl
    · refine ⟨m, s, ?_, Cleared.nothing (by omega)⟩
      rw [plain, freePages_nil k _ (by omega)]
      rfl
  · have order : pages newsz.toNat ≤ pages oldsz.toNat := by
      by_contra less
      rw [framesIn_nil s (by omega)] at member
      exact List.not_mem_nil member
    rw [plain, freePages_panics bound order member refused]
    rfl

theorem onePage_takes {last : Nat} (bound : last ≤ npages) :
    ∀ f ∈ onePage.framesIn 0 last, smallKernel.Takes f := by
  intro f member
  obtain ⟨v, inside, found⟩ := List.mem_filterMap.mp member
  have low : v < npages := by
    rw [List.mem_range'_1] at inside
    omega
  rw [onePage_lookup low] at found
  by_cases here : v = 0
  · rw [if_pos here, Option.map_some, Option.some.injEq] at found
    rw [← found]
    exact ⟨by decide, by decide⟩
  · rw [if_neg here] at found
    cases found

theorem deallocuvm_page_by_page_sparse :
    (onePage.lookup 0).isSome ∧ (onePage.table (pdx 1024)).isNone ∧
      ∃ m' s', smallKernel.deallocuvmWords (2 ^ 20) noMemory onePage 0x80000000#32 0#32 = .ok (m', s', 0#32) ∧
        s'.lookup 0 = none := by
  have low : (0x80000000#32).toNat ≤ kernbase := by decide
  have enough : pages (0x80000000#32).toNat < 2 ^ 20 := by decide
  have taken : ∀ f ∈ onePage.framesIn 0 (pages (0x80000000#32).toNat), smallKernel.Takes f :=
    onePage_takes (by decide)
  obtain ⟨m', s', ran, cleared⟩ :=
    (deallocuvm_page_by_page smallKernel noMemory onePage _ 0#32 _ low enough).2.1 taken
  refine ⟨rfl, rfl, m', s', ran, ?_⟩
  rw [cleared.lookup 0 (by decide), if_pos ⟨by decide, by decide⟩]

end Dealloc

end OsLabs.Vm
