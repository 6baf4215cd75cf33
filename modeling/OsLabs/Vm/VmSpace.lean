import OsLabs.Foundation.Holdings
import OsLabs.Vm.VmCore

/-!
The pages that an address space holds, and what the primitive operations do to them. A space and the free list
share out a pool of pages; a page that was taken and is not yet in the space is extra. What a process sees of its
space is its view: permissions and bytes, page by page.
-/

namespace OsLabs.Vm

open Function ByteField Holdings Outcomes

def npages : Nat := nentries * nentries

/-- The pages below `KERNBASE`. -/
def userPages : Nat := kernbase / pgsize

theorem page_ext {v w : Nat} (first : v < npages) (second : w < npages) (dir : pdx v = pdx w) (table : ptx v = ptx w) :
    v = w := by
  have dir := congrArg Fin.val dir
  have table := congrArg Fin.val table
  simp only [pdx, ptx, npages, nentries] at *
  omega

theorem userPages_lt {v : Nat} (user : v < userPages) : v < npages := by
  simp only [userPages, kernbase, pgsize, npages, nentries] at *
  omega

section Lookup

variable {s : Space} {v w vpn : Nat} {i : Index} {pte : Option Pte}

def Space.addTable (s : Space) (i : Index) (page : Frame) : Space :=
  { s with table := update s.table i (some ⟨page, fun _ => none⟩) }

@[simp] theorem dir_addTable (s : Space) (i : Index) (page : Frame) : (s.addTable i page).dir = s.dir := rfl

theorem lookup_addTable (missing : s.table i = none) (page : Frame) (v : Nat) :
    (s.addTable i page).lookup v = s.lookup v := by
  rw [Space.lookup, Space.lookup, Space.addTable]
  by_cases here : pdx v = i
  · simp [here, missing]
  · simp [update_of_ne here]

theorem table_addTable_self (s : Space) (i : Index) (page : Frame) :
    (s.addTable i page).table i = some ⟨page, fun _ => none⟩ := update_self ..

theorem table_addTable_of_ne {j : Index} (differ : j ≠ i) (page : Frame) :
    (s.addTable i page).table j = s.table j := update_of_ne differ ..

theorem isSome_addTable (page : Frame) {j : Index} (some : (s.table j).isSome) :
    ((s.addTable i page).table j).isSome := by
  by_cases here : j = i
  · rw [here, table_addTable_self]
    rfl
  · rw [table_addTable_of_ne here]
    exact some

@[simp] theorem dir_setPte (s : Space) (vpn : Nat) (pte : Option Pte) : (s.setPte vpn pte).dir = s.dir := by
  rw [Space.setPte]
  split <;> rfl

theorem page_setPte (s : Space) (vpn : Nat) (pte : Option Pte) (i : Index) :
    ((s.setPte vpn pte).table i).map Table.page = (s.table i).map Table.page := by
  rw [Space.setPte]
  split
  · rfl
  · rename_i t found
    by_cases here : i = pdx vpn
    · simp [here, found]
    · simp [update_of_ne here]

theorem isSome_setPte (s : Space) (vpn : Nat) (pte : Option Pte) (i : Index) :
    ((s.setPte vpn pte).table i).isSome = (s.table i).isSome := by
  rw [← Option.isSome_map (f := Table.page), page_setPte, Option.isSome_map]

theorem lookup_setPte (table : (s.table (pdx vpn)).isSome) (first : v < npages) (second : vpn < npages) :
    (s.setPte vpn pte).lookup v = if v = vpn then pte else s.lookup v := by
  obtain ⟨t, found⟩ := Option.isSome_iff_exists.mp table
  rw [Space.lookup, Space.lookup, Space.setPte, found]
  by_cases here : v = vpn
  · simp [here]
  · rw [if_neg here]
    by_cases dir : pdx v = pdx vpn
    · have differs : ptx v ≠ ptx vpn := fun same => here (page_ext first second dir same)
      simp [dir, found, update_of_ne differs]
    · simp [update_of_ne dir]

theorem table_of_lookup {p : Pte} (found : s.lookup v = some p) : (s.table (pdx v)).isSome := by
  rw [Space.lookup, Option.bind_eq_some_iff] at found
  obtain ⟨t, table, -⟩ := found
  rw [table]
  rfl

theorem lookup_eq {t : Table} (table : s.table (pdx v) = some t) : s.lookup v = t.pte (ptx v) := by
  rw [Space.lookup, table, Option.bind_some]

theorem lookup_eq_none (missing : s.table (pdx v) = none) : s.lookup v = none := by
  rw [Space.lookup, missing, Option.bind_none]

end Lookup

section Frames

variable {s : Space} {v vpn : Nat} {i : Index}

def Space.tablePages (s : Space) : Multiset Frame := holding Finset.univ fun i => (s.table i).map Table.page

def Space.userFrames (s : Space) : Multiset Frame :=
  holding (Finset.range userPages) fun vpn => (s.lookup vpn).map Pte.frame

/-- The pages of an address space: the directory, the page tables and the user pages. -/
def Space.frames (s : Space) : Multiset Frame := s.dir ::ₘ (s.tablePages + s.userFrames)

theorem mem_userFrames {f : Frame} : f ∈ s.userFrames ↔ ∃ v < userPages, ∃ pte, s.lookup v = some pte ∧ pte.frame = f := by
  simp only [Space.userFrames, mem_holding, Finset.mem_range, Option.map_eq_some_iff]

theorem frames_addTable (missing : s.table i = none) (page : Frame) :
    (s.addTable i page).frames = page ::ₘ s.frames := by
  have tables : (s.addTable i page).tablePages = page ::ₘ s.tablePages := by
    refine holding_put (Finset.mem_univ i) (fun j _ differ => ?_) (by rw [missing, Option.map_none]) ?_
    · rw [table_addTable_of_ne differ]
    · rw [table_addTable_self, Option.map_some]
  have users : (s.addTable i page).userFrames = s.userFrames :=
    holding_congr fun v _ => by rw [lookup_addTable missing]
  rw [Space.frames, tables, users, dir_addTable, Space.frames, Multiset.cons_add, Multiset.cons_swap]

theorem tablePages_setPte (s : Space) (vpn : Nat) (pte : Option Pte) : (s.setPte vpn pte).tablePages = s.tablePages :=
  holding_congr fun i _ => page_setPte s vpn pte i

theorem frames_put (table : (s.table (pdx vpn)).isSome) (user : vpn < userPages) (absent : s.lookup vpn = none)
    (pte : Pte) : (s.setPte vpn (some pte)).frames = pte.frame ::ₘ s.frames := by
  have users : (s.setPte vpn (some pte)).userFrames = pte.frame ::ₘ s.userFrames := by
    refine holding_put (Finset.mem_range.mpr user) (fun v inside differ => ?_) (by rw [absent, Option.map_none]) ?_
    · rw [lookup_setPte table (userPages_lt (Finset.mem_range.mp inside)) (userPages_lt user), if_neg differ]
    · rw [lookup_setPte table (userPages_lt user) (userPages_lt user), if_pos rfl, Option.map_some]
  rw [Space.frames, users, dir_setPte, tablePages_setPte, Space.frames, Multiset.add_cons, Multiset.cons_swap]

theorem frames_remove (user : vpn < userPages) {pte : Pte} (present : s.lookup vpn = some pte) :
    s.frames = pte.frame ::ₘ (s.setPte vpn none).frames := by
  have table := table_of_lookup present
  have users : s.userFrames = pte.frame ::ₘ (s.setPte vpn none).userFrames := by
    refine holding_put (Finset.mem_range.mpr user) (fun v inside differ => ?_) ?_ (by rw [present, Option.map_some])
    · rw [lookup_setPte table (userPages_lt (Finset.mem_range.mp inside)) (userPages_lt user), if_neg differ]
    · rw [lookup_setPte table (userPages_lt user) (userPages_lt user), if_pos rfl, Option.map_none]
  rw [Space.frames, users, Space.frames, dir_setPte, tablePages_setPte, Multiset.add_cons, Multiset.cons_swap]

theorem frames_setPte (table : (s.table (pdx vpn)).isSome) (inside : vpn < npages) {pte : Option Pte}
    (same : vpn < userPages → pte.map Pte.frame = (s.lookup vpn).map Pte.frame) :
    (s.setPte vpn pte).frames = s.frames := by
  have users : (s.setPte vpn pte).userFrames = s.userFrames := by
    refine holding_congr fun v user => ?_
    rw [Finset.mem_range] at user
    rw [lookup_setPte table (userPages_lt user) inside]
    by_cases here : v = vpn
    · rw [if_pos here, here, same (here ▸ user)]
    · rw [if_neg here]
  rw [Space.frames, users, dir_setPte, tablePages_setPte, Space.frames]

end Frames

/-- A range of physical pages that `kfree` takes. -/
def Kernel.Valid (k : Kernel) (f : Nat) : Prop := k.first ≤ f ∧ f < phystop / pgsize

theorem Kernel.Valid.ne_zero {k : Kernel} {f : Nat} (valid : k.Valid f) : f ≠ 0 := by
  have text := Nat.zero_lt_of_lt k.text
  have order := k.order
  have low := valid.1
  omega

theorem kfree_of_valid {k : Kernel} {f : Frame} (valid : k.Valid f) (m : Mem) :
    m.kfree k f = .ok { m.memset f 1 with free := f :: m.free } := by
  rw [Mem.kfree, if_neg (not_or.mpr ⟨not_lt.mpr valid.1, not_le.mpr valid.2⟩)]

/-- The free pages, some extra ones and those of the space are the pool, each of them once. -/
structure Sane (k : Kernel) (pool extra : Multiset Frame) (m : Mem) (s : Space) : Prop where
  total : ↑m.free + extra + s.frames = pool
  nodup : pool.Nodup
  valid : ∀ f ∈ pool, k.Valid f

structure Page where
  perm : Perm
  bytes : Bytes

def view (m : Mem) (s : Space) (vpn : Nat) : Option Page :=
  (s.lookup vpn).map fun pte => ⟨pte.perm, m.data pte.frame⟩

structure Kept (s s' : Space) : Prop where
  dir : s'.dir = s.dir
  tables : ∀ i, (s.table i).isSome → (s'.table i).isSome
  kernel : ∀ v, userPages ≤ v → v < npages → s'.lookup v = s.lookup v

theorem Kept.refl (s : Space) : Kept s s := ⟨rfl, fun _ some => some, fun _ _ _ => rfl⟩

theorem Kept.trans {s s' s'' : Space} (first : Kept s s') (second : Kept s' s'') : Kept s s'' :=
  ⟨second.dir.trans first.dir, fun i some => second.tables i (first.tables i some),
    fun v low high => (second.kernel v low high).trans (first.kernel v low high)⟩

namespace Sane

variable {k : Kernel} {pool extra : Multiset Frame} {m m' : Mem} {s s' : Space} {f : Frame} {v w : Nat} {p q : Pte}

theorem of_free (sane : Sane k pool extra m s) (free : m'.free = m.free) : Sane k pool extra m' s :=
  ⟨by rw [free, sane.total], sane.nodup, sane.valid⟩

theorem of_frames (sane : Sane k pool extra m s) (frames : s'.frames = s.frames) : Sane k pool extra m s' :=
  ⟨by rw [frames, sane.total], sane.nodup, sane.valid⟩

theorem mem_free (sane : Sane k pool extra m s) (free : f ∈ m.free) : f ∈ pool := by
  rw [← sane.total, Multiset.mem_add, Multiset.mem_add]
  exact Or.inl (Or.inl free)

theorem mem_extra (sane : Sane k pool extra m s) (held : f ∈ extra) : f ∈ pool := by
  rw [← sane.total, Multiset.mem_add, Multiset.mem_add]
  exact Or.inl (Or.inr held)

theorem mem_frames (sane : Sane k pool extra m s) (inside : f ∈ s.frames) : f ∈ pool := by
  rw [← sane.total, Multiset.mem_add]
  exact Or.inr inside

theorem not_free (sane : Sane k pool extra m s) (inside : f ∈ s.frames) : f ∉ m.free := by
  have nodup := sane.nodup
  rw [← sane.total, Multiset.nodup_add] at nodup
  exact fun free => Multiset.disjoint_left.mp nodup.2.2 (Multiset.mem_add.mpr (Or.inl free)) inside

theorem not_extra (sane : Sane k pool extra m s) (inside : f ∈ s.frames) : f ∉ extra := by
  have nodup := sane.nodup
  rw [← sane.total, Multiset.nodup_add] at nodup
  exact fun held => Multiset.disjoint_left.mp nodup.2.2 (Multiset.mem_add.mpr (Or.inr held)) inside

theorem frame_mem (user : v < userPages) (found : s.lookup v = some p) : p.frame ∈ s.frames := by
  rw [Space.frames, Multiset.mem_cons, Multiset.mem_add]
  exact Or.inr (Or.inr (mem_userFrames.mpr ⟨v, user, p, found, rfl⟩))

theorem page_inj (sane : Sane k pool extra m s) (first : v < userPages) (second : w < userPages)
    (here : s.lookup v = some p) (there : s.lookup w = some q) (same : p.frame = q.frame) : v = w := by
  have nodup := sane.nodup
  rw [← sane.total, Multiset.nodup_add, Space.frames, Multiset.nodup_cons] at nodup
  have users : s.userFrames.Nodup := (Multiset.nodup_add.mp nodup.2.1.2).2.1
  rw [Space.userFrames] at users
  refine holding_inj users (Finset.mem_range.mpr first) (Finset.mem_range.mpr second)
    (congrArg (Option.map Pte.frame) here) ?_
  rw [there, Option.map_some, same]

theorem kalloc (sane : Sane k pool extra m s) {free : List Frame} (first : m.free = f :: free)
    (luck : List Bool) : Sane k pool (f ::ₘ extra) { m with free := free, luck := luck } s := by
  refine ⟨?_, sane.nodup, sane.valid⟩
  rw [← sane.total, first, ← Multiset.cons_coe, Multiset.cons_add, Multiset.add_cons]

theorem kfree (sane : Sane k pool (f ::ₘ extra) m s) :
    m.kfree k f = .ok { m.memset f 1 with free := f :: m.free } ∧
      Sane k pool extra { m.memset f 1 with free := f :: m.free } s := by
  refine ⟨kfree_of_valid (sane.valid f (sane.mem_extra (Multiset.mem_cons_self f extra))) m, ?_, sane.nodup,
    sane.valid⟩
  rw [← sane.total, ← Multiset.cons_coe, Multiset.cons_add, Multiset.add_cons]

end Sane

theorem kalloc_cases (m : Mem) :
    (∃ luck, (m.luck = [] → luck = [] ∧ m.free = []) ∧ m.kalloc = ({ m with luck := luck }, none)) ∨
      ∃ f free luck, m.free = f :: free ∧ (m.luck = [] → luck = []) ∧
        m.kalloc = ({ m with free := free, luck := luck }, some f) := by
  rw [Mem.kalloc]
  split
  · rename_i luck bad
    exact Or.inl ⟨luck, by rw [bad]; nofun, rfl⟩
  · split
    · rename_i empty
      exact Or.inl ⟨m.luck.tail, fun lucky => ⟨by rw [lucky]; rfl, empty⟩, rfl⟩
    · rename_i first
      exact Or.inr ⟨_, _, m.luck.tail, first, fun lucky => by rw [lucky]; rfl, rfl⟩

theorem walk_cases (s : Space) (m : Mem) (vpn : Nat) :
    ((s.table (pdx vpn)).isSome ∧ s.walkpgdir m vpn = (m, some s)) ∨
      s.table (pdx vpn) = none ∧ ((∃ luck, (m.luck = [] → luck = [] ∧ m.free = []) ∧
          s.walkpgdir m vpn = ({ m with luck := luck }, none)) ∨
        ∃ f free luck, m.free = f :: free ∧ (m.luck = [] → luck = []) ∧
          s.walkpgdir m vpn = ({ m with free := free, luck := luck }, some (s.addTable (pdx vpn) f))) := by
  rw [Space.walkpgdir]
  cases table : s.table (pdx vpn) with
  | some t => exact Or.inl ⟨rfl, rfl⟩
  | none =>
      refine Or.inr ⟨rfl, ?_⟩
      rcases kalloc_cases m with ⟨luck, lucky, none⟩ | ⟨f, free, luck, first, lucky, some⟩
      · exact Or.inl ⟨luck, lucky, by rw [none]⟩
      · exact Or.inr ⟨f, free, luck, first, lucky, by rw [some]; rfl⟩

end OsLabs.Vm
