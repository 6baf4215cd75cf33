import Mathlib.Order.Interval.Finset.Fin
import OsLabs.Vm.VmOps

/-!
`setupkvm`. The kernel's mappings are in ascending order, so none of them is made twice; all of them are above
`KERNBASE` and none is for the user.
-/

namespace OsLabs.Vm

open ByteField Holdings Outcomes

variable {k : Kernel} {pool extra : Multiset Frame} {m m' : Mem} {s s' : Space} {vpn : Nat}

def userEntries : Nat := nentries / 2

theorem pdx_user (user : vpn < userPages) : (pdx vpn).val < userEntries := by
  rw [pdx_val]
  simp only [userPages, kernbase, pgsize, userEntries, nentries] at *
  omega

theorem pdx_kernel (low : userPages ≤ vpn) (high : vpn < npages) : userEntries ≤ (pdx vpn).val := by
  rw [pdx_val]
  simp only [userPages, kernbase, pgsize, userEntries, npages, nentries] at *
  omega

structure MapsKernel (k : Kernel) (pool extra : Multiset Frame) (m : Mem) (s : Space) (first last : Nat)
    (result : Mem × Space × Bool) : Prop where
  sane : Sane k pool extra result.1 result.2.1
  data : result.1.data = m.data
  user : ∀ i : Index, i.val < userEntries → result.2.1.table i = s.table i
  lookup : ∀ v < npages, result.2.1.lookup v = s.lookup v ∨
    first ≤ v ∧ v < last ∧ ∃ pte, result.2.1.lookup v = some pte ∧ pte.perm.u = false
  luck : m.luck = [] → result.1.luck = []
  failed : m.luck = [] → result.2.2 = false → result.1.free = []

theorem MapsKernel.nothing (sane : Sane k pool extra m s) (first last : Nat) :
    MapsKernel k pool extra m s first last (m, s, true) :=
  ⟨sane, rfl, fun _ _ => rfl, fun _ _ => Or.inl rfl, fun lucky => lucky, nofun⟩

theorem MapsKernel.then {first middle last : Nat} {done : Bool} {result : Mem × Space × Bool} (order : first ≤ middle)
    (maps : MapsKernel k pool extra m s first middle (m', s', done)) (bound : middle ≤ last)
    (rest : MapsKernel k pool extra m' s' middle last result) : MapsKernel k pool extra m s first last result := by
  refine ⟨rest.sane, rest.data.trans maps.data, fun i low => (rest.user i low).trans (maps.user i low), fun v inside => ?_,
    fun lucky => rest.luck (maps.luck lucky), fun lucky => rest.failed (maps.luck lucky)⟩
  rcases rest.lookup v inside with same | ⟨low, high, present⟩
  · rw [same]
    rcases maps.lookup v inside with same | ⟨low, high, present⟩
    · exact Or.inl same
    · exact Or.inr ⟨low, by omega, present⟩
  · exact Or.inr ⟨by omega, high, present⟩

theorem Walked.kernel {perm : Perm} (walked : Walked m s vpn m' s') (frame : Frame) (low : userPages ≤ vpn)
    (high : vpn < npages) (noUser : perm.u = false) (sane : Sane k pool extra m s) :
    MapsKernel k pool extra m s vpn (vpn + 1) (m', s'.setPte vpn (some ⟨frame, perm⟩), true) := by
  have looked (v : Nat) (inside : v < npages) :
      (s'.setPte vpn (some ⟨frame, perm⟩)).lookup v = if v = vpn then some ⟨frame, perm⟩ else s.lookup v := by
    rw [lookup_setPte walked.present inside high, walked.lookup]
  refine ⟨?_, walked.data, fun i user => ?_, fun v inside => ?_, walked.luck, nofun⟩
  · exact (walked.sane k pool extra sane).of_frames (frames_setPte walked.present high fun user => by omega)
  · have differs : i ≠ pdx vpn := by
      rintro rfl
      exact absurd user (not_lt.mpr (pdx_kernel low high))
    rw [← walked.others i differs, Space.setPte]
    split
    · rfl
    · exact Function.update_of_ne differs _ _
  · dsimp only
    rw [looked v inside]
    by_cases here : v = vpn
    · rw [if_pos here]
      exact Or.inr ⟨by omega, by omega, _, rfl, noUser⟩
    · rw [if_neg here]
      exact Or.inl rfl

theorem MapsKernel.keeps {first last v : Nat} {result : Mem × Space × Bool}
    (maps : MapsKernel k pool extra m s first last result) (inside : v < npages) (there : (s.lookup v).isSome) :
    (result.2.1.lookup v).isSome := by
  rcases maps.lookup v inside with same | ⟨-, -, pte, found, -⟩
  · rwa [same]
  · rw [found]
    rfl

theorem mapLoop_kernel {perm : Perm} (noUser : perm.u = false) (count : Nat) (frame : Frame)
    (sane : Sane k pool extra m s) (low : userPages ≤ vpn) (high : vpn + count ≤ npages)
    (absent : ∀ v, vpn ≤ v → v < vpn + count → s.lookup v = none) :
    Meets (fun _ => False)
      (fun r => MapsKernel k pool extra m s vpn (vpn + count) r ∧
        (r.2.2 = true → ∀ v, vpn ≤ v → v < vpn + count → (r.2.1.lookup v).isSome))
      (mapLoop perm count vpn frame m s) := by
  induction count generalizing vpn frame m s with
  | zero => exact ⟨MapsKernel.nothing sane _ _, fun _ v low high => by omega⟩
  | succ count ih =>
      rcases mapLoop_succ (m := m) perm count frame (absent vpn le_rfl (by omega)) with
        ⟨luck, lucky, result⟩ | ⟨m', s', walked, result⟩
      · rw [result]
        exact ⟨⟨sane.of_free rfl, rfl, fun _ _ => rfl, fun _ _ => Or.inl rfl, fun none => (lucky none).1,
          fun none _ => (lucky none).2⟩, nofun⟩
      · have first := walked.kernel frame low (by omega) noUser sane
        have looked (v : Nat) (inside : v < npages) : (s'.setPte vpn (some ⟨frame, perm⟩)).lookup v =
            if v = vpn then some ⟨frame, perm⟩ else s.lookup v := by
          rw [lookup_setPte walked.present inside (by omega), walked.lookup]
        have further (v : Nat) (next : vpn + 1 ≤ v) (below : v < vpn + 1 + count) :
            (s'.setPte vpn (some ⟨frame, perm⟩)).lookup v = none := by
          rw [looked v (by omega), if_neg (by omega)]
          exact absent v (by omega) (by omega)
        rw [result]
        refine (ih (frame + 1) first.sane (by omega) (by omega) further).imp fun r rest => ⟨?_, fun done v from' below => ?_⟩
        · have all := first.then (by omega) (by omega) rest.1
          rwa [show vpn + 1 + count = vpn + (count + 1) by omega] at all
        · by_cases here : v = vpn
          · refine rest.1.keeps (by omega) ?_
            rw [looked v (by omega), if_pos here]
            rfl
          · exact rest.2 done v (by omega) (by omega)

namespace Kmap

variable (e : Kmap)

def first : Nat := e.virt / pgsize

def size : Nat := (e.physEnd + uintRange - e.physStart) % uintRange

def last : Nat := e.first + e.size / pgsize

structure Whole : Prop where
  virt : e.virt = e.first * pgsize
  size : e.size = (e.last - e.first) * pgsize
  order : e.first < e.last
  noUser : e.perm.u = false

end Kmap

theorem mappages_kernel {e : Kmap} (whole : e.Whole) (sane : Sane k pool extra m s)
    (low : userPages ≤ e.first) (high : e.last ≤ npages) (absent : ∀ v, e.first ≤ v → v < e.last → s.lookup v = none) :
    Meets (fun _ => False)
      (fun r => MapsKernel k pool extra m s e.first e.last r ∧
        (r.2.2 = true → ∀ v, e.first ≤ v → v < e.last → (r.2.1.lookup v).isSome))
      (mappages m s e.virt e.size e.physStart e.perm) := by
  have order := whole.order
  have finish : (e.virt + (e.last - e.first) * pgsize - 1) % uintRange / pgsize = e.last - 1 := by
    rw [whole.virt]
    generalize e.first = first at *
    generalize e.last = last at *
    simp only [pgsize, uintRange, npages, nentries] at *
    omega
  rw [whole.size, mappages, finish, show e.virt / pgsize = e.first from rfl,
    show e.last - 1 - e.first + 1 = e.last - e.first by omega]
  have together : e.first + (e.last - e.first) = e.last := by omega
  have all := mapLoop_kernel whole.noUser (e.last - e.first) (e.physStart / pgsize) sane low (by omega)
    (by rwa [together])
  rwa [together] at all

def Ascending : Nat → List Kmap → Prop
  | floor, [] => floor ≤ npages
  | floor, e :: rest => e.Whole ∧ floor ≤ e.first ∧ Ascending e.last rest

theorem Ascending.le {floor : Nat} {entries : List Kmap} (ascending : Ascending floor entries) : floor ≤ npages := by
  induction entries generalizing floor with
  | nil => exact ascending
  | cons e rest ih =>
      obtain ⟨whole, low, above⟩ := ascending
      have high := ih above
      have order := whole.order
      omega

theorem mapKernel_spec {floor : Nat} (entries : List Kmap) (ascending : Ascending floor entries)
    (sane : Sane k pool extra m s) (low : userPages ≤ floor)
    (absent : ∀ v, floor ≤ v → v < npages → s.lookup v = none) :
    Meets (fun _ => False)
      (fun r => MapsKernel k pool extra m s floor npages r ∧
        (r.2.2 = true → ∀ e ∈ entries, ∀ v, e.first ≤ v → v < e.last → (r.2.1.lookup v).isSome))
      (Kernel.mapKernel entries m s) := by
  induction entries generalizing floor m s with
  | nil => exact ⟨MapsKernel.nothing sane _ _, nofun⟩
  | cons e rest ih =>
      obtain ⟨whole, above, further⟩ := ascending
      have high := further.le
      have order := whole.order
      rw [Kernel.mapKernel]
      refine (mappages_kernel whole sane (by omega) high fun v from' below => absent v (by omega) (by omega)).bind ?_
      rintro ⟨m', s', done⟩ ⟨maps, present⟩
      have begins : MapsKernel k pool extra m s floor e.last (m', s', done) :=
        ⟨maps.sane, maps.data, maps.user, fun v inside => (maps.lookup v inside).imp_right fun there =>
          ⟨by omega, there.2⟩, maps.luck, maps.failed⟩
      cases done with
      | true =>
          refine (ih further maps.sane (by omega) fun v from' below => ?_).imp fun r others =>
            ⟨begins.then (by omega) high others.1, fun done entry member v from' below => ?_⟩
          · rcases maps.lookup v below with same | ⟨-, before, -⟩
            · exact same.trans (absent v (by omega) below)
            · omega
          · rcases List.mem_cons.mp member with rfl | later
            · exact others.1.keeps (by omega) (present rfl v from' below)
            · exact others.2 done entry later v from' below
      | false =>
          exact ⟨⟨maps.sane, maps.data, maps.user, fun v inside => (begins.lookup v inside).imp_right fun there =>
            ⟨there.1, by omega, there.2.2⟩, maps.luck, maps.failed⟩, nofun⟩

theorem Ascending.cons {floor : Nat} {e : Kmap} {rest : List Kmap} (first last : Nat) (virt : e.virt = first * pgsize)
    (size : e.size = (last - first) * pgsize) (order : first < last) (noUser : e.perm.u = false) (low : floor ≤ first)
    (above : Ascending last rest) : Ascending floor (e :: rest) := by
  have start : e.first = first := by
    rw [Kmap.first, virt]
    exact Nat.mul_div_cancel _ (by decide)
  have finish : e.last = last := by
    rw [Kmap.last, start, size, Nat.mul_div_cancel _ (by decide)]
    omega
  subst start finish
  exact ⟨⟨virt, size, order, noUser⟩, low, above⟩

theorem kmap_ascending (k : Kernel) : Ascending userPages k.kmap := by
  obtain ⟨data, same, bounds⟩ : ∃ data, data = k.data ∧ 256 < data ∧ data ≤ 1024 :=
    ⟨k.data, rfl, k.text, k.order.trans k.low⟩
  rw [Kernel.kmap, ← same]
  have text : kernbase + extmem = (userPages + extmem / pgsize) * pgsize := by decide
  refine .cons userPages (userPages + extmem / pgsize) (by decide) (by decide) (by decide) rfl le_rfl ?_
  refine .cons (userPages + extmem / pgsize) (userPages + data) text ?_ ?_ rfl le_rfl ?_
  · simp only [Kmap.size, extmem, userPages, kernbase, uintRange, pgsize]
    omega
  · simp only [extmem, userPages, kernbase, pgsize]
    omega
  refine .cons (userPages + data) (userPages + phystop / pgsize) ?_ ?_ ?_ rfl le_rfl ?_
  · simp only [userPages, kernbase, pgsize]
    omega
  · simp only [Kmap.size, phystop, userPages, kernbase, uintRange, pgsize]
    omega
  · simp only [phystop, userPages, kernbase, pgsize]
    omega
  exact .cons (devspace / pgsize) npages (by decide) (by decide) (by decide) rfl (by decide) le_rfl

structure SetUp (k : Kernel) (m m' : Mem) (s : Space) : Prop where
  sane : Sane k ↑m.free 0 m' s
  data : m'.data = m.data
  tables : ∀ i : Index, i.val < userEntries → s.table i = none
  kernel : ∀ v, userPages ≤ v → v < npages → ∀ pte, s.lookup v = some pte → pte.perm.u = false
  mapped : ∀ e ∈ k.kmap, ∀ v, e.first ≤ v → v < e.last → (s.lookup v).isSome
  luck : m.luck = [] → m'.luck = []

theorem SetUp.absent (setUp : SetUp k m m' s) {v : Nat} (user : v < userPages) : s.lookup v = none :=
  lookup_eq_none (setUp.tables _ (pdx_user user))

structure Released (m m' : Mem) : Prop where
  free : m'.free.Perm m.free
  data : ∀ f, f ∉ m.free → m'.data f = m.data f

theorem freevm_released {m₀ : Mem} (sane : Sane k ↑m₀.free 0 m s) (data : ∀ f, f ∉ m₀.free → m.data f = m₀.data f) :
    Meets (fun _ => False) (Released m₀) (k.freevm m s) := by
  refine (freevm_spec sane).imp fun m' post => ⟨?_, fun f used => ?_⟩
  · have total := post.1
    rw [add_zero] at total
    exact Multiset.coe_eq_coe.mp total
  · rw [post.2 f fun inside => used (sane.mem_frames inside), data f used]

theorem frames_empty (dir : Frame) : (Space.empty dir).frames = {dir} := by
  have tables : (Space.empty dir).tablePages = 0 := holding_none fun _ _ => rfl
  have users : (Space.empty dir).userFrames = 0 := holding_none fun _ _ => rfl
  rw [Space.frames, tables, users]
  rfl

theorem userFrames_none (absent : ∀ v < userPages, s.lookup v = none) : s.userFrames = 0 :=
  holding_none fun v user => by rw [absent v (Finset.mem_range.mp user), Option.map_none]

theorem card_frames_le (tables : ∀ i : Index, i.val < userEntries → s.table i = none) :
    s.frames.card ≤ 1 + userEntries := by
  have half : userEntries < nentries := by decide
  have few : s.tablePages.card ≤ userEntries := by
    have unused (i : Index) (_ : i ∈ Finset.univ) (outside : i ∉ Finset.Ici (⟨userEntries, half⟩ : Index)) :
        (s.table i).map Table.page = none := by
      rw [tables i (not_le.mp fun above => outside (Finset.mem_Ici.mpr above)), Option.map_none]
    have bound := card_holding_le unused
    rwa [Fin.card_Ici] at bound
  rw [Space.frames, userFrames_none fun v user => lookup_eq_none (tables _ (pdx_user user)), add_zero, Multiset.card_cons]
  omega

theorem SetUp.length_free (setUp : SetUp k m m' s) : m.free.length ≤ m'.free.length + (1 + userEntries) := by
  have total := congrArg Multiset.card setUp.sane.total
  have few := card_frames_le setUp.tables
  simp only [add_zero, Multiset.card_add, Multiset.coe_card] at total
  omega

theorem setupkvm_spec (nodup : m.free.Nodup) (valid : ∀ f ∈ m.free, k.Valid f) :
    Meets (fun _ => False)
      (fun r => (∃ s, r.2 = some s ∧ SetUp k m r.1 s) ∨
        r.2 = none ∧ Released m r.1 ∧ (m.luck = [] → m.free.length ≤ 1 + userEntries))
      (k.setupkvm m) := by
  rw [Kernel.setupkvm]
  rcases kalloc_cases m with ⟨luck, lucky, result⟩ | ⟨dir, free, luck, first, lucky, result⟩
  · rw [result]
    refine Or.inr ⟨rfl, ⟨List.Perm.refl _, fun _ _ => rfl⟩, fun none => ?_⟩
    rw [(lucky none).2]
    exact Nat.zero_le _
  · have start : Sane k ↑m.free 0 { m with free := free, luck := luck } (Space.empty dir) := by
      refine ⟨?_, Multiset.coe_nodup.mpr nodup, valid⟩
      rw [frames_empty, first, add_zero, add_comm, Multiset.singleton_add, Multiset.cons_coe]
    rw [result]
    dsimp only
    refine (mapKernel_spec k.kmap (kmap_ascending k) start le_rfl fun _ _ _ => rfl).bind ?_
    rintro ⟨m', s', done⟩ ⟨maps, mapped⟩
    have none (i : Index) (user : i.val < userEntries) : s'.table i = none := maps.user i user
    cases done with
    | true =>
        refine Or.inl ⟨s', rfl, maps.sane, maps.data, none, fun v low high pte found => ?_, mapped rfl,
          fun none => maps.luck (lucky none)⟩
        rcases maps.lookup v high with same | ⟨-, -, other, there, noUser⟩
        · rw [same] at found
          exact absurd found nofun
        · rw [there] at found
          exact Option.some.inj found ▸ noUser
    | false =>
        refine (freevm_released maps.sane fun f _ => by rw [maps.data]).bind fun m'' released => ?_
        refine Or.inr ⟨rfl, released, fun short => ?_⟩
        have total := congrArg Multiset.card maps.sane.total
        rw [maps.failed (lucky short) rfl] at total
        have few := card_frames_le none
        simp only [Multiset.coe_nil, add_zero, zero_add, Multiset.coe_card] at total
        omega

theorem setupkvm_lucky (nodup : m.free.Nodup) (valid : ∀ f ∈ m.free, k.Valid f) (luck : m.luck = [])
    (enough : 1 + userEntries < m.free.length) : ∃ m' s, k.setupkvm m = .ok (m', some s) ∧ SetUp k m m' s := by
  obtain ⟨⟨m', -⟩, returns, ⟨s, rfl, setUp⟩ | ⟨rfl, -, short⟩⟩ := (setupkvm_spec nodup valid).returns
  · exact ⟨m', s, returns, setUp⟩
  · have few := short luck
    omega

end OsLabs.Vm
