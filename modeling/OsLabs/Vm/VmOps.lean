import Mathlib.Algebra.BigOperators.Fin
import OsLabs.Vm.VmSpace

/-!
One specification for each function of `vm.c` that maps or unmaps pages. None of them panics on a sane space, and
each says what the space maps afterwards and which bytes have changed.
-/

namespace OsLabs.Vm

open Function ByteField Holdings Outcomes

variable {k : Kernel} {pool extra : Multiset Frame} {m m' : Mem} {s s' : Space} {vpn : Nat}

structure Walked (m : Mem) (s : Space) (vpn : Nat) (m' : Mem) (s' : Space) : Prop where
  data : m'.data = m.data
  free : ∀ f ∈ m'.free, f ∈ m.free
  present : (s'.table (pdx vpn)).isSome
  lookup : ∀ v, s'.lookup v = s.lookup v
  dir : s'.dir = s.dir
  tables : ∀ i, (s.table i).isSome → (s'.table i).isSome
  others : ∀ i, i ≠ pdx vpn → s'.table i = s.table i
  luck : m.luck = [] → m'.luck = []
  few : m.free.length ≤ m'.free.length + 1
  sane : ∀ k pool extra, Sane k pool extra m s → Sane k pool extra m' s'

theorem walk_spec (s : Space) (m : Mem) (vpn : Nat) :
    (∃ luck, (m.luck = [] → luck = [] ∧ m.free = []) ∧ s.walkpgdir m vpn = ({ m with luck := luck }, none)) ∨
      ∃ m' s', s.walkpgdir m vpn = (m', some s') ∧ Walked m s vpn m' s' := by
  rcases walk_cases s m vpn with
    ⟨present, result⟩ | ⟨missing, ⟨luck, lucky, result⟩ | ⟨f, free, luck, first, lucky, result⟩⟩
  · exact Or.inr ⟨m, s, result, rfl, fun _ free => free, present, fun _ => rfl, rfl, fun _ some => some, fun _ _ => rfl,
      fun lucky => lucky, Nat.le_succ _, fun _ _ _ sane => sane⟩
  · exact Or.inl ⟨luck, lucky, result⟩
  · refine Or.inr ⟨_, _, result, rfl, ?_, ?_, lookup_addTable missing f, rfl, fun i some => isSome_addTable f some,
      fun i differ => table_addTable_of_ne differ f, lucky, by rw [first]; exact le_rfl, fun k pool extra sane => ?_⟩
    · intro other member
      rw [first]
      exact List.mem_cons_of_mem _ member
    · rw [table_addTable_self]
      rfl
    · have taken := sane.kalloc first luck
      refine ⟨?_, sane.nodup, sane.valid⟩
      rw [← taken.total, frames_addTable missing, Multiset.add_cons, Multiset.add_cons, Multiset.cons_add]

theorem mapLoop_succ (perm : Perm) (count : Nat) (frame : Frame) (absent : s.lookup vpn = none) :
    (∃ luck, (m.luck = [] → luck = [] ∧ m.free = []) ∧
        mapLoop perm (count + 1) vpn frame m s = .ok ({ m with luck := luck }, s, false)) ∨
      ∃ m' s', Walked m s vpn m' s' ∧ mapLoop perm (count + 1) vpn frame m s =
        mapLoop perm count (vpn + 1) (frame + 1) m' (s'.setPte vpn (some ⟨frame, perm⟩)) := by
  rcases walk_spec s m vpn with ⟨luck, lucky, result⟩ | ⟨m', s', result, walked⟩
  · exact Or.inl ⟨luck, lucky, by rw [mapLoop, result]; rfl⟩
  · refine Or.inr ⟨m', s', walked, ?_⟩
    rw [mapLoop, result]
    dsimp only
    rw [walked.lookup, absent, Option.isSome_none, if_neg Bool.false_ne_true]

structure MapsUser (k : Kernel) (pool extra : Multiset Frame) (m : Mem) (s : Space) (vpn : Nat) (pte : Pte)
    (result : Mem × Space × Bool) : Prop where
  data : result.1.data = m.data
  free : ∀ f ∈ result.1.free, f ∈ m.free
  kept : Kept s result.2.1
  done : result.2.2 = true → Sane k pool extra result.1 result.2.1 ∧
    ∀ v < npages, result.2.1.lookup v = if v = vpn then some pte else s.lookup v
  failed : result.2.2 = false → result.2.1 = s ∧ Sane k pool (pte.frame ::ₘ extra) result.1 s
  luck : m.luck = [] → result.1.luck = [] ∧ (result.2.2 = false → m.free = [])
  few : m.free.length ≤ result.1.free.length + 1

theorem mappages_single (user : vpn < userPages) (frame : Frame) (perm : Perm) :
    mappages m s (vpn * pgsize) pgsize (frame * pgsize) perm = mapLoop perm 1 vpn frame m s := by
  have last : (vpn * pgsize + pgsize - 1) % uintRange / pgsize = vpn := by
    simp only [userPages, kernbase, pgsize, uintRange] at *
    omega
  rw [mappages, last, Nat.mul_div_cancel _ (by decide), Nat.mul_div_cancel _ (by decide), Nat.sub_self]

theorem mappages_user {frame : Frame} (sane : Sane k pool (frame ::ₘ extra) m s) (user : vpn < userPages)
    (absent : s.lookup vpn = none) (perm : Perm) :
    Meets (fun _ => False) (MapsUser k pool extra m s vpn ⟨frame, perm⟩)
      (mappages m s (vpn * pgsize) pgsize (frame * pgsize) perm) := by
  rw [mappages_single user]
  rcases mapLoop_succ (m := m) perm 0 frame absent with ⟨luck, lucky, result⟩ | ⟨m', s', walked, result⟩
  · rw [result]
    exact ⟨rfl, fun _ free => free, Kept.refl s, nofun, fun _ => ⟨rfl, sane.of_free rfl⟩,
      fun none => ⟨(lucky none).1, fun _ => (lucky none).2⟩, Nat.le_succ _⟩
  · rw [result, mapLoop]
    have inside := userPages_lt user
    have looked (v : Nat) (bound : v < npages) :
        (s'.setPte vpn (some ⟨frame, perm⟩)).lookup v = if v = vpn then some ⟨frame, perm⟩ else s.lookup v := by
      rw [lookup_setPte walked.present bound inside, walked.lookup]
    refine ⟨walked.data, walked.free, ⟨?_, fun i some => ?_, fun v low high => ?_⟩, fun _ => ⟨?_, looked⟩, nofun,
      fun none => ⟨walked.luck none, nofun⟩, walked.few⟩
    · rw [dir_setPte, walked.dir]
    · rw [isSome_setPte]
      exact walked.tables i some
    · rw [looked v high, if_neg (by omega)]
    · have moved := walked.sane k pool _ sane
      refine ⟨?_, sane.nodup, sane.valid⟩
      rw [← moved.total, frames_put walked.present user (by rw [walked.lookup, absent]), Multiset.add_cons,
        Multiset.add_cons, Multiset.cons_add]

structure Unmaps (k : Kernel) (pool extra : Multiset Frame) (m : Mem) (s : Space) (first last : Nat)
    (result : Mem × Space) : Prop where
  sane : Sane k pool extra result.1 result.2
  kept : Kept s result.2
  free : ∀ f ∈ m.free, f ∈ result.1.free
  lookup : ∀ v < npages, result.2.lookup v = if first ≤ v ∧ v < last then none else s.lookup v
  data : ∀ f, (∀ v, first ≤ v → v < last → ∀ pte, s.lookup v = some pte → pte.frame ≠ f) →
    result.1.data f = m.data f

theorem Unmaps.nothing {first last : Nat} (sane : Sane k pool extra m s)
    (absent : ∀ v, first ≤ v → v < last → s.lookup v = none) : Unmaps k pool extra m s first last (m, s) := by
  refine ⟨sane, Kept.refl s, fun _ free => free, fun v _ => ?_, fun _ _ => rfl⟩
  by_cases inside : first ≤ v ∧ v < last
  · rw [if_pos inside, absent v inside.1 inside.2]
  · rw [if_neg inside]

theorem Unmaps.skip {first next last : Nat} {result : Mem × Space} (unmaps : Unmaps k pool extra m s next last result)
    (forward : first ≤ next) (absent : ∀ v, first ≤ v → v < next → s.lookup v = none) :
    Unmaps k pool extra m s first last result := by
  refine ⟨unmaps.sane, unmaps.kept, unmaps.free, fun v bound => ?_, fun f apart => ?_⟩
  · rw [unmaps.lookup v bound]
    by_cases skipped : first ≤ v ∧ v < next
    · rw [absent v skipped.1 skipped.2, ite_self, ite_self]
    · congr 1
      simp only [eq_iff_iff]
      omega
  · exact unmaps.data f fun v low high => apart v (by omega) high

theorem pdx_val (vpn : Nat) : (pdx vpn).val = vpn / nentries % nentries := rfl

theorem lt_next_table (inside : vpn < npages) : vpn < ((pdx vpn).val + 1) * nentries := by
  have small : vpn / nentries < nentries := Nat.div_lt_of_lt_mul inside
  rw [pdx_val, Nat.mod_eq_of_lt small]
  simp only [nentries]
  omega

theorem pdx_of_lt_next_table {v : Nat} (inside : vpn < npages) (low : vpn ≤ v)
    (high : v < ((pdx vpn).val + 1) * nentries) : pdx v = pdx vpn := by
  have small : vpn / nentries < nentries := Nat.div_lt_of_lt_mul inside
  rw [pdx_val, Nat.mod_eq_of_lt small] at high
  apply Fin.ext
  rw [pdx_val, pdx_val]
  simp only [nentries] at *
  omega

theorem lt_pages_iff {sz n : Nat} : n < pages sz ↔ n * pgsize < sz := by
  simp only [pages, pgsize]
  omega

theorem pages_mono {a b : Nat} (le : a ≤ b) : pages a ≤ pages b := by
  simp only [pages, pgsize]
  omega

theorem Unmaps.one {last : Nat} {result : Mem × Space} {pte : Pte} (user : vpn < userPages)
    (found : s.lookup vpn = some pte) (below : vpn < last) (bound : last ≤ userPages)
    (unmaps : Unmaps k pool extra { m.memset pte.frame 1 with free := pte.frame :: m.free } (s.setPte vpn none)
      (vpn + 1) last result) : Unmaps k pool extra m s vpn last result := by
  have table := table_of_lookup found
  have inside := userPages_lt user
  have looked {v : Nat} (bound : v < npages) :
      (s.setPte vpn none).lookup v = if v = vpn then none else s.lookup v := lookup_setPte table bound inside
  refine ⟨unmaps.sane, ?_, fun f free => unmaps.free f (List.mem_cons_of_mem _ free), fun v bound => ?_,
    fun f apart => ?_⟩
  · refine Kept.trans ⟨dir_setPte s vpn none, fun i some => ?_, fun v low high => ?_⟩ unmaps.kept
    · rw [isSome_setPte]
      exact some
    · rw [looked high, if_neg (by omega)]
  · rw [unmaps.lookup v bound, looked bound]
    by_cases here : v = vpn
    · rw [if_pos here, ite_self, if_pos (by omega)]
    · rw [if_neg here]
      congr 1
      simp only [eq_iff_iff]
      omega
  · have differs := apart vpn le_rfl below pte found
    rw [unmaps.data f fun v low high other there => ?_]
    · exact update_of_ne (Ne.symm differs) _ _
    · rw [looked (userPages_lt (by omega)), if_neg (by omega)] at there
      exact apart v (by omega) high other there

theorem deallocLoop_spec {oldsz : Nat} (user : pages oldsz ≤ userPages) (fuel : Nat) (sane : Sane k pool extra m s)
    (enough : pages oldsz - vpn + 1 ≤ fuel) :
    Meets (fun _ => False) (Unmaps k pool extra m s vpn (pages oldsz)) (k.deallocLoop oldsz fuel vpn m s) := by
  induction fuel generalizing vpn m s with
  | zero => exact absurd enough (Nat.not_succ_le_zero _)
  | succ fuel ih =>
      rw [Kernel.deallocLoop]
      by_cases more : vpn < pages oldsz
      · rw [if_pos (lt_pages_iff.mp more)]
        have inside := userPages_lt (lt_of_lt_of_le more user)
        cases table : s.table (pdx vpn) with
        | none =>
            have next := lt_next_table inside
            refine (ih sane (by omega)).imp fun result unmaps => unmaps.skip next.le fun v low high => ?_
            exact lookup_eq_none (pdx_of_lt_next_table inside low high ▸ table)
        | some t =>
            cases entry : t.pte (ptx vpn) with
            | none =>
                dsimp only
                rw [entry]
                refine (ih sane (by omega)).imp fun result unmaps => unmaps.skip (by omega) fun v low high => ?_
                obtain rfl : v = vpn := by omega
                rw [lookup_eq table, entry]
            | some pte =>
                have found : s.lookup vpn = some pte := by rw [lookup_eq table, entry]
                have users := lt_of_lt_of_le more user
                have taken : Sane k pool (pte.frame ::ₘ extra) m (s.setPte vpn none) := by
                  refine ⟨?_, sane.nodup, sane.valid⟩
                  rw [← sane.total, frames_remove users found, Multiset.add_cons, Multiset.add_cons, Multiset.cons_add]
                obtain ⟨freed, sane'⟩ := taken.kfree
                have valid := sane.valid _ (sane.mem_frames (Sane.frame_mem users found))
                dsimp only
                rw [entry]
                dsimp only
                rw [if_neg valid.ne_zero, freed, ok_bind]
                exact (ih sane' (by omega)).imp fun result unmaps => unmaps.one users found more user
      · rw [if_neg fun low => more (lt_pages_iff.mpr low)]
        exact Unmaps.nothing sane fun v low high => by omega

theorem deallocuvm_spec {oldsz newsz : Nat} (user : pages oldsz ≤ userPages) (sane : Sane k pool extra m s) :
    Meets (fun _ => False)
      (fun r => Unmaps k pool extra m s (pages newsz) (pages oldsz) (r.1, r.2.1) ∧ r.2.2 = min oldsz newsz)
      (k.deallocuvm m s oldsz newsz) := by
  rw [Kernel.deallocuvm]
  by_cases larger : oldsz ≤ newsz
  · have order := pages_mono larger
    rw [if_pos larger]
    exact ⟨Unmaps.nothing sane fun v low high => by omega, (Nat.min_eq_left larger).symm⟩
  · rw [if_neg larger]
    refine (deallocLoop_spec user _ sane le_rfl).bind fun result unmaps => ?_
    exact ⟨unmaps, by dsimp only; omega⟩

structure Grows (k : Kernel) (pool extra : Multiset Frame) (m : Mem) (s : Space) (first last : Nat)
    (result : Mem × Space) : Prop where
  sane : Sane k pool extra result.1 result.2
  kept : Kept s result.2
  lookup : ∀ v < npages, ¬(first ≤ v ∧ v < last) → result.2.lookup v = s.lookup v
  fresh : ∀ v, first ≤ v → v < last →
    ∃ f ∈ m.free, result.2.lookup v = some ⟨f, ⟨true, true⟩⟩ ∧ result.1.data f = fun _ => 0
  free : ∀ f ∈ result.1.free, f ∈ m.free
  data : ∀ f, f ∉ m.free → result.1.data f = m.data f
  inside : ∀ f, f ∉ result.2.frames → result.1.data f = m.data f
  luck : m.luck = [] → result.1.luck = []
  few : m.free.length ≤ result.1.free.length + 2 * (last - first)

structure Undoes (k : Kernel) (pool extra : Multiset Frame) (m : Mem) (s : Space) (first last : Nat)
    (result : Mem × Space) : Prop where
  sane : Sane k pool extra result.1 result.2
  kept : Kept s result.2
  lookup : ∀ v < npages, result.2.lookup v = if first ≤ v ∧ v < last then none else s.lookup v
  data : ∀ f, f ∉ m.free → (∀ v, first ≤ v → v < last → ∀ pte, s.lookup v = some pte → pte.frame ≠ f) →
    result.1.data f = m.data f

structure Puts (m : Mem) (s : Space) (vpn : Nat) (mem : Frame) (m' : Mem) (s' : Space) : Prop where
  taken : mem ∈ m.free
  user : vpn < userPages
  absent : s.lookup vpn = none
  free : ∀ f ∈ m'.free, f ∈ m.free
  kept : Kept s s'
  lookup : ∀ v < npages, s'.lookup v = if v = vpn then some ⟨mem, ⟨true, true⟩⟩ else s.lookup v
  zero : m'.data mem = fun _ => 0
  data : ∀ f, f ≠ mem → m'.data f = m.data f
  luck : m.luck = [] → m'.luck = []
  few : m.free.length ≤ m'.free.length + 2

theorem Puts.grows {mem : Frame} {last : Nat} {result : Mem × Space} (puts : Puts m s vpn mem m' s') (below : vpn < last)
    (sane : Sane k pool extra m' s') (grows : Grows k pool extra m' s' (vpn + 1) last result) :
    Grows k pool extra m s vpn last result := by
  have user := userPages_lt puts.user
  have here : result.2.lookup vpn = some ⟨mem, ⟨true, true⟩⟩ := by
    rw [grows.lookup vpn user (by omega), puts.lookup vpn user, if_pos rfl]
  have held : mem ∈ s'.frames := Sane.frame_mem puts.user (by rw [puts.lookup vpn user, if_pos rfl])
  have held' : mem ∈ result.2.frames := Sane.frame_mem puts.user here
  refine ⟨grows.sane, puts.kept.trans grows.kept, fun v bound outside => ?_, fun v low high => ?_,
    fun f free => puts.free f (grows.free f free), fun f used => ?_, fun f outside => ?_,
    fun lucky => grows.luck (puts.luck lucky), ?_⟩
  · rw [grows.lookup v bound (by omega), puts.lookup v bound, if_neg (by omega)]
  · by_cases same : v = vpn
    · rw [same]
      exact ⟨mem, puts.taken, here, by rw [grows.data mem (sane.not_free held), puts.zero]⟩
    · obtain ⟨f, free, found, zero⟩ := grows.fresh v (by omega) high
      exact ⟨f, puts.free f free, found, zero⟩
  · rw [grows.data f fun free => used (puts.free f free), puts.data f]
    rintro rfl
    exact used puts.taken
  · rw [grows.inside f outside, puts.data f]
    rintro rfl
    exact outside held'
  · have first := puts.few
    have rest := grows.few
    omega

theorem Puts.undoes {mem : Frame} {first last : Nat} {result : Mem × Space} (puts : Puts m s vpn mem m' s')
    (low : first ≤ vpn) (high : vpn < last) (bound : last ≤ userPages)
    (undoes : Undoes k pool extra m' s' first last result) : Undoes k pool extra m s first last result := by
  refine ⟨undoes.sane, puts.kept.trans undoes.kept, fun v inside => ?_, fun f used apart => ?_⟩
  · rw [undoes.lookup v inside, puts.lookup v inside]
    by_cases same : v = vpn
    · rw [if_pos ⟨same ▸ low, same ▸ high⟩, if_pos ⟨same ▸ low, same ▸ high⟩]
    · rw [if_neg same]
  · have differs : f ≠ mem := by
      rintro rfl
      exact used puts.taken
    rw [undoes.data f (fun free => used (puts.free f free)) fun v low' high' pte found => ?_, puts.data f differs]
    rw [puts.lookup v (userPages_lt (by omega))] at found
    by_cases same : v = vpn
    · rw [if_pos same] at found
      obtain rfl := Option.some.inj found
      exact Ne.symm differs
    · rw [if_neg same] at found
      exact apart v low' high' pte found

theorem Unmaps.undoes {luck : List Bool} {first last : Nat} {result : Mem × Space}
    (unmaps : Unmaps k pool extra { m with luck := luck } s first last result) :
    Undoes k pool extra m s first last result :=
  ⟨unmaps.sane, unmaps.kept, unmaps.lookup, fun f _ apart => unmaps.data f apart⟩

def Allocates (k : Kernel) (pool extra : Multiset Frame) (m : Mem) (s : Space) (oldsz newsz vpn : Nat)
    (r : Mem × Space × Nat) : Prop :=
  r.2.2 = newsz ∧ Grows k pool extra m s vpn (pages newsz) (r.1, r.2.1) ∨
    r.2.2 = 0 ∧ Undoes k pool extra m s (pages oldsz) (pages newsz) (r.1, r.2.1) ∧
      (m.luck = [] → m.free.length < 2 * (pages newsz - vpn))

theorem allocLoop_spec {oldsz newsz : Nat} (user : pages newsz ≤ userPages) (count : Nat) (low : pages oldsz ≤ vpn)
    (last : vpn + count = pages newsz) (sane : Sane k pool extra m s)
    (absent : ∀ v, vpn ≤ v → v < pages newsz → s.lookup v = none) :
    Meets (fun _ => False) (Allocates k pool extra m s oldsz newsz vpn) (k.allocLoop oldsz newsz count vpn m s) := by
  induction count generalizing vpn m s with
  | zero =>
      refine Or.inl ⟨rfl, sane, Kept.refl s, fun _ _ _ => rfl, fun v low high => ?_, fun _ free => free,
        fun _ _ => rfl, fun _ _ => rfl, fun lucky => lucky, Nat.le_add_right _ _⟩
      omega
  | succ count ih =>
      have users : vpn < userPages := by omega
      have here : s.lookup vpn = none := absent vpn le_rfl (by omega)
      rw [Kernel.allocLoop]
      rcases kalloc_cases m with ⟨luck, lucky, result⟩ | ⟨mem, free, luck, first, lucky, result⟩
      · have same : Sane k pool extra { m with luck := luck } s := sane.of_free rfl
        rw [result]
        dsimp only
        refine (deallocuvm_spec user same).bind fun r post => ?_
        refine Or.inr ⟨rfl, post.1.undoes, fun none => ?_⟩
        rw [(lucky none).2, List.length_nil]
        omega
      · have taken : Sane k pool (mem ::ₘ extra) (Mem.memset { m with free := free, luck := luck } mem 0) s :=
          (sane.kalloc first luck).of_free rfl
        have member : mem ∈ m.free := first ▸ List.mem_cons_self
        rw [result]
        dsimp only
        refine (mappages_user taken users here ⟨true, true⟩).bind ?_
        rintro ⟨m', s', done⟩ maps
        have others (f : Frame) (differ : f ≠ mem) : m'.data f = m.data f := by
          rw [maps.data]
          exact update_of_ne differ _ _
        cases done with
        | true =>
            obtain ⟨sane', looked⟩ := maps.done rfl
            have puts : Puts m s vpn mem m' s' := by
              refine ⟨member, users, here, fun f inside => ?_, maps.kept, looked, ?_, others,
                fun none => (maps.luck (lucky none)).1, ?_⟩
              · exact first ▸ List.mem_cons_of_mem _ (maps.free f inside)
              · rw [maps.data]
                exact update_self ..
              · rw [first, List.length_cons]
                exact Nat.succ_le_succ maps.few
            refine (ih (by omega) (by omega) sane' fun v low high => ?_).imp ?_
            · rw [looked v (userPages_lt (by omega)), if_neg (by omega)]
              exact absent v (by omega) high
            · rintro r (⟨size, grows⟩ | ⟨failed, undoes, short⟩)
              · exact Or.inl ⟨size, puts.grows (by omega) sane' grows⟩
              · refine Or.inr ⟨failed, puts.undoes (by omega) (by omega) user undoes, fun none => ?_⟩
                have left : m'.free.length < 2 * (pages newsz - (vpn + 1)) := short (puts.luck none)
                have few := puts.few
                omega
        | false =>
            obtain ⟨same, held⟩ := maps.failed rfl
            obtain rfl : s' = s := same
            rw [if_neg Bool.false_ne_true]
            refine (deallocuvm_spec user held).bind ?_
            rintro ⟨m'', s'', size⟩ ⟨unmaps, -⟩
            obtain ⟨freed, sane'⟩ := unmaps.sane.kfree
            dsimp only at freed sane' ⊢
            rw [freed, ok_bind]
            refine Or.inr ⟨rfl, ⟨sane', unmaps.kept, unmaps.lookup, fun f used apart => ?_⟩, fun none => ?_⟩
            swap
            · have empty : free = [] := (maps.luck (lucky none)).2 rfl
              rw [first, empty, List.length_singleton]
              omega
            have differs : f ≠ mem := by
              rintro rfl
              exact used member
            rw [← others f differs, ← unmaps.data f apart]
            exact update_of_ne differs _ _

structure Unchanged (k : Kernel) (pool extra : Multiset Frame) (m : Mem) (s : Space) (result : Mem × Space) : Prop where
  sane : Sane k pool extra result.1 result.2
  kept : Kept s result.2
  lookup : ∀ v < npages, result.2.lookup v = s.lookup v
  data : ∀ f, f ∉ m.free → result.1.data f = m.data f

theorem Undoes.unchanged {first last : Nat} {result : Mem × Space} (undoes : Undoes k pool extra m s first last result)
    (absent : ∀ v, first ≤ v → v < last → s.lookup v = none) : Unchanged k pool extra m s result := by
  refine ⟨undoes.sane, undoes.kept, fun v bound => ?_, fun f used => undoes.data f used fun v low high pte found => ?_⟩
  · rw [undoes.lookup v bound]
    by_cases inside : first ≤ v ∧ v < last
    · rw [if_pos inside, absent v inside.1 inside.2]
    · rw [if_neg inside]
  · rw [absent v low high] at found
    exact absurd found (by simp)

theorem pages_le_userPages {sz : Nat} (below : sz ≤ kernbase) : pages sz ≤ userPages := by
  simp only [pages, userPages, kernbase, pgsize] at *
  omega

theorem allocuvm_spec {oldsz newsz : Nat} (sane : Sane k pool extra m s)
    (absent : ∀ v, pages oldsz ≤ v → v < userPages → s.lookup v = none) :
    Meets (fun _ => False)
      (fun r => (r.2.2 = newsz ∧ newsz < kernbase ∧ oldsz ≤ newsz ∧
          Grows k pool extra m s (pages oldsz) (pages newsz) (r.1, r.2.1)) ∨
        (r = (m, s, oldsz) ∧ newsz < oldsz ∧ newsz < kernbase) ∨
        (r.2.2 = 0 ∧ Unchanged k pool extra m s (r.1, r.2.1) ∧
          (m.luck = [] → kernbase ≤ newsz ∨ m.free.length < 2 * (pages newsz - pages oldsz))))
      (k.allocuvm m s oldsz newsz) := by
  rw [Kernel.allocuvm]
  by_cases high : kernbase ≤ newsz
  · rw [if_pos high]
    exact Or.inr (Or.inr ⟨rfl, ⟨sane, Kept.refl s, fun _ _ => rfl, fun _ _ => rfl⟩, fun _ => Or.inl high⟩)
  · rw [if_neg high]
    by_cases smaller : newsz < oldsz
    · rw [if_pos smaller]
      exact Or.inr (Or.inl ⟨rfl, smaller, by omega⟩)
    · have user : pages newsz ≤ userPages := pages_le_userPages (by omega)
      have order : pages oldsz ≤ pages newsz := pages_mono (by omega)
      have gone (v : Nat) (low : pages oldsz ≤ v) (below : v < pages newsz) : s.lookup v = none :=
        absent v low (by omega)
      rw [if_neg smaller]
      refine (allocLoop_spec user _ le_rfl (by omega) sane gone).imp ?_
      rintro r (⟨size, grows⟩ | ⟨failed, undoes, short⟩)
      · exact Or.inl ⟨size, by omega, by omega, grows⟩
      · exact Or.inr (Or.inr ⟨failed, undoes.unchanged gone, fun none => Or.inr (short none)⟩)

section Freevm

theorem Unmaps.frames_sub {first last : Nat} {result : Mem × Space} (unmaps : Unmaps k pool extra m s first last result)
    (sane : Sane k pool extra m s) {f : Frame} (inside : f ∈ result.2.frames) : f ∈ s.frames := by
  have member := unmaps.sane.mem_frames inside
  rw [← sane.total, Multiset.mem_add, Multiset.mem_add] at member
  rcases member with (free | held) | there
  · exact absurd (unmaps.free f free) (unmaps.sane.not_free inside)
  · exact absurd held (unmaps.sane.not_extra inside)
  · exact there

def tablesLeft (s : Space) (items : List Index) : Multiset Frame :=
  (items.map fun i => held ((s.table i).map Table.page)).sum

theorem tablesLeft_nil (s : Space) : tablesLeft s [] = 0 :=
  rfl

theorem tablesLeft_cons (s : Space) (i : Index) (rest : List Index) :
    tablesLeft s (i :: rest) = held ((s.table i).map Table.page) + tablesLeft s rest := by
  rw [tablesLeft, List.map_cons, List.sum_cons, tablesLeft]

theorem page_mem_frames {i : Index} {t : Table} (found : s.table i = some t) : t.page ∈ s.frames := by
  rw [Space.frames, Multiset.mem_cons, Multiset.mem_add, Space.tablePages, mem_holding]
  exact Or.inr (Or.inl ⟨i, Finset.mem_univ i, by rw [found, Option.map_some]⟩)

theorem tablesLeft_entries (s : Space) : tablesLeft s Kernel.entries = s.tablePages := by
  rw [tablesLeft, Space.tablePages, holding, Fin.sum_univ_def]
  unfold Kernel.entries
  rfl

structure Freeing (k : Kernel) (pool extra owned : Multiset Frame) (data : Frame → Bytes) (s : Space)
    (items : List Index) (m : Mem) : Prop where
  total : ↑m.free + extra + (s.dir ::ₘ tablesLeft s items) = pool
  valid : ∀ f ∈ pool, k.Valid f
  owns : ∀ f ∈ s.frames, f ∈ owned
  same : ∀ f, f ∉ owned → m.data f = data f

theorem Freeing.round {owned : Multiset Frame} {data : Frame → Bytes} {i : Index} {rest : List Index}
    (freeing : Freeing k pool extra owned data s (i :: rest) m) :
    Meets (fun _ => False) (Freeing k pool extra owned data s rest) (k.freeTable s m i) := by
  obtain ⟨total, valid, owns, same⟩ := freeing
  rw [Kernel.freeTable]
  rw [tablesLeft_cons] at total
  cases table : s.table i with
  | none =>
      rw [table, Option.map_none, held_none, zero_add] at total
      exact ⟨total, valid, owns, same⟩
  | some t =>
      rw [table, Option.map_some, held_some, Multiset.singleton_add] at total
      have member : t.page ∈ pool := by
        rw [← total]
        simp
      dsimp only
      rw [kfree_of_valid (valid _ member)]
      refine ⟨?_, valid, owns, fun f outside => ?_⟩
      · rw [← total, ← Multiset.cons_coe, Multiset.cons_swap s.dir, Multiset.add_cons t.page, Multiset.cons_add,
          Multiset.cons_add]
      · rw [← same f outside]
        refine update_of_ne ?_ _ _
        rintro rfl
        exact outside (owns _ (page_mem_frames table))

theorem Freeing.all {owned : Multiset Frame} {data : Frame → Bytes} {items : List Index}
    (freeing : Freeing k pool extra owned data s items m) :
    Meets (fun _ => False) (Freeing k pool extra owned data s []) (items.foldlM (fun m i => k.freeTable s m i) m) :=
  Meets.foldlM (fun _ _ _ current => current.round) freeing

theorem freevm_spec (sane : Sane k pool extra m s) :
    Meets (fun _ => False)
      (fun m' => ↑m'.free + extra = pool ∧ ∀ f, f ∉ s.frames → m'.data f = m.data f) (k.freevm m s) := by
  rw [Kernel.freevm]
  have whole : pages kernbase = userPages := by decide
  refine (deallocuvm_spec whole.le sane).bind ?_
  rintro ⟨m', s', size⟩ post
  have unmaps := post.1
  have users : s'.userFrames = 0 := by
    rw [Space.userFrames]
    refine holding_none fun v user => ?_
    have low : pages 0 = 0 := by decide
    rw [unmaps.lookup v (userPages_lt (Finset.mem_range.mp user)), whole, low,
      if_pos ⟨Nat.zero_le v, Finset.mem_range.mp user⟩, Option.map_none]
  have start : Freeing k pool extra s.frames m.data s' Kernel.entries m' := by
    refine ⟨?_, sane.valid, fun f inside => unmaps.frames_sub sane inside, fun f outside => ?_⟩
    · rw [tablesLeft_entries, ← unmaps.sane.total, Space.frames, users, add_zero]
    · refine unmaps.data f fun v low high pte found equal => ?_
      rw [whole] at high
      rw [← equal] at outside
      exact outside (Sane.frame_mem high found)
  dsimp only
  refine start.all.bind ?_
  rintro m'' ⟨total, valid, owns, same⟩
  have member : s'.dir ∈ pool := by
    rw [← total]
    simp
  rw [kfree_of_valid (valid _ member)]
  refine ⟨?_, fun f outside => ?_⟩
  · rw [← total, tablesLeft_nil, ← Multiset.cons_coe, Multiset.add_cons, Multiset.cons_add, add_zero]
  · rw [← same f outside]
    refine update_of_ne ?_ _ _
    rintro rfl
    exact outside (owns _ (Multiset.mem_cons_self _ _))

end Freevm

end OsLabs.Vm
