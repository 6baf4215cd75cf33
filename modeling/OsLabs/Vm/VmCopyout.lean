import OsLabs.Vm.VmFork

/-!
`copyout`, for every directory that `setupkvm`, `allocuvm` and `clearpteu` can build. It writes to pages of the user
only, but `uva2ka` follows the entry that `walkpgdir` gives without looking whether there is one.
-/

namespace OsLabs.Vm

open Function ByteField Holdings Outcomes

variable {k : Kernel} {pool extra : Multiset Frame} {m m' : Mem} {s s' : Space} {vpn va : Nat} {buf : List Byte}

section Built

/-- The directories that the three functions build, each called with a memory that is sane for the directory. -/
inductive Built (k : Kernel) : Space → Prop
  | setupkvm {m m' : Mem} {s : Space} (nodup : m.free.Nodup) (valid : ∀ f ∈ m.free, k.Valid f)
      (returns : k.setupkvm m = .ok (m', some s)) : Built k s
  | allocuvm {pool extra : Multiset Frame} {m m' : Mem} {s s' : Space} {oldsz newsz size : Nat} (built : Built k s)
      (sane : Sane k pool extra m s) (returns : k.allocuvm m s oldsz newsz = .ok (m', s', size)) : Built k s'
  | clearpteu {s s' : Space} {vpn : Nat} (built : Built k s) (bound : vpn < npages)
      (returns : clearpteu s vpn = .ok s') : Built k s'

structure Guarded (s : Space) : Prop where
  nodup : s.frames.Nodup
  kernel : ∀ v, userPages ≤ v → v < npages → ∀ pte, s.lookup v = some pte → pte.perm.u = false

theorem Sane.guarded (sane : Sane k pool extra m s')
    (kernel : ∀ v, userPages ≤ v → v < npages → ∀ pte, s'.lookup v = some pte → pte.perm.u = false) : Guarded s' := by
  have nodup := sane.nodup
  rw [← sane.total, Multiset.nodup_add] at nodup
  exact ⟨nodup.2.1, kernel⟩

theorem mappages_present {perm : Perm} {frame : Frame} {pte : Pte} (user : vpn < userPages)
    (found : s.lookup vpn = some pte) :
    mappages m s (vpn * pgsize) pgsize (frame * pgsize) perm = .error (.panic "remap") := by
  obtain ⟨t, table⟩ := Option.isSome_iff_exists.mp (table_of_lookup found)
  rw [mappages_single user, mapLoop, Space.walkpgdir, table]
  dsimp only
  rw [found, Option.isSome_some, if_pos rfl]

theorem allocLoop_keeps {oldsz newsz : Nat} (user : pages newsz ≤ userPages) (count : Nat)
    (last : vpn + count ≤ pages newsz) (sane : Sane k pool extra m s) :
    Meets (fun _ => True) (fun r => Sane k pool extra r.1 r.2.1 ∧ Kept s r.2.1)
      (k.allocLoop oldsz newsz count vpn m s) := by
  induction count generalizing vpn m s with
  | zero => exact ⟨sane, Kept.refl s⟩
  | succ count ih =>
      have users : vpn < userPages := by omega
      rw [Kernel.allocLoop]
      rcases kalloc_cases m with ⟨luck, -, result⟩ | ⟨mem, free, luck, first, -, result⟩
      · have same : Sane k pool extra { m with luck := luck } s := sane.of_free rfl
        rw [result]
        dsimp only
        exact ((deallocuvm_spec user same).sure).bind fun r post => ⟨post.1.sane, post.1.kept⟩
      · have taken : Sane k pool (mem ::ₘ extra) (Mem.memset { m with free := free, luck := luck } mem 0) s :=
          (sane.kalloc first luck).of_free rfl
        rw [result]
        dsimp only
        cases found : s.lookup vpn with
        | some pte =>
            rw [mappages_present users found]
            exact trivial
        | none =>
            refine ((mappages_user taken users found ⟨true, true⟩).sure).bind ?_
            rintro ⟨m', s', done⟩ maps
            cases done with
            | true =>
                refine (ih (by omega) (maps.done rfl).1).imp fun r post => ⟨post.1, maps.kept.trans post.2⟩
            | false =>
                obtain ⟨rfl, held⟩ := maps.failed rfl
                rw [if_neg Bool.false_ne_true]
                refine ((deallocuvm_spec user held).sure).bind fun r post => ?_
                obtain ⟨freed, sane'⟩ := post.1.sane.kfree
                dsimp only at freed sane' ⊢
                rw [freed, ok_bind]
                exact ⟨sane', post.1.kept⟩

theorem allocuvm_keeps (oldsz newsz : Nat) (sane : Sane k pool extra m s) :
    Meets (fun _ => True) (fun r => Sane k pool extra r.1 r.2.1 ∧ Kept s r.2.1) (k.allocuvm m s oldsz newsz) := by
  rw [Kernel.allocuvm]
  by_cases high : kernbase ≤ newsz
  · rw [if_pos high]
    exact ⟨sane, Kept.refl s⟩
  · rw [if_neg high]
    by_cases smaller : newsz < oldsz
    · rw [if_pos smaller]
      exact ⟨sane, Kept.refl s⟩
    · have order : pages oldsz ≤ pages newsz := pages_mono (by omega)
      rw [if_neg smaller]
      exact allocLoop_keeps (pages_le_userPages (by omega)) _ (by omega) sane

def Pte.hide (pte : Pte) : Pte := { pte with perm := { pte.perm with u := false } }

theorem clearpteu_spec (bound : vpn < npages) (table : (s.table (pdx vpn)).isSome) :
    ∃ s', clearpteu s vpn = .ok s' ∧ s'.frames = s.frames ∧ s'.dir = s.dir ∧
      (∀ i, (s.table i).isSome → (s'.table i).isSome) ∧
      ∀ v < npages, s'.lookup v = if v = vpn then (s.lookup vpn).map Pte.hide else s.lookup v := by
  obtain ⟨t, found⟩ := Option.isSome_iff_exists.mp table
  have entry := lookup_eq found
  refine ⟨s.setPte vpn ((s.lookup vpn).map Pte.hide), ?_, frames_setPte table bound fun _ => ?_, dir_setPte _ _ _,
    fun i some => by rw [isSome_setPte]; exact some, fun v inside => lookup_setPte table inside bound⟩
  · rw [clearpteu, found, entry]
    rfl
  · rw [Option.map_map]
    rfl

theorem Built.guarded (built : Built k s) : Guarded s := by
  induction built with
  | setupkvm nodup valid returns =>
      have spec := setupkvm_spec nodup valid
      rw [returns] at spec
      rcases spec with ⟨s, same, setUp⟩ | ⟨none, -⟩
      · obtain rfl := Option.some.inj same
        exact setUp.sane.guarded setUp.kernel
      · exact absurd none (by simp)
  | @allocuvm _ _ _ _ _ _ oldsz newsz _ built sane returns ih =>
      have spec := allocuvm_keeps oldsz newsz sane
      rw [returns] at spec
      refine spec.1.guarded fun v low high pte found => ?_
      rw [spec.2.kernel v low high] at found
      exact ih.kernel v low high pte found
  | @clearpteu s s' vpn built bound returns ih =>
      cases table : s.table (pdx vpn) with
      | none =>
          rw [Vm.clearpteu, table] at returns
          exact absurd returns (by simp)
      | some t =>
          obtain ⟨other, result, frames, -, -, lookup⟩ := clearpteu_spec bound (by rw [table]; rfl)
          obtain rfl := Except.ok.inj (returns.symm.trans result)
          refine ⟨by rw [frames]; exact ih.nodup, fun v low high pte found => ?_⟩
          rw [lookup v high] at found
          by_cases here : v = vpn
          · rw [if_pos here, Option.map_eq_some_iff] at found
            obtain ⟨p, -, rfl⟩ := found
            rfl
          · rw [if_neg here] at found
            exact ih.kernel v low high pte found

end Built

section Copyout

variable {v w fuel : Nat} {f : Frame}

def Space.userAt (s : Space) (v : Nat) : Option Frame :=
  (s.lookup v).bind fun pte => if pte.perm.u then some pte.frame else none

theorem userAt_eq_some : s.userAt v = some f ↔ ∃ pte, s.lookup v = some pte ∧ pte.perm.u = true ∧ pte.frame = f := by
  rw [Space.userAt, Option.bind_eq_some_iff]
  refine exists_congr fun pte => and_congr_right fun _ => ?_
  cases pte.perm.u <;> simp

theorem lookup_mod (s : Space) (v : Nat) : s.lookup (v % npages) = s.lookup v := by
  have dir : pdx (v % npages) = pdx v := by
    apply Fin.ext
    rw [pdx_val, pdx_val]
    simp only [npages, nentries]
    omega
  have table : ptx (v % npages) = ptx v := by
    apply Fin.ext
    simp only [ptx, npages, nentries]
    omega
  rw [Space.lookup, Space.lookup, dir, table]

theorem uva2ka_eq (table : (s.table (pdx v)).isSome) : uva2ka s v = .ok (s.userAt v) := by
  obtain ⟨t, found⟩ := Option.isSome_iff_exists.mp table
  rw [uva2ka, found, Space.userAt, lookup_eq found]
  rfl

theorem Guarded.lt_userPages (guarded : Guarded s) (bound : v < npages) (user : s.userAt v = some f) : v < userPages := by
  obtain ⟨pte, found, accessible, -⟩ := userAt_eq_some.mp user
  by_contra high
  have hidden := guarded.kernel v (by omega) bound pte found
  rw [hidden] at accessible
  exact Bool.false_ne_true accessible

theorem Guarded.mem_userFrames (guarded : Guarded s) (user : s.userAt v = some f) : f ∈ s.userFrames := by
  have reduced : s.userAt (v % npages) = some f := by
    rw [← user, Space.userAt, Space.userAt, lookup_mod]
  have low := guarded.lt_userPages (Nat.mod_lt _ (by decide)) reduced
  obtain ⟨pte, found, -, same⟩ := userAt_eq_some.mp reduced
  exact Vm.mem_userFrames.mpr ⟨v % npages, low, pte, found, same⟩

theorem Guarded.mem_frames (guarded : Guarded s) (user : s.userAt v = some f) : f ∈ s.frames := by
  rw [Space.frames, Multiset.mem_cons, Multiset.mem_add]
  exact Or.inr (Or.inr (guarded.mem_userFrames user))

theorem Guarded.inj (guarded : Guarded s) (first : v < userPages) (second : w < userPages)
    (here : s.userAt v = some f) (there : s.userAt w = some f) : v = w := by
  obtain ⟨p, found, -, same⟩ := userAt_eq_some.mp here
  obtain ⟨q, other, -, equal⟩ := userAt_eq_some.mp there
  have nodup := guarded.nodup
  rw [Space.frames, Multiset.nodup_cons] at nodup
  have users := (Multiset.nodup_add.mp nodup.2).2.1
  rw [Space.userFrames] at users
  refine holding_inj users (Finset.mem_range.mpr first) (Finset.mem_range.mpr second)
    (congrArg (Option.map Pte.frame) found) ?_
  rw [other, Option.map_some, equal, same]

theorem Guarded.range_below (guarded : Guarded s) (word : va < uintRange) {count : Nat}
    (users : ∀ i < count, (s.userAt ((va + i) / pgsize)).isSome) {i : Nat} (inside : i < count) :
    (va + i) / pgsize < userPages := by
  induction i with
  | zero =>
      obtain ⟨f, user⟩ := Option.isSome_iff_exists.mp (users 0 inside)
      refine guarded.lt_userPages ?_ user
      simp only [uintRange, npages, nentries, pgsize] at *
      omega
  | succ i ih =>
      have before := ih (by omega)
      obtain ⟨f, user⟩ := Option.isSome_iff_exists.mp (users (i + 1) inside)
      refine guarded.lt_userPages ?_ user
      simp only [userPages, kernbase, npages, nentries, pgsize] at *
      omega

def chunk (va : Nat) (buf : List Byte) : Nat := min (pgsize - va % pgsize) buf.length

theorem copyoutLoop_user (more : buf ≠ []) (user : s.userAt (va / pgsize) = some f) :
    copyoutLoop s (fuel + 1) va buf m =
      copyoutLoop s fuel ((va / pgsize + 1) * pgsize % uintRange) (buf.drop (chunk va buf))
        (m.write f (va % pgsize) (buf.take (chunk va buf))) := by
  obtain ⟨pte, found, -, -⟩ := userAt_eq_some.mp user
  rw [copyoutLoop.eq_3 _ _ _ _ _ more, uva2ka_eq (table_of_lookup found), ok_bind, user]
  rfl

theorem copyoutLoop_refused (more : buf ≠ []) (table : (s.table (pdx (va / pgsize))).isSome)
    (none : s.userAt (va / pgsize) = none) : copyoutLoop s (fuel + 1) va buf m = .ok (m, false) := by
  rw [copyoutLoop.eq_3 _ _ _ _ _ more, uva2ka_eq table, ok_bind, none]
  rfl

/-- What `copyout` does: it answers whether the whole range is for the user, and writes to the range only. -/
structure Copies (s : Space) (m : Mem) (va : Nat) (buf : List Byte) (r : Mem × Bool) : Prop where
  answer : r.2 = true ↔ ∀ i < buf.length, (s.userAt ((va + i) / pgsize)).isSome
  written : r.2 = true → ∀ i b f, buf[i]? = some b → s.userAt ((va + i) / pgsize) = some f →
    r.1.data f ((va + i) % pgsize) = b
  others : ∀ f o, (∀ i < buf.length, s.userAt ((va + i) / pgsize) = some f → (va + i) % pgsize ≠ o) →
    r.1.data f o = m.data f o
  free : r.1.free = m.free

/-- The first page of the range that is not for the user, if any, has a page table. -/
def Walkable (s : Space) (va count : Nat) : Prop :=
  ∀ i < count, (∀ j < i, (s.userAt ((va + j) / pgsize)).isSome) → (s.table (pdx ((va + i) / pgsize))).isSome

theorem chunk_page {i : Nat} (inside : i < chunk va buf) :
    (va + i) / pgsize = va / pgsize ∧ (va + i) % pgsize = va % pgsize + i := by
  have bound : i < pgsize - va % pgsize := lt_of_lt_of_le inside (Nat.min_le_left _ _)
  simp only [pgsize] at *
  omega

theorem chunk_next {j : Nat} (user : va / pgsize < userPages) (more : j < buf.length - chunk va buf) :
    (va / pgsize + 1) * pgsize % uintRange + j = va + (chunk va buf + j) := by
  have whole : chunk va buf = pgsize - va % pgsize := by
    rw [chunk] at *
    omega
  rw [whole]
  simp only [userPages, kernbase, uintRange, pgsize] at *
  omega

theorem chunk_pos (va : Nat) (some : buf ≠ []) : 0 < chunk va buf := by
  have length := List.length_pos_of_ne_nil some
  have room : 0 < pgsize - va % pgsize := Nat.sub_pos_of_lt (Nat.mod_lt _ (by decide))
  exact Nat.lt_min.mpr ⟨room, length⟩

theorem chunk_le (va : Nat) (buf : List Byte) : chunk va buf ≤ buf.length := Nat.min_le_right _ _

theorem Copies.round {r : Mem × Bool} (guarded : Guarded s) (word : va < uintRange)
    (user : s.userAt (va / pgsize) = some f)
    (rest : Copies s (m.write f (va % pgsize) (buf.take (chunk va buf)))
      ((va / pgsize + 1) * pgsize % uintRange) (buf.drop (chunk va buf)) r) : Copies s m va buf r := by
  have low : va / pgsize < userPages := by
    refine guarded.lt_userPages ?_ user
    simp only [uintRange, npages, nentries, pgsize] at *
    omega
  have size : (buf.take (chunk va buf)).length = chunk va buf := by rw [List.length_take, Nat.min_eq_left (chunk_le va buf)]
  have left : (buf.drop (chunk va buf)).length = buf.length - chunk va buf := List.length_drop
  have next {j : Nat} (more : j < buf.length - chunk va buf) := chunk_next low more
  have answer : r.2 = true ↔ ∀ i < buf.length, (s.userAt ((va + i) / pgsize)).isSome := by
    rw [rest.answer, left]
    refine ⟨fun all i inside => ?_, fun all j more => ?_⟩
    · by_cases first : i < chunk va buf
      · rw [(chunk_page first).1, user]
        rfl
      · have later := all (i - chunk va buf) (by omega)
        rwa [next (by omega), show chunk va buf + (i - chunk va buf) = i by omega] at later
    · rw [next more]
      exact all _ (by omega)
  refine ⟨answer, fun done i b g here there => ?_, fun g o apart => ?_, rest.free⟩
  · obtain ⟨inside, -⟩ := List.getElem?_eq_some_iff.mp here
    by_cases first : i < chunk va buf
    · obtain ⟨page, offset⟩ := chunk_page first
      rw [page, user] at there
      obtain rfl := Option.some.inj there
      rw [rest.others f _ fun j more hit _ => ?_, offset]
      · have value : (buf.take (chunk va buf))[i]? = some b := by rw [List.getElem?_take_of_lt first, here]
        obtain ⟨bound, value⟩ := List.getElem?_eq_some_iff.mp value
        calc update m.data f (blit (m.data f) (va % pgsize) (buf.take (chunk va buf))) f (va % pgsize + i)
            = blit (m.data f) (va % pgsize) (buf.take (chunk va buf)) (va % pgsize + i) := by rw [update_self]
          _ = b := by rw [blit_inside _ _ bound, value]
      · rw [left] at more
        rw [next more] at hit
        have below := guarded.range_below word (answer.mp done) (i := chunk va buf + j) (by omega)
        have same := guarded.inj below low hit user
        have start := next more
        simp only [pgsize, uintRange, userPages, kernbase] at *
        omega
    · have value : (buf.drop (chunk va buf))[i - chunk va buf]? = some b := by
        rw [List.getElem?_drop, show chunk va buf + (i - chunk va buf) = i by omega, here]
      have address := next (j := i - chunk va buf) (by omega)
      rw [show chunk va buf + (i - chunk va buf) = i by omega] at address
      have written := rest.written done (i - chunk va buf) b g value (by rwa [address])
      rwa [address] at written
  · rw [rest.others g o fun j more hit => ?_]
    · by_cases same : g = f
      · subst same
        have outside : o < va % pgsize ∨ va % pgsize + (buf.take (chunk va buf)).length ≤ o := by
          by_contra within
          have inside : o - va % pgsize < chunk va buf := by omega
          obtain ⟨page, offset⟩ := chunk_page inside
          have bound := chunk_le va buf
          exact apart (o - va % pgsize) (by omega) (by rw [page, user]) (by omega)
        calc update m.data g (blit (m.data g) (va % pgsize) (buf.take (chunk va buf))) g o
            = blit (m.data g) (va % pgsize) (buf.take (chunk va buf)) o := by rw [update_self]
          _ = m.data g o := blit_outside _ _ _ outside
      · exact congrFun (update_of_ne same _ _) o
    · rw [left] at more
      rw [next more] at hit ⊢
      exact apart _ (by omega) hit

theorem copyoutLoop_spec (guarded : Guarded s) (word : va < uintRange) (enough : buf.length ≤ fuel)
    (tables : Walkable s va buf.length) :
    Meets (fun _ => False) (Copies s m va buf) (copyoutLoop s fuel va buf m) := by
  induction fuel generalizing va buf m with
  | zero =>
      obtain rfl := List.eq_nil_of_length_eq_zero (Nat.le_zero.mp enough)
      rw [copyoutLoop]
      exact ⟨by simp, by simp, fun _ _ _ => rfl, rfl⟩
  | succ fuel ih =>
      by_cases empty : buf = []
      · subst empty
        rw [copyoutLoop]
        exact ⟨by simp, by simp, fun _ _ _ => rfl, rfl⟩
      · have some := List.length_pos_of_ne_nil empty
        cases user : s.userAt (va / pgsize) with
        | none =>
            have table : (s.table (pdx (va / pgsize))).isSome := tables 0 some nofun
            rw [copyoutLoop_refused empty table user]
            refine ⟨⟨nofun, fun all => ?_⟩, nofun, fun _ _ _ => rfl, rfl⟩
            have first := all 0 some
            rw [Nat.add_zero, user] at first
            exact nomatch first
        | some f =>
            have low : va / pgsize < userPages := by
              refine guarded.lt_userPages ?_ user
              simp only [uintRange, npages, nentries, pgsize] at *
              omega
            have progress := chunk_pos va empty
            have left : (buf.drop (chunk va buf)).length = buf.length - chunk va buf := List.length_drop
            rw [copyoutLoop_user empty user]
            refine (ih (Nat.mod_lt _ (by decide)) (by omega) fun j more before => ?_).imp fun r rest =>
              rest.round guarded word user
            rw [left] at more
            rw [chunk_next low more]
            refine tables _ (by omega) fun i earlier => ?_
            by_cases first : i < chunk va buf
            · rw [(chunk_page first).1, user]
              rfl
            · have known := before (i - chunk va buf) (by omega)
              have inside : i - chunk va buf < buf.length - chunk va buf := by omega
              rwa [chunk_next low inside, show chunk va buf + (i - chunk va buf) = i by omega] at known

theorem copyoutLoop_frame (guarded : Guarded s) (enough : buf.length ≤ fuel) :
    Meets (fun failure => failure = .fault)
      (fun r => r.1.free = m.free ∧ ∀ g, g ∉ s.frames → r.1.data g = m.data g) (copyoutLoop s fuel va buf m) := by
  induction fuel generalizing va buf m with
  | zero =>
      obtain rfl := List.eq_nil_of_length_eq_zero (Nat.le_zero.mp enough)
      rw [copyoutLoop]
      exact ⟨rfl, fun _ _ => rfl⟩
  | succ fuel ih =>
      by_cases empty : buf = []
      · subst empty
        rw [copyoutLoop]
        exact ⟨rfl, fun _ _ => rfl⟩
      · cases table : s.table (pdx (va / pgsize)) with
        | none =>
            rw [copyoutLoop.eq_3 _ _ _ _ _ empty, uva2ka, table]
            rfl
        | some t =>
            have present : (s.table (pdx (va / pgsize))).isSome := by rw [table]; rfl
            cases user : s.userAt (va / pgsize) with
            | none =>
                rw [copyoutLoop_refused empty present user]
                exact ⟨rfl, fun _ _ => rfl⟩
            | some f =>
                have progress := chunk_pos va empty
                have left : (buf.drop (chunk va buf)).length = buf.length - chunk va buf := List.length_drop
                rw [copyoutLoop_user empty user]
                refine (ih (by omega)).imp fun r post => ⟨post.1, fun g outside => ?_⟩
                rw [post.2 g outside]
                refine update_of_ne ?_ _ _
                rintro rfl
                exact outside (guarded.mem_frames user)

theorem copyout_frame (guarded : Guarded s) (va : Nat) (buf : List Byte) :
    Meets (fun failure => failure = .fault)
      (fun r => r.1.free = m.free ∧ ∀ g, g ∉ s.frames → r.1.data g = m.data g) (copyout m s va buf) :=
  copyoutLoop_frame guarded le_rfl

theorem walkable_of_copyoutLoop {r : Mem × Bool} (guarded : Guarded s) (word : va < uintRange)
    (enough : buf.length ≤ fuel) (returns : copyoutLoop s fuel va buf m = .ok r) : Walkable s va buf.length := by
  induction fuel generalizing va buf m with
  | zero =>
      intro i inside
      omega
  | succ fuel ih =>
      by_cases empty : buf = []
      · subst empty
        intro i inside
        exact absurd inside (Nat.not_lt_zero i)
      · cases table : s.table (pdx (va / pgsize)) with
        | none =>
            rw [copyoutLoop.eq_3 _ _ _ _ _ empty, uva2ka, table] at returns
            exact absurd returns (by simp [bind, Except.bind])
        | some t =>
            have present : (s.table (pdx (va / pgsize))).isSome := by rw [table]; rfl
            intro i inside before
            by_cases first : i < chunk va buf
            · rwa [(chunk_page first).1]
            · have progress := chunk_pos va empty
              obtain ⟨f, user⟩ := Option.isSome_iff_exists.mp (before 0 (by omega))
              rw [Nat.add_zero] at user
              have low : va / pgsize < userPages := by
                refine guarded.lt_userPages ?_ user
                simp only [uintRange, npages, nentries, pgsize] at *
                omega
              have left : (buf.drop (chunk va buf)).length = buf.length - chunk va buf := List.length_drop
              have next {j : Nat} (more : j < buf.length - chunk va buf) := chunk_next low more
              rw [copyoutLoop_user empty user] at returns
              have later := ih (Nat.mod_lt _ (by decide)) (by omega) returns (i - chunk va buf) (by omega)
                fun j earlier => by
                  rw [next (by omega)]
                  exact before _ (by omega)
              rwa [next (by omega), show chunk va buf + (i - chunk va buf) = i by omega] at later

/-- The whole range is written or refused, and nothing but pages for the user is written to, so neither the directory
nor a page table. -/
structure Confined (s : Space) (m : Mem) (va : Nat) (buf : List Byte) (m' : Mem) (done : Bool) : Prop where
  answer : done = true ↔ ∀ i < buf.length, (s.userAt ((va + i) / pgsize)).isSome
  written : done = true → ∀ i b f, buf[i]? = some b → s.userAt ((va + i) / pgsize) = some f →
    m'.data f ((va + i) % pgsize) = b
  others : done = true → ∀ f o, (∀ i < buf.length, s.userAt ((va + i) / pgsize) = some f → (va + i) % pgsize ≠ o) →
    m'.data f o = m.data f o
  users : ∀ f, (∀ v < npages, s.userAt v ≠ some f) → m'.data f = m.data f
  tables : ∀ f ∈ s.dir ::ₘ s.tablePages, m'.data f = m.data f

/-- `copyout` answers as it should exactly when the first page of the range that is not for the user has a page
table, and faults when it has none. -/
theorem copyout_refuses (built : Built k s) (m : Mem) (word : va < uintRange) (buf : List Byte) :
    ((∃ m' done, copyout m s va buf = .ok (m', done) ∧ Confined s m va buf m' done) ↔ Walkable s va buf.length) ∧
      (copyout m s va buf = .error .fault ↔ ¬Walkable s va buf.length) := by
  have guarded := built.guarded
  have confined : Walkable s va buf.length →
      ∃ m' done, copyout m s va buf = .ok (m', done) ∧ Confined s m va buf m' done := by
    intro tables
    obtain ⟨⟨m', done⟩, returns, copies⟩ := (copyoutLoop_spec (m := m) guarded word le_rfl tables).returns
    have apart {f : Frame} (none : ∀ v, s.userAt v ≠ some f) : m'.data f = m.data f :=
      funext fun o => copies.others f o fun i _ hit => absurd hit (none _)
    refine ⟨m', done, returns, copies.answer, copies.written, fun _ => copies.others, fun f none => ?_,
      fun f inside => ?_⟩
    · refine apart fun v => ?_
      rw [Space.userAt, ← lookup_mod]
      exact none (v % npages) (Nat.mod_lt _ (by decide))
    · refine apart fun v hit => ?_
      have nodup := guarded.nodup
      rw [Space.frames, ← Multiset.cons_add, Multiset.nodup_add] at nodup
      exact Multiset.disjoint_left.mp nodup.2.2 inside (guarded.mem_userFrames hit)
  refine ⟨⟨?_, confined⟩, ?_, ?_⟩
  · rintro ⟨m', done, returns, -⟩
    exact walkable_of_copyoutLoop guarded word le_rfl returns
  · intro fault tables
    obtain ⟨m', done, returns, -⟩ := confined tables
    rw [returns] at fault
    exact absurd fault (by simp)
  · intro missing
    have frame := copyout_frame (m := m) guarded va buf
    cases result : copyout m s va buf with
    | ok r => exact absurd (walkable_of_copyoutLoop guarded word le_rfl result) missing
    | error failure =>
        rw [result] at frame
        exact congrArg Except.error frame

/-- The pages that `kinit1` frees, for a small kernel. -/
def kinitMem : Mem := ⟨List.range' 277 747, [], fun _ _ => 1⟩

theorem kinitMem_nodup : kinitMem.free.Nodup := List.nodup_range'

theorem kinitMem_valid (f : Frame) (free : f ∈ kinitMem.free) : smallKernel.Valid f := by
  obtain ⟨low, high⟩ := List.mem_range'_1.mp free
  exact ⟨low, lt_of_lt_of_le high (by decide)⟩

theorem kinitMem_setUp : ∃ m' s, smallKernel.setupkvm kinitMem = .ok (m', some s) ∧
    SetUp smallKernel kinitMem m' s ∧ Built smallKernel s := by
  obtain ⟨m', s, returns, setUp⟩ :=
    setupkvm_lucky kinitMem_nodup kinitMem_valid rfl (by rw [kinitMem, List.length_range']; decide)
  exact ⟨m', s, returns, setUp, .setupkvm kinitMem_nodup kinitMem_valid returns⟩

theorem copyout_refuses_kernel :
    ∃ s, Built smallKernel s ∧ Walkable s kernbase 1 ∧
      ∃ m' done, copyout noMemory s kernbase [7] = .ok (m', done) ∧ Confined s noMemory kernbase [7] m' done := by
  obtain ⟨m, s, -, setUp, built⟩ := kinitMem_setUp
  have tables : Walkable s kernbase 1 := by
    intro i single _
    obtain rfl : i = 0 := by omega
    obtain ⟨pte, found⟩ := Option.isSome_iff_exists.mp
      (setUp.mapped _ List.mem_cons_self userPages (by decide) (by decide))
    exact table_of_lookup found
  exact ⟨s, built, tables, (copyout_refuses built noMemory (by decide) [7]).1.mpr tables⟩

/-- A byte for address 0 of a new directory, which has no page table there. -/
theorem copyout_follows_missing_table :
    ∃ m' s, smallKernel.setupkvm kinitMem = .ok (m', some s) ∧ Built smallKernel s ∧
      copyout m' s 0 [7] = .error .fault := by
  obtain ⟨m', s, returns, setUp, built⟩ := kinitMem_setUp
  refine ⟨m', s, returns, built, ?_⟩
  have missing : s.table (pdx (0 / pgsize)) = none := setUp.tables _ (by decide)
  rw [copyout, List.length_singleton, copyoutLoop.eq_3 _ _ _ _ _ (List.cons_ne_nil 7 []), uva2ka, missing]
  rfl

end Copyout

end OsLabs.Vm
