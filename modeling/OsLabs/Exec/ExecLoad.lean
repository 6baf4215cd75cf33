import OsLabs.Exec.ExecCore
import OsLabs.Vm.VmCopyout

/-!
The loading part of `exec`. Whatever the file says, the image is built page by page from address 0, so every page that
a segment is read into is there; and whatever goes wrong, `bad` gives back what was taken.
-/

namespace OsLabs.Exec

open ByteField Holdings Outcomes Vm

variable {k : Kernel} {m m' m₀ : Mem} {s s' : Space} {sz : Nat}

section Read

theorem field_lt (bytes : List Byte) (offset width : Nat) : field bytes offset width < 256 ^ width := by
  refine lt_of_lt_of_le (combine_lt _) (Nat.pow_le_pow_right (by decide) ?_)
  rw [List.length_take]
  exact Nat.min_le_left _ _

theorem loadLoop_spec {addr offset fsz : Nat} {file : List Byte} (count i : Nat)
    (present : ∀ j < count, (addr + i) / pgsize + j < userPages ∧ (s.lookup ((addr + i) / pgsize + j)).isSome) :
    Meets (fun _ => False) (fun r => r.1.free = m.free ∧ ∀ f, f ∉ s.frames → r.1.data f = m.data f)
      (loadLoop s addr file offset fsz count i m) := by
  induction count generalizing i m with
  | zero => exact ⟨rfl, fun _ _ => rfl⟩
  | succ count ih =>
      obtain ⟨user, there⟩ := present 0 (Nat.succ_pos _)
      obtain ⟨pte, found⟩ := Option.isSome_iff_exists.mp there
      rw [Nat.add_zero] at found user
      obtain ⟨t, table⟩ := Option.isSome_iff_exists.mp (table_of_lookup found)
      have entry : t.pte (ptx ((addr + i) / pgsize)) = some pte := by rw [← lookup_eq table, found]
      have written (bytes : List Byte) (f : Frame) (outside : f ∉ s.frames) :
          (m.write pte.frame 0 bytes).data f = m.data f := by
        refine Function.update_of_ne ?_ _ _
        rintro rfl
        exact outside (Sane.frame_mem user found)
      rw [loadLoop, table]
      dsimp only
      rw [entry, Option.map_some, Option.getD_some]
      cases readi file ((offset + i) % uintRange) (min (fsz - i) pgsize) with
      | none => exact ⟨rfl, fun _ _ => rfl⟩
      | some bytes =>
          dsimp only
          by_cases all : bytes.length = min (fsz - i) pgsize
          · have next : (addr + (i + pgsize)) / pgsize = (addr + i) / pgsize + 1 := by
              rw [← Nat.add_assoc]
              exact Nat.add_div_right _ (by decide)
            rw [if_pos all]
            refine (ih (i + pgsize) fun j more => ?_).imp fun r post => ⟨post.1, fun f outside => ?_⟩
            · rw [next, show (addr + i) / pgsize + 1 + j = (addr + i) / pgsize + (j + 1) by omega]
              exact present (j + 1) (by omega)
            · rw [post.2 f outside, written bytes f outside]
          · rw [if_neg all]
            exact ⟨rfl, written bytes⟩

theorem loaduvm_spec {addr offset fsz : Nat} {file : List Byte} (aligned : addr % pgsize = 0) (low : sz ≤ kernbase)
    (inside : addr + fsz ≤ sz) (filled : Filled s sz) :
    Meets (fun _ => False) (fun r => r.1.free = m.free ∧ ∀ f, f ∉ s.frames → r.1.data f = m.data f)
      (loaduvm m s addr file offset fsz) := by
  rw [loaduvm, if_neg (not_not.mpr aligned)]
  refine loadLoop_spec (pages fsz) 0 fun j more => ?_
  have below : (addr + 0) / pgsize + j < pages sz := by
    simp only [pages, pgsize] at *
    omega
  have user := lt_of_lt_of_le below (pages_le_userPages low)
  exact ⟨user, (filled _ user).mpr below⟩

end Read

section Load

structure Loading (k : Kernel) (m₀ m : Mem) (s : Space) (sz : Nat) : Prop where
  sane : Sane k ↑m₀.free 0 m s
  filled : Filled s sz
  users : ∀ v < userPages, ∀ pte, s.lookup v = some pte → pte.perm = ⟨true, true⟩
  kernel : ∀ v, userPages ≤ v → v < npages → ∀ pte, s.lookup v = some pte → pte.perm.u = false
  data : ∀ f, f ∉ s.frames → m.data f = m₀.data f

def Taken (k : Kernel) (m₀ m : Mem) : Option Space → Prop
  | none => Released m₀ m
  | some s => Sane k ↑m₀.free 0 m s ∧ ∀ f, f ∉ m₀.free → m.data f = m₀.data f

def Outcome.Good {α : Type} (k : Kernel) (m₀ : Mem) (post : Mem → Space → α → Prop) : Outcome α → Prop
  | .next m s value => post m s value
  | .bad m pgdir => Taken k m₀ m pgdir

theorem Loading.outside (loading : Loading k m₀ m s sz) {f : Frame} (used : f ∉ m₀.free) : m.data f = m₀.data f :=
  loading.data f fun inside => used (loading.sane.mem_frames inside)

theorem Loading.taken (loading : Loading k m₀ m s sz) : Taken k m₀ m (some s) :=
  ⟨loading.sane, fun _ used => loading.outside used⟩

theorem Loading.start (setUp : SetUp k m₀ m s) : Loading k m₀ m s 0 := by
  refine ⟨setUp.sane, fun v user => ?_, fun v user pte found => ?_, setUp.kernel, fun f _ => by rw [setUp.data]⟩
  · rw [setUp.absent user]
    exact iff_of_false (by simp) (Nat.not_lt_zero v)
  · rw [setUp.absent user] at found
    exact absurd found nofun

theorem Loading.lt_kernbase (loading : Loading k m₀ m s sz) : sz < kernbase :=
  loading.filled.lt_kernbase loading.sane

theorem Grows.mem_frames {pool extra : Multiset Frame} {first last : Nat} {result : Mem × Space}
    (grows : Grows k pool extra m s first last result) (sane : Sane k pool extra m s) {f : Frame} (inside : f ∈ s.frames) :
    f ∈ result.2.frames := by
  have member := sane.mem_frames inside
  rw [← grows.sane.total, Multiset.mem_add, Multiset.mem_add] at member
  rcases member with (free | held) | there
  · exact absurd (grows.free f free) (sane.not_free inside)
  · exact absurd held (sane.not_extra inside)
  · exact there

theorem Loading.grows {newsz : Nat} (loading : Loading k m₀ m s sz) (larger : sz ≤ newsz)
    (grows : Grows k ↑m₀.free 0 m s (pages sz) (pages newsz) (m', s')) : Loading k m₀ m' s' newsz := by
  refine ⟨grows.sane, grows.filled loading.filled larger, fun v user pte found => ?_, fun v low high pte found => ?_,
    fun f outside => ?_⟩
  · by_cases new : pages sz ≤ v ∧ v < pages newsz
    · obtain ⟨f, -, fresh, -⟩ := grows.fresh v new.1 new.2
      rw [fresh] at found
      rw [← Option.some.inj found]
    · rw [grows.lookup v (userPages_lt user) new] at found
      exact loading.users v user pte found
  · rw [grows.kept.kernel v low high] at found
    exact loading.kernel v low high pte found
  · rw [grows.inside f outside]
    exact loading.data f fun inside => outside (Grows.mem_frames grows loading.sane inside)

theorem Loading.unchanged (loading : Loading k m₀ m s sz) (unchanged : Unchanged k ↑m₀.free 0 m s (m', s')) :
    Taken k m₀ m' (some s') := by
  refine ⟨unchanged.sane, fun f used => ?_⟩
  rw [unchanged.data f fun free => used (loading.sane.mem_free free), loading.outside used]

theorem Loading.alloc {newsz : Nat} (loading : Loading k m₀ m s sz) :
    Meets (fun _ => False)
      (fun r => (newsz ≤ r.2.2 ∧ r.2.2 = max sz newsz ∧ Loading k m₀ r.1 r.2.1 r.2.2) ∨
        r.2.2 = 0 ∧ Taken k m₀ r.1 (some r.2.1) ∧
          (m.luck = [] → kernbase ≤ newsz ∨ m.free.length < 2 * (pages newsz - pages sz)))
      (k.allocuvm m s sz newsz) := by
  refine (allocuvm_spec loading.sane fun v above user => loading.filled.absent above user).imp ?_
  rintro ⟨m', s', size⟩ (⟨rfl, -, larger, grows⟩ | ⟨same, smaller, -⟩ | ⟨rfl, unchanged, short⟩)
  · exact Or.inl ⟨le_rfl, (Nat.max_eq_right larger).symm, loading.grows larger grows⟩
  · obtain ⟨rfl, rfl, rfl⟩ : m' = m ∧ s' = s ∧ size = sz := by simpa using same
    exact Or.inl ⟨smaller.le, (Nat.max_eq_left smaller.le).symm, loading⟩
  · exact Or.inr ⟨rfl, loading.unchanged unchanged, short⟩

theorem Loading.write (loading : Loading k m₀ m s sz) (free : m'.free = m.free)
    (data : ∀ f, f ∉ s.frames → m'.data f = m.data f) : Loading k m₀ m' s sz :=
  ⟨loading.sane.of_free free, loading.filled, loading.users, loading.kernel,
    fun f outside => (data f outside).trans (loading.data f outside)⟩

theorem loadSegments_spec {file : List Byte} (count off : Nat) (loading : Loading k m₀ m s sz) :
    Meets (fun _ => False) (Outcome.Good k m₀ (Loading k m₀)) (loadSegments k file count off m s sz) := by
  induction count generalizing off m s sz with
  | zero => exact loading
  | succ count ih =>
      rw [loadSegments]
      cases readAll file off Proghdr.size with
      | none => exact loading.taken
      | some bytes =>
          dsimp only
          have vaddr : (Proghdr.read bytes).vaddr < 256 ^ 4 := field_lt _ _ _
          have memsz : (Proghdr.read bytes).memsz < 256 ^ 4 := field_lt _ _ _
          generalize Proghdr.read bytes = ph at *
          by_cases other : ph.type ≠ elfProgLoad
          · rw [if_pos other]
            exact ih _ loading
          rw [if_neg other]
          by_cases short : ph.memsz < ph.filesz
          · rw [if_pos short]
            exact loading.taken
          rw [if_neg short]
          by_cases wraps : (ph.vaddr + ph.memsz) % uintRange < ph.vaddr
          · rw [if_pos wraps]
            exact loading.taken
          rw [if_neg wraps]
          have top : (ph.vaddr + ph.memsz) % uintRange = ph.vaddr + ph.memsz := by
            simp only [uintRange] at *
            omega
          rw [top]
          refine loading.alloc.bind ?_
          rintro ⟨m', s', size⟩ (⟨covers, -, next⟩ | ⟨rfl, taken, -⟩)
          · dsimp only at covers next ⊢
            by_cases zero : size = 0
            · rw [if_pos zero]
              exact next.taken
            rw [if_neg zero]
            by_cases unaligned : ph.vaddr % pgsize ≠ 0
            · rw [if_pos unaligned]
              exact next.taken
            rw [if_neg unaligned]
            refine (loaduvm_spec (not_not.mp unaligned) next.lt_kernbase.le (by omega) next.filled).bind ?_
            rintro ⟨m'', done⟩ ⟨free, data⟩
            have read := next.write free data
            cases done with
            | true => exact ih _ read
            | false => exact read.taken
          · exact taken

theorem loadProgram_spec (nodup : m.free.Nodup) (valid : ∀ f ∈ m.free, k.Valid f) (file : List Byte) :
    Meets (fun _ => False) (Outcome.Good k m fun m' s value => Loading k m m' s value.1) (loadProgram k m file) := by
  have nothing : Taken k m m none := ⟨List.Perm.refl _, fun _ _ => rfl⟩
  rw [loadProgram]
  cases readAll file 0 Elfhdr.size with
  | none => exact nothing
  | some bytes =>
      dsimp only
      by_cases other : (Elfhdr.read bytes).magic ≠ elfMagic
      · rw [if_pos other]
        exact nothing
      rw [if_neg other]
      refine (setupkvm_spec nodup valid).bind ?_
      rintro ⟨m', -⟩ (⟨s, rfl, setUp⟩ | ⟨rfl, released, -⟩)
      · refine (loadSegments_spec _ _ (Loading.start setUp)).bind ?_
        rintro (⟨m'', s', size⟩ | ⟨m'', pgdir⟩) good
        · exact good
        · exact good
      · exact released

end Load

section Stack

structure Image (s : Space) (guard : Nat) : Prop where
  filled : Filled s ((guard + 2) * pgsize)
  users : ∀ v < userPages, ∀ pte, s.lookup v = some pte → pte.perm = ⟨true, decide (v ≠ guard)⟩
  kernel : ∀ v, userPages ≤ v → v < npages → ∀ pte, s.lookup v = some pte → pte.perm.u = false

structure Loaded (k : Kernel) (m₀ m : Mem) (s : Space) (sz guard : Nat) : Prop where
  sane : Sane k ↑m₀.free 0 m s
  size : sz = (guard + 2) * pgsize
  image : Image s guard
  data : ∀ f, f ∉ s.frames → m.data f = m₀.data f

theorem Loaded.taken {guard : Nat} (loaded : Loaded k m₀ m s sz guard) : Taken k m₀ m (some s) :=
  ⟨loaded.sane, fun f used => loaded.data f fun inside => used (loaded.sane.mem_frames inside)⟩

theorem pages_mul (n : Nat) : pages (n * pgsize) = n := by
  simp only [pages, pgsize]
  omega

theorem minus_mul {n : Nat} (low : (n + 2) * pgsize < kernbase) : minus ((n + 2) * pgsize) (2 * pgsize) / pgsize = n := by
  simp only [minus, kernbase, uintRange, pgsize] at *
  omega

theorem Loading.hide {guard : Nat} (loading : Loading k m₀ m s ((guard + 2) * pgsize)) :
    ∃ s', clearpteu s guard = .ok s' ∧ Loaded k m₀ m s' ((guard + 2) * pgsize) guard := by
  have low := loading.lt_kernbase
  have user : guard < userPages := by
    simp only [userPages, kernbase, pgsize] at *
    omega
  have there : (s.lookup guard).isSome := (loading.filled guard user).mpr (by rw [pages_mul]; omega)
  obtain ⟨pte, found⟩ := Option.isSome_iff_exists.mp there
  obtain ⟨s', result, frames, -, -, lookup⟩ := clearpteu_spec (userPages_lt user) (table_of_lookup found)
  refine ⟨s', result, loading.sane.of_frames frames, rfl, ⟨fun v inside => ?_, fun v inside p here => ?_,
    fun v above inside p here => ?_⟩, by rw [frames]; exact loading.data⟩
  · rw [lookup v (userPages_lt inside), ← loading.filled v inside]
    by_cases hidden : v = guard
    · rw [if_pos hidden, Option.isSome_map, hidden]
    · rw [if_neg hidden]
  · rw [lookup v (userPages_lt inside)] at here
    by_cases hidden : v = guard
    · rw [if_pos hidden, found, Option.map_some] at here
      rw [← Option.some.inj here, Pte.hide, loading.users guard user pte found]
      simp [hidden]
    · rw [if_neg hidden] at here
      rw [loading.users v inside p here]
      simp [hidden]
  · rw [lookup v inside, if_neg (by omega)] at here
    exact loading.kernel v above inside p here

theorem allocStack_spec (loading : Loading k m₀ m s sz) :
    Meets (fun _ => False)
      (fun outcome => outcome.Good k m₀ (fun m' s' size => Loaded k m₀ m' s' size (pages sz)) ∧
        (m.luck = [] → 4 ≤ m.free.length → (pages sz + 2) * pgsize < kernbase →
          ∃ m' s' size, outcome = .next m' s' size))
      (allocStack k m s sz) := by
  have whole : Loading k m₀ m s (pages sz * pgsize) :=
    { loading with filled := fun v user => by rw [pages_mul]; exact loading.filled v user }
  have few := pages_le_userPages loading.lt_kernbase.le
  unfold allocStack
  generalize pages sz = guard at *
  have rounded : guard * pgsize % uintRange = guard * pgsize := by
    simp only [userPages, kernbase, uintRange, pgsize] at few ⊢
    omega
  have sum : (guard * pgsize + 2 * pgsize) % uintRange = (guard + 2) * pgsize := by
    simp only [userPages, kernbase, uintRange, pgsize] at few ⊢
    omega
  dsimp only
  rw [rounded, sum]
  refine whole.alloc.bind ?_
  rintro ⟨m', s', size⟩ (⟨-, larger, next⟩ | ⟨rfl, taken, short⟩)
  · have total : size = (guard + 2) * pgsize := larger.trans (Nat.max_eq_right (Nat.mul_le_mul_right _ (by omega)))
    subst total
    have positive : (guard + 2) * pgsize ≠ 0 := Nat.mul_ne_zero (by omega) (by decide)
    obtain ⟨s'', result, loaded⟩ := next.hide
    dsimp only
    rw [if_neg positive, minus_mul next.lt_kernbase, result]
    exact ⟨loaded, fun _ _ _ => ⟨m', s'', _, rfl⟩⟩
  · refine ⟨taken, fun lucky enough low => ?_⟩
    have few := short lucky
    rw [pages_mul, pages_mul] at few
    omega

end Stack

section Bad

variable {e : Files}

def Files.holding (e : Files) : Files := ⟨e.ops + 1, e.ref + 1, true⟩

theorem ilock_holding (e : Files) : e.beginOp.namei.ilock = .ok e.holding := rfl

theorem iunlockput_holding (unlocked : e.locked = false) : ∃ e', e.holding.iunlockput = .ok e' ∧ e'.endOp = e := by
  refine ⟨⟨e.ops + 1, e.ref, false⟩, rfl, ?_⟩
  rw [Files.endOp, ← unlocked]
  rfl

def Files.after (e : Files) (held : Bool) : Files := if held then e.holding else e

theorem loadImage_spec (unlocked : e.locked = false) (nodup : m.free.Nodup) (valid : ∀ f ∈ m.free, k.Valid f)
    (file : List Byte) :
    Meets (fun _ => False)
      (fun r => r.1 = e.after r.2.1 ∧
        r.2.2.Good k m fun m' s value => r.2.1 = false ∧ ∃ guard, Loaded k m m' s value.1 guard)
      (loadImage k e.holding m file) := by
  obtain ⟨e', put, done⟩ := iunlockput_holding unlocked
  rw [loadImage]
  refine (loadProgram_spec nodup valid file).bind ?_
  rintro (⟨m', s, sz, entry⟩ | ⟨m', pgdir⟩) good
  · dsimp only
    rw [put, ok_bind, done]
    refine (allocStack_spec good).bind ?_
    intro outcome stack
    cases outcome with
    | next m'' s' size => exact ⟨rfl, rfl, pages sz, stack.1⟩
    | bad m'' pgdir => exact ⟨rfl, stack.1⟩
  · exact ⟨rfl, good⟩

theorem bad_spec (unlocked : e.locked = false) (held : Bool) {pgdir : Option Space} (taken : Taken k m₀ m pgdir) :
    Meets (fun _ => False) (fun r => r.1 = e ∧ Released m₀ r.2) (bad k (e.after held) held m pgdir) := by
  obtain ⟨e', put, done⟩ := iunlockput_holding unlocked
  have files {m' : Mem} (released : Released m₀ m') :
      Meets (fun _ => False) (fun r => r.1 = e ∧ Released m₀ r.2)
        (if held then (do let e ← (e.after held).iunlockput; pure (e.endOp, m')) else pure (e.after held, m')) := by
    cases held with
    | true =>
        rw [if_pos rfl, Files.after, if_pos rfl, put]
        exact ⟨done, released⟩
    | false => exact ⟨rfl, released⟩
  cases pgdir with
  | none => exact files taken
  | some s => exact (freevm_released taken.1 taken.2).bind fun m' released => files released

/-- The loading part of `exec` never panics, writes to the pages of the new image only and, where it fails, makes
`exec` return -1 with the process as it was and everything given back. -/
theorem exec_survives (unlocked : e.locked = false) (nodup : m.free.Nodup) (valid : ∀ f ∈ m.free, k.Valid f)
    (file : List Byte) :
    ∃ e' held outcome, loadImage k e.holding m file = .ok (e', held, outcome) ∧
      ((∃ m' s value, outcome = .next m' s value ∧ ∀ f, f ∉ s.frames → m'.data f = m.data f) ∨
        (∃ m' pgdir, outcome = .bad m' pgdir) ∧ ∀ p path argv, ∃ m',
          exec k e m p path (some file) argv = .ok (e, m', p, -1) ∧ m'.free.Perm m.free ∧
            ∀ f, f ∉ m.free → m'.data f = m.data f) := by
  obtain ⟨⟨e', held, outcome⟩, returns, same, good⟩ := (loadImage_spec unlocked nodup valid file).returns
  dsimp only at same good
  subst same
  refine ⟨_, held, outcome, returns, ?_⟩
  cases outcome with
  | next m' s value =>
      obtain ⟨-, guard, loaded⟩ := good
      exact Or.inl ⟨m', s, value, rfl, loaded.data⟩
  | bad m' pgdir =>
      refine Or.inr ⟨⟨m', pgdir, rfl⟩, fun p path argv => ?_⟩
      obtain ⟨⟨e'', m''⟩, ends, rfl, released⟩ := (bad_spec unlocked held good).returns
      refine ⟨m'', ?_, released.free, released.data⟩
      rw [exec, ilock_holding, ok_bind, returns, ok_bind]
      dsimp only
      rw [ends]
      rfl

/-- An ELF file with one segment to load: its own 84 bytes, in one page at address 0. -/
def oneSegment : List Byte :=
  [0x7F, 0x45, 0x4C, 0x46] ++ List.replicate 24 0 ++ [52] ++ List.replicate 15 0 ++ [1] ++ List.replicate 7 0 ++
    [1] ++ List.replicate 15 0 ++ [84, 0, 0, 0, 0, 16] ++ List.replicate 10 0

theorem exec_survives_segment :
    (Elfhdr.read oneSegment).magic = elfMagic ∧ (Elfhdr.read oneSegment).phnum = 1 ∧
      (Proghdr.read (oneSegment.drop (Elfhdr.read oneSegment).phoff)).type = elfProgLoad ∧
      (Proghdr.read (oneSegment.drop (Elfhdr.read oneSegment).phoff)).memsz = pgsize ∧ ∃ e' held outcome,
      loadImage smallKernel (Files.holding ⟨0, 0, false⟩) kinitMem oneSegment = .ok (e', held, outcome) ∧
      ((∃ m' s value, outcome = .next m' s value ∧ ∀ f, f ∉ s.frames → m'.data f = kinitMem.data f) ∨
        (∃ m' pgdir, outcome = .bad m' pgdir) ∧ ∀ p path argv, ∃ m',
          exec smallKernel ⟨0, 0, false⟩ kinitMem p path (some oneSegment) argv =
            .ok (⟨0, 0, false⟩, m', p, -1) ∧ m'.free.Perm kinitMem.free ∧
            ∀ f, f ∉ kinitMem.free → m'.data f = kinitMem.data f) :=
  ⟨by decide, by decide, by decide, by decide, exec_survives rfl kinitMem_nodup kinitMem_valid oneSegment⟩

end Bad

end OsLabs.Exec
