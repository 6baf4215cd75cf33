import Mathlib.Algebra.BigOperators.Ring.Finset
import Mathlib.Data.Fintype.Prod
import OsLabs.Files.FilesCore
import OsLabs.Foundation.Interleaving

/-!
The reference count of every file is the number of descriptors for it, and a file whose count has reached 0
has been given back once. Inside a call the count is that of the descriptors and of the files that the call
has in hand.
-/

namespace OsLabs.Files

open Function Proc Runs Outcomes

variable {s t : State} {p : Slot} {f : FileSlot} {hand : List FileSlot}

namespace State

def entries (s : State) (f : FileSlot) : Nat := (Finset.univ.filter fun x => s.ofile x = some f).card

/-- The calls of `iput` and `pipeclose` for file number `k`. -/
def releases (s : State) (k : Nat) : List Object :=
  s.released.filterMap fun r => if r.1 = k then some r.2 else none

def inUse (s : State) (k : Nat) : Prop := ∃ f, 0 < (s.ftable f).ref ∧ s.serial f = k

def points (f : FileSlot) (entry : Option FileSlot) : Int := if entry = some f then 1 else 0

theorem entries_eq_tally (s : State) (f : FileSlot) : (s.entries f : Int) = Interleaving.tally (points f) s.ofile := by
  rw [entries, Interleaving.tally, Finset.card_filter, Nat.cast_sum]
  refine Finset.sum_congr rfl fun x _ => ?_
  rw [points]
  split <;> rfl

theorem entries_setFd (s : State) (p : Slot) (fd : Fd) (entry : Option FileSlot) (f : FileSlot) :
    ((s.setFd p fd entry).entries f : Int) = s.entries f - points f (s.ofile (p, fd)) + points f entry := by
  simp only [entries_eq_tally, setFd, Interleaving.tally_update]

theorem releases_release (s : State) (k j : Nat) (object : Object) :
    (s.release k object).releases j = s.releases j ++ if k = j then [object] else [] := by
  simp only [releases, release, List.filterMap_append, List.append_cancel_left_eq]
  split
  · rename_i same
    simp [same]
  · rename_i differs
    simp [differs]

theorem filedup_setFd (s : State) (p : Slot) (fd : Fd) (entry : Option FileSlot) (f : FileSlot) :
    (s.setFd p fd entry).filedup f = (fun t => t.setFd p fd entry) <$> s.filedup f := by
  simp only [filedup]
  by_cases none : (s.ftable f).ref < 1
  · rw [if_pos none, if_pos (by exact none)]
    rfl
  · rw [if_neg none, if_neg (by exact none)]
    rfl

theorem fileclose_setFd (s : State) (p : Slot) (fd : Fd) (entry : Option FileSlot) (f : FileSlot) :
    (s.setFd p fd entry).fileclose f = (fun t => t.setFd p fd entry) <$> s.fileclose f := by
  simp only [fileclose]
  by_cases none : (s.ftable f).ref < 1
  · rw [if_pos none, if_pos (by exact none)]
    rfl
  · rw [if_neg none, if_neg (by exact none)]
    by_cases more : 0 < (s.ftable f).ref - 1
    · rw [if_pos more, if_pos (by exact more)]
      rfl
    · rw [if_neg more, if_neg (by exact more)]
      simp only [setFd]
      cases (s.ftable f).type <;> rfl

end State

structure Sound (s : State) (hand : List FileSlot) : Prop where
  counted : ∀ f, (s.ftable f).ref = s.entries f + hand.count f
  free : ∀ {f}, (s.ftable f).ref = 0 → (s.ftable f).type = .none
  unopened : ∀ {f}, (s.ftable f).type = .none → s.entries f = 0
  fresh : ∀ {k}, s.allocated ≤ k → s.opened k = none ∧ s.releases k = []
  live : ∀ {f}, 0 < (s.ftable f).ref → s.serial f < s.allocated ∧ s.releases (s.serial f) = [] ∧
    s.opened (s.serial f) = (s.ftable f).object
  apart : ∀ {f g}, 0 < (s.ftable f).ref → 0 < (s.ftable g).ref → s.serial f = s.serial g → f = g
  dropped : ∀ {k}, k < s.allocated → ¬ s.inUse k → s.releases k = (s.opened k).toList

def Idle (s : State) : Prop := ∀ q, s.life q ≠ .live → ∀ fd, s.ofile (q, fd) = none

structure Keeps (s t : State) : Prop where
  ofile : t.ofile = s.ofile
  life : t.life = s.life

theorem File.object_eq_none {file : File} : file.object = none ↔ file.type = .none := by
  rw [File.object]
  cases file.type <;> simp

theorem Keeps.trans {r : State} (first : Keeps r s) (second : Keeps s t) : Keeps r t :=
  ⟨second.ofile.trans first.ofile, second.life.trans first.life⟩

section Primitives

theorem Sound.setFile (sound : Sound s hand) {file : File} {hand' : List FileSlot}
    (counted : ∀ g, (update s.ftable f file g).ref = s.entries g + hand'.count g)
    (used : 0 < (s.ftable f).ref) (still : 0 < file.ref)
    (object : file.object = (s.ftable f).object) : Sound (s.setFile f file) hand' := by
  have ref (g : FileSlot) : 0 < (update s.ftable f file g).ref ↔ 0 < (s.ftable g).ref := by
    by_cases same : g = f
    · subst same
      simp [used, still]
    · rw [update_of_ne same]
  refine ⟨counted, ?_, ?_, sound.fresh, ?_, ?_, ?_⟩
  · intro g none
    simp only [State.setFile] at none ⊢
    by_cases same : g = f
    · subst same
      rw [update_self] at none
      omega
    · rw [update_of_ne same] at none ⊢
      exact sound.free none
  · intro g none
    simp only [State.setFile] at none
    by_cases same : g = f
    · subst same
      rw [update_self] at none
      exact sound.unopened (File.object_eq_none.mp (object ▸ File.object_eq_none.mpr none))
    · rw [update_of_ne same] at none
      exact sound.unopened none
  · intro g some
    have before := sound.live ((ref g).mp some)
    refine ⟨before.1, before.2.1, before.2.2.trans ?_⟩
    simp only [State.setFile]
    by_cases same : g = f
    · subst same
      rw [update_self, object]
    · rw [update_of_ne same]
  · intro g h first second same
    exact sound.apart ((ref g).mp first) ((ref h).mp second) same
  · intro k old unused
    refine sound.dropped old ?_
    rintro ⟨g, some, same⟩
    exact unused ⟨g, (ref g).mpr some, same⟩

theorem Sound.used (sound : Sound s hand) (inHand : f ∈ hand) : 0 < (s.ftable f).ref := by
  have counted := sound.counted f
  have some := List.count_pos_iff.mpr inHand
  omega

theorem Sound.congr (sound : Sound s hand) (ftable : t.ftable = s.ftable) (ofile : t.ofile = s.ofile)
    (serial : t.serial = s.serial) (allocated : t.allocated = s.allocated) (opened : t.opened = s.opened)
    (released : t.released = s.released) : Sound t hand := by
  cases s
  cases t
  dsimp only at ftable ofile serial allocated opened released
  subst ftable ofile serial allocated opened released
  exact ⟨sound.counted, sound.free, sound.unopened, sound.fresh, sound.live, sound.apart, sound.dropped⟩

theorem Sound.perm (sound : Sound s hand) {hand' : List FileSlot} (same : hand.Perm hand') : Sound s hand' :=
  ⟨fun g => same.count_eq g ▸ sound.counted g, sound.free, sound.unopened, sound.fresh, sound.live, sound.apart, sound.dropped⟩

theorem Sound.filealloc (sound : Sound s hand) (given : s.filealloc = some (f, t)) :
    Sound t (f :: hand) ∧ Keeps s t ∧ (t.ftable f).ref = 1 ∧ (t.ftable f).type = .none := by
  obtain ⟨g, found, same⟩ := Option.map_eq_some_iff.mp given
  obtain ⟨rfl, rfl⟩ := Prod.mk.inj same
  have zero : (s.ftable g).ref = 0 := by simpa using List.find?_some found
  have type := sound.free zero
  have others {h : FileSlot} (apart : h ≠ g) :
      update s.ftable g { s.ftable g with ref := 1 } h = s.ftable h := update_of_ne apart _ _
  have was {h : FileSlot} (apart : h ≠ g)
      (some : 0 < (update s.ftable g { s.ftable g with ref := 1 } h).ref) : 0 < (s.ftable h).ref := by
    rwa [others apart] at some
  refine ⟨⟨?_, ?_, ?_, ?_, ?_, ?_, ?_⟩, ⟨rfl, rfl⟩, ?_, ?_⟩
  · intro h
    have before := sound.counted h
    have entries : s.entries h + hand.count h = (s.ftable h).ref := before.symm
    by_cases same : h = g
    · subst same
      simp only [State.setFile, update_self, List.count_cons_self]
      exact (by omega : 1 = s.entries h + (hand.count h + 1))
    · simp only [State.setFile, others same, List.count_cons_of_ne (Ne.symm same)]
      exact before
  · intro h none
    by_cases same : h = g
    · subst same
      simp [State.setFile] at none
    · simp only [State.setFile, others same] at none ⊢
      exact sound.free none
  · intro h none
    by_cases same : h = g
    · subst same
      have before := sound.counted h
      exact (by omega : s.entries h = 0)
    · simp only [State.setFile, others same] at none
      exact sound.unopened none
  · intro k new
    exact sound.fresh (by dsimp only at new; omega)
  · intro h some
    by_cases same : h = g
    · subst same
      have fresh := sound.fresh (le_refl s.allocated)
      simp only [State.setFile, update_self]
      refine ⟨by omega, fresh.2, fresh.1.trans ?_⟩
      simp [File.object, type]
    · have before := sound.live (was same some)
      simp only [State.setFile, update_of_ne same]
      exact ⟨by omega, before.2⟩
  · intro h i first second same
    dsimp only at same
    by_cases left : h = g
    · by_cases right : i = g
      · rw [left, right]
      · subst left
        have old := (sound.live (was right second)).1
        rw [update_self, update_of_ne right] at same
        omega
    · by_cases right : i = g
      · subst right
        have old := (sound.live (was left first)).1
        rw [update_self, update_of_ne left] at same
        omega
      · rw [update_of_ne left, update_of_ne right] at same
        exact sound.apart (was left first) (was right second) same
  · intro k old unused
    dsimp only at old
    have recent : k ≠ s.allocated := by
      rintro rfl
      exact unused ⟨g, by simp [State.setFile], by simp⟩
    refine sound.dropped (by omega) ?_
    rintro ⟨h, some, same⟩
    have apart : h ≠ g := by
      rintro rfl
      omega
    exact unused ⟨h, by simpa [State.setFile, others apart] using some, by simpa [apart] using same⟩
  · simp [State.setFile]
  · simpa [State.setFile] using type

theorem Sound.filedup (sound : Sound s hand) (used : 0 < (s.ftable f).ref) :
    Meets (fun _ => False) (fun t => Sound t (f :: hand) ∧ Keeps s t ∧ (t.ftable f).type = (s.ftable f).type)
      (s.filedup f) := by
  rw [State.filedup, if_neg (by omega)]
  refine ⟨sound.setFile (fun g => ?_) used (Nat.succ_pos _) rfl, ⟨rfl, rfl⟩, by simp [State.setFile]⟩
  have before := sound.counted g
  by_cases same : g = f
  · subst same
    rw [update_self, List.count_cons_self]
    dsimp only
    omega
  · rw [update_of_ne same, List.count_cons_of_ne (Ne.symm same), before]

def State.drop (s : State) (f : FileSlot) : State :=
  { s.setFile f { s.ftable f with ref := 0, type := .none } with
    released := s.released ++ (s.ftable f).object.toList.map fun object => (s.serial f, object) }

theorem fileclose_last (last : (s.ftable f).ref = 1) : s.fileclose f = .ok (s.drop f) := by
  rw [State.fileclose, if_neg (by omega), if_neg (by omega)]
  cases type : (s.ftable f).type <;> simp [State.drop, State.release, State.setFile, File.object, type]

theorem releases_drop (s : State) (f : FileSlot) (k : Nat) :
    (s.drop f).releases k = s.releases k ++ if s.serial f = k then (s.ftable f).object.toList else [] := by
  simp only [State.releases, State.drop, List.filterMap_append, List.append_cancel_left_eq]
  cases (s.ftable f).object with
  | none => simp
  | some object =>
      split
      · rename_i same
        simp [same]
      · rename_i differs
        simp [differs]

theorem Sound.drop (sound : Sound s (f :: hand)) (last : (s.ftable f).ref = 1) : Sound (s.drop f) hand := by
  have live := sound.live (by omega : 0 < (s.ftable f).ref)
  have others {g : FileSlot} (apart : g ≠ f) : (s.drop f).ftable g = s.ftable g := update_of_ne apart _ _
  have was {g : FileSlot} (some : 0 < ((s.drop f).ftable g).ref) : g ≠ f ∧ 0 < (s.ftable g).ref := by
    have apart : g ≠ f := by
      rintro rfl
      simp [State.drop, State.setFile] at some
    exact ⟨apart, by rwa [others apart] at some⟩
  have differs {g : FileSlot} (some : 0 < ((s.drop f).ftable g).ref) : s.serial f ≠ s.serial g := fun same =>
    (was some).1 (sound.apart (was some).2 (by omega) same.symm)
  have counts := sound.counted f
  rw [List.count_cons_self, last] at counts
  refine ⟨?_, ?_, ?_, ?_, ?_, ?_, ?_⟩
  · intro g
    have before := sound.counted g
    by_cases same : g = f
    · subst same
      have none : ((s.drop g).ftable g).ref = 0 := by simp [State.drop, State.setFile]
      rw [none]
      exact (by omega : 0 = s.entries g + hand.count g)
    · rw [List.count_cons_of_ne (Ne.symm same)] at before
      rw [others same]
      exact before
  · intro g none
    by_cases same : g = f
    · subst same
      simp [State.drop, State.setFile]
    · rw [others same] at none ⊢
      exact sound.free none
  · intro g none
    by_cases same : g = f
    · subst same
      exact (by omega : s.entries g = 0)
    · rw [others same] at none
      exact sound.unopened none
  · intro k new
    rw [releases_drop, if_neg (fun same => by have old := live.1; dsimp only [State.drop, State.setFile] at new; omega)]
    rw [List.append_nil]
    exact sound.fresh new
  · intro g some
    have before := sound.live (was some).2
    have kept : (s.drop f).serial g = s.serial g := rfl
    rw [kept, releases_drop, if_neg (differs some), others (was some).1, List.append_nil]
    exact before
  · intro g h first second same
    exact sound.apart (was first).2 (was second).2 same
  · intro k old unused
    rw [releases_drop]
    by_cases same : s.serial f = k
    · subst same
      have opened : (s.drop f).opened (s.serial f) = (s.ftable f).object := live.2.2
      rw [if_pos rfl, live.2.1, opened]
      rfl
    · rw [if_neg same, List.append_nil]
      refine sound.dropped old ?_
      rintro ⟨g, some, number⟩
      have apart : g ≠ f := by
        rintro rfl
        exact same number
      exact unused ⟨g, by rwa [others apart], number⟩

theorem Sound.fileclose (sound : Sound s (f :: hand)) :
    Meets (fun _ => False) (fun t => Sound t hand ∧ Keeps s t) (s.fileclose f) := by
  have used := sound.used List.mem_cons_self
  by_cases last : (s.ftable f).ref = 1
  · rw [fileclose_last last]
    exact ⟨sound.drop last, ⟨rfl, rfl⟩⟩
  · rw [State.fileclose, if_neg (by omega), if_pos (by omega)]
    refine ⟨sound.setFile (fun g => ?_) used (by dsimp only; omega) rfl, ⟨rfl, rfl⟩⟩
    have before := sound.counted g
    by_cases same : g = f
    · subst same
      rw [List.count_cons_self] at before
      rw [update_self]
      dsimp only
      omega
    · rw [List.count_cons_of_ne (Ne.symm same)] at before
      rw [update_of_ne same, before]

theorem Sound.setFd (sound : Sound s hand) {fd : Fd} {entry : Option FileSlot} {hand' : List FileSlot}
    (counted : ∀ g, State.points g entry + hand'.count g = State.points g (s.ofile (p, fd)) + hand.count g)
    (opened : ∀ g, entry = some g → (s.ftable g).type ≠ .none) : Sound (s.setFd p fd entry) hand' := by
  refine ⟨fun g => ?_, sound.free, fun {g} none => ?_, sound.fresh, sound.live, sound.apart, sound.dropped⟩
  · have before := sound.counted g
    have entries := s.entries_setFd p fd entry g
    have tokens := counted g
    have kept : ((s.setFd p fd entry).ftable g).ref = (s.ftable g).ref := rfl
    omega
  · have before := sound.unopened none
    have entries := s.entries_setFd p fd entry g
    have new : State.points g entry = 0 := if_neg fun same => opened g same none
    have old : 0 ≤ State.points g (s.ofile (p, fd)) := by
      rw [State.points]
      split <;> decide
    omega

theorem Sound.install (sound : Sound s (f :: hand)) {fd : Fd} (free : s.ofile (p, fd) = none)
    (opened : (s.ftable f).type ≠ .none) : Sound (s.setFd p fd (some f)) hand := by
  refine sound.setFd (fun g => ?_) fun g same => Option.some.inj same ▸ opened
  rw [free]
  by_cases same : g = f
  · subst same
    rw [List.count_cons_self]
    simp [State.points]
    omega
  · rw [List.count_cons_of_ne (Ne.symm same)]
    simp [State.points, Ne.symm same]

theorem Sound.remove (sound : Sound s hand) {fd : Fd} (here : s.ofile (p, fd) = some f) :
    Sound (s.setFd p fd none) (f :: hand) := by
  refine sound.setFd (fun g => ?_) fun g same => absurd same (by simp)
  rw [here]
  by_cases same : g = f
  · subst same
    rw [List.count_cons_self]
    simp [State.points]
    omega
  · rw [List.count_cons_of_ne (Ne.symm same)]
    simp [State.points, Ne.symm same]

theorem Sound.used_of_entry (sound : Sound s hand) {x : Slot × Fd} (here : s.ofile x = some f) :
    0 < (s.ftable f).ref := by
  have counted := sound.counted f
  have some : 0 < s.entries f := Finset.card_pos.mpr ⟨x, by simp [here]⟩
  omega

theorem Sound.opened_of_entry (sound : Sound s hand) {x : Slot × Fd} (here : s.ofile x = some f) :
    (s.ftable f).type ≠ .none := by
  intro none
  have some : 0 < s.entries f := Finset.card_pos.mpr ⟨x, by simp [here]⟩
  have zero := sound.unopened none
  omega

theorem Sound.attach (sound : Sound s hand) {file : File} {object : Object} (used : 0 < (s.ftable f).ref)
    (ref : file.ref = (s.ftable f).ref) (opens : file.object = some object) :
    Sound ((s.setFile f file).openOn (s.serial f) object) hand := by
  have live := sound.live used
  have refs (g : FileSlot) : (update s.ftable f file g).ref = (s.ftable g).ref := by
    by_cases same : g = f
    · subst same
      rw [update_self, ref]
    · rw [update_of_ne same]
  have was {g : FileSlot} (some : 0 < (update s.ftable f file g).ref) : 0 < (s.ftable g).ref := by
    rwa [refs] at some
  refine ⟨fun g => (refs g).trans (sound.counted g), ?_, ?_, ?_, ?_,
    fun first second => sound.apart (was first) (was second), ?_⟩
  · intro g none
    simp only [State.openOn, State.setFile] at none ⊢
    by_cases same : g = f
    · subst same
      rw [refs] at none
      omega
    · rw [update_of_ne same] at none ⊢
      exact sound.free none
  · intro g none
    simp only [State.openOn, State.setFile] at none
    by_cases same : g = f
    · subst same
      rw [update_self] at none
      simp [File.object_eq_none.mpr none] at opens
    · rw [update_of_ne same] at none
      exact sound.unopened none
  · intro k new
    have differs : k ≠ s.serial f := by
      rintro rfl
      exact absurd live.1 (not_lt.mpr new)
    refine ⟨?_, (sound.fresh new).2⟩
    simp only [State.openOn, State.setFile]
    rw [update_of_ne differs]
    exact (sound.fresh new).1
  · intro g some
    have before := sound.live (was some)
    refine ⟨before.1, before.2.1, ?_⟩
    simp only [State.openOn, State.setFile]
    by_cases same : g = f
    · subst same
      rw [update_self, update_self, opens]
    · have differs : s.serial g ≠ s.serial f := fun number => same (sound.apart (was some) used number)
      rw [update_of_ne differs, update_of_ne same]
      exact before.2.2
  · intro k old unused
    have differs : k ≠ s.serial f := by
      rintro rfl
      exact unused ⟨f, by simp only [State.openOn, State.setFile]; rwa [refs], rfl⟩
    simp only [State.openOn, State.setFile]
    rw [update_of_ne differs]
    refine sound.dropped old ?_
    rintro ⟨g, some, number⟩
    exact unused ⟨g, by simp only [State.openOn, State.setFile]; rwa [refs], number⟩

theorem Sound.settle (sound : Sound s hand) {k : Nat} {object : Object} (old : k < s.allocated)
    (unused : ¬ s.inUse k) (unopened : s.opened k = none) :
    Sound ((s.openOn k object).release k object) hand := by
  have none := sound.dropped old unused
  rw [unopened] at none
  refine ⟨sound.counted, sound.free, sound.unopened, ?_, ?_, sound.apart, ?_⟩
  · intro j new
    have differs : j ≠ k := by
      rintro rfl
      exact absurd old (not_lt.mpr new)
    rw [State.releases_release, if_neg (Ne.symm differs), List.append_nil]
    refine ⟨?_, (sound.fresh new).2⟩
    simp only [State.release, State.openOn]
    rw [update_of_ne differs]
    exact (sound.fresh new).1
  · intro g some
    have differs : s.serial g ≠ k := fun number => unused ⟨g, some, number⟩
    have before := sound.live some
    refine ⟨before.1, ?_, ?_⟩
    · rw [State.releases_release]
      exact (congrArg₂ (· ++ ·) before.2.1 (if_neg (Ne.symm differs))).trans rfl
    · simp only [State.release, State.openOn]
      rw [update_of_ne differs]
      exact before.2.2
  · intro j older away
    rw [State.releases_release]
    simp only [State.release, State.openOn]
    by_cases same : k = j
    · subst same
      rw [if_pos rfl, update_self]
      exact congrArg (· ++ [object]) none
    · rw [if_neg same, update_of_ne (Ne.symm same), List.append_nil]
      exact sound.dropped older away

theorem fdalloc_spec {fd : Fd} (given : s.fdalloc p f = some (fd, t)) :
    s.ofile (p, fd) = none ∧ t = s.setFd p fd (some f) := by
  obtain ⟨fd', found, same⟩ := Option.map_eq_some_iff.mp given
  obtain ⟨rfl, rfl⟩ := Prod.mk.inj same
  exact ⟨by simpa using List.find?_some found, rfl⟩

theorem argfd_spec {n : Int} {fd : Fd} (given : s.argfd p n = some (fd, f)) : s.ofile (p, fd) = some f := by
  rw [State.argfd] at given
  split at given
  · obtain ⟨g, here, same⟩ := Option.map_eq_some_iff.mp given
    obtain ⟨rfl, rfl⟩ := Prod.mk.inj same
    exact here
  · simp at given

end Primitives

section Calls

def hands : Option (FileSlot × FileSlot) → List FileSlot
  | none => []
  | some (f0, f1) => [f0, f1]

theorem Idle.keeps (idle : Idle s) (keeps : Keeps s t) : Idle t := by
  intro q away fd
  rw [keeps.ofile]
  exact idle q (keeps.life ▸ away) fd

theorem Idle.setFd (idle : Idle s) (alive : s.life p = .live) (fd : Fd) (entry : Option FileSlot) :
    Idle (s.setFd p fd entry) := by
  intro q away fd'
  have apart : (q, fd') ≠ (p, fd) := by
    rintro same
    obtain ⟨rfl, -⟩ := Prod.mk.inj same
    exact away alive
  exact (update_of_ne apart _ _).trans (idle q away fd')

theorem Sound.openEnd (sound : Sound s hand) (inHand : f ∈ hand) (writable : Bool) :
    Sound (s.openEnd f writable) hand :=
  sound.attach (sound.used inHand) rfl rfl

theorem Sound.pipealloc (sound : Sound s []) (memory : Bool) :
    Meets (fun _ => False) (fun r => Sound r.1 (hands r.2) ∧ Keeps s r.1 ∧
      ∀ f ∈ hands r.2, (r.1.ftable f).type ≠ .none) (s.pipealloc memory) := by
  rw [State.pipealloc]
  cases first : s.filealloc with
  | none => exact ⟨sound, ⟨rfl, rfl⟩, by simp [hands]⟩
  | some r =>
      obtain ⟨f0, s₁⟩ := r
      obtain ⟨sound₁, keeps₁, -⟩ := sound.filealloc first
      dsimp only
      cases second : s₁.filealloc with
      | none => exact sound₁.fileclose.bind fun t closed => ⟨closed.1, keeps₁.trans closed.2, by simp [hands]⟩
      | some r =>
          obtain ⟨f1, s₂⟩ := r
          obtain ⟨sound₂, keeps₂, -⟩ := sound₁.filealloc second
          have sound₂ : Sound s₂ [f0, f1] := sound₂.perm (List.Perm.swap _ _ _)
          have keeps := keeps₁.trans keeps₂
          dsimp only
          cases memory with
          | true =>
              have opened := (sound₂.openEnd (f := f0) (by simp) false).openEnd (f := f1) (by simp) true
              refine ⟨opened.congr rfl rfl rfl rfl rfl rfl, keeps.trans ⟨rfl, rfl⟩, fun f inHand => ?_⟩
              rcases List.mem_cons.mp inHand with rfl | inHand
              · by_cases same : f = f1 <;> simp [State.openEnd, State.setFile, State.openOn, State.pipeFile, same]
              · obtain rfl := List.mem_singleton.mp inHand
                simp [State.openEnd, State.setFile, State.openOn, State.pipeFile]
          | false =>
              refine sound₂.fileclose.bind fun s₃ closed => ?_
              refine closed.1.fileclose.bind fun s₄ closed' => ?_
              exact ⟨closed'.1, keeps.trans (closed.2.trans closed'.2), by simp [hands]⟩

variable (sound : Sound s []) (idle : Idle s)
include sound idle

theorem sysPipe_sound (alive : s.life p = .live) (valid memory : Bool) :
    Meets (fun _ => False) (fun r => Sound r.1 [] ∧ Idle r.1) (s.sysPipe p valid memory) := by
  rw [State.sysPipe]
  cases valid with
  | false => exact ⟨sound, idle⟩
  | true =>
      refine (sound.pipealloc memory).bind fun r made => ?_
      obtain ⟨s₁, ends⟩ := r
      obtain ⟨sound₁, keeps, opened⟩ := made
      have idle₁ := idle.keeps keeps
      have alive₁ : s₁.life p = .live := (congrFun keeps.life p).trans alive
      cases ends with
      | none => exact ⟨sound₁, idle₁⟩
      | some ends =>
          obtain ⟨rf, wf⟩ := ends
          have sound₁ : Sound s₁ [rf, wf] := sound₁
          dsimp only
          cases first : s₁.fdalloc p rf with
          | none =>
              refine sound₁.fileclose.bind fun s₂ closed => ?_
              refine closed.1.fileclose.bind fun s₃ closed' => ?_
              exact ⟨closed'.1, idle₁.keeps (closed.2.trans closed'.2)⟩
          | some r =>
              obtain ⟨fd0, s₂⟩ := r
              obtain ⟨free, rfl⟩ := fdalloc_spec first
              have sound₂ := sound₁.install free (opened rf (by simp [hands]))
              have idle₂ := idle₁.setFd alive₁ fd0 (some rf)
              dsimp only
              cases second : (s₁.setFd p fd0 (some rf)).fdalloc p wf with
              | none =>
                  have removed : Sound ((s₁.setFd p fd0 (some rf)).setFd p fd0 none) [rf, wf] :=
                    sound₂.remove (update_self _ _ _)
                  refine removed.fileclose.bind fun s₃ closed => ?_
                  refine closed.1.fileclose.bind fun s₄ closed' => ?_
                  exact ⟨closed'.1, (idle₂.setFd alive₁ fd0 none).keeps (closed.2.trans closed'.2)⟩
              | some r =>
                  obtain ⟨fd1, s₃⟩ := r
                  obtain ⟨free', rfl⟩ := fdalloc_spec second
                  exact ⟨sound₂.install free' (opened wf (by simp [hands])), idle₂.setFd alive₁ fd1 (some wf)⟩

theorem sysDup_sound (alive : s.life p = .live) (n : Int) :
    Meets (fun _ => False) (fun r => Sound r.1 [] ∧ Idle r.1) (s.sysDup p n) := by
  rw [State.sysDup]
  cases found : s.argfd p n with
  | none => exact ⟨sound, idle⟩
  | some r =>
      obtain ⟨fd, f⟩ := r
      dsimp only
      cases given : s.fdalloc p f with
      | none => exact ⟨sound, idle⟩
      | some r =>
          obtain ⟨fd', s₁⟩ := r
          obtain ⟨free, rfl⟩ := fdalloc_spec given
          dsimp only
          rw [State.filedup_setFd]
          refine ((sound.filedup (sound.used_of_entry (argfd_spec found))).map ?_).bind fun _ done => done
          intro s₁ dup
          obtain ⟨sound₁, keeps, type⟩ := dup
          have free₁ : s₁.ofile (p, fd') = none := (congrFun keeps.ofile _).trans free
          have alive₁ : s₁.life p = .live := (congrFun keeps.life p).trans alive
          exact ⟨sound₁.install free₁ (type ▸ sound.opened_of_entry (argfd_spec found)),
            (idle.keeps keeps).setFd alive₁ fd' (some f)⟩

theorem sysClose_sound (alive : s.life p = .live) (n : Int) :
    Meets (fun _ => False) (fun r => Sound r.1 [] ∧ Idle r.1) (s.sysClose p n) := by
  rw [State.sysClose]
  cases found : s.argfd p n with
  | none => exact ⟨sound, idle⟩
  | some r =>
      obtain ⟨fd, f⟩ := r
      dsimp only
      refine (sound.remove (argfd_spec found)).fileclose.bind fun t closed => ?_
      exact ⟨closed.1, (idle.setFd alive fd none).keeps closed.2⟩

theorem sysOpen_sound (alive : s.life p = .live) (found : Option Nat) (omode : BitVec 32) :
    Meets (fun _ => False) (fun r => Sound r.1 [] ∧ Idle r.1) (s.sysOpen p found omode) := by
  cases found with
  | none => exact ⟨sound, idle⟩
  | some ip =>
      rw [State.sysOpen]
      cases taken : s.filealloc with
      | none => exact ⟨sound, idle⟩
      | some r =>
          obtain ⟨f, s₁⟩ := r
          obtain ⟨sound₁, keeps, once, type⟩ := sound.filealloc taken
          have idle₁ := idle.keeps keeps
          have alive₁ : s₁.life p = .live := (congrFun keeps.life p).trans alive
          have live := sound₁.live (f := f) (by omega)
          dsimp only
          cases given : s₁.fdalloc p f with
          | none =>
              dsimp only
              rw [fileclose_last once]
              have closed := sound₁.drop once
              refine ⟨closed.settle live.1 ?_ ?_, idle₁⟩
              · rintro ⟨g, some, number⟩
                have apart : g ≠ f := by
                  rintro rfl
                  simp [State.drop, State.setFile] at some
                refine apart (sound₁.apart ?_ (by omega) number)
                simpa [State.drop, State.setFile, apart] using some
              · exact live.2.2.trans (by simp [File.object, type])
          | some r =>
              obtain ⟨fd, s₂⟩ := r
              obtain ⟨free, rfl⟩ := fdalloc_spec given
              have attached : Sound ((s₁.setFile f (State.inodeFile (s₁.ftable f) ip omode)).openOn (s₁.serial f)
                  (.inode ip)) [f] := sound₁.attach (by omega) rfl rfl
              have installed := attached.install (p := p) free (by simp [State.openOn, State.setFile, State.inodeFile])
              exact ⟨installed, idle₁.setFd alive₁ fd (some f)⟩

omit sound idle in
structure Copying (s : State) (np : Slot) (rest : List Fd) (t : State) : Prop where
  sound : Sound t []
  life : t.life = s.life
  others : ∀ q, q ≠ np → ∀ fd, t.ofile (q, fd) = s.ofile (q, fd)
  distinct : rest.Nodup
  empty : ∀ fd ∈ rest, t.ofile (np, fd) = none

omit sound idle in
theorem Copying.round {np : Slot} {fd : Fd} {rest : List Fd} (copying : Copying s np (fd :: rest) t) :
    Meets (fun _ => False) (Copying s np rest) (t.dupFd p np fd) := by
  obtain ⟨sound, life, others, distinct, empty⟩ := copying
  obtain ⟨fresh, distinct⟩ := List.nodup_cons.mp distinct
  rw [State.dupFd]
  cases here : t.ofile (p, fd) with
  | none => exact ⟨sound, life, others, distinct, fun fd' later => empty fd' (List.mem_cons_of_mem _ later)⟩
  | some f =>
      refine (sound.filedup (sound.used_of_entry here)).bind fun u dup => ?_
      obtain ⟨sound', keeps, type⟩ := dup
      have free : u.ofile (np, fd) = none := (congrFun keeps.ofile _).trans (empty fd List.mem_cons_self)
      refine ⟨sound'.install free (type ▸ sound.opened_of_entry here), keeps.life.trans life,
        fun q apart fd' => ?_, distinct, fun fd' later => ?_⟩
      · have differs : (q, fd') ≠ (np, fd) := fun same => apart (Prod.mk.inj same).1
        exact (update_of_ne differs _ _).trans ((congrFun keeps.ofile _).trans (others q apart fd'))
      · have differs : (np, fd') ≠ (np, fd) := fun same => fresh ((Prod.mk.inj same).2 ▸ later)
        exact (update_of_ne differs _ _).trans
          ((congrFun keeps.ofile _).trans (empty fd' (List.mem_cons_of_mem _ later)))

theorem fork_sound (memory : Bool) :
    Meets (fun _ => False) (fun r => Sound r.1 [] ∧ Idle r.1) (s.fork p memory) := by
  rw [State.fork]
  cases found : (List.finRange nproc).find? fun q => s.life q = .unused with
  | none => exact ⟨sound, idle⟩
  | some np =>
      have unused : s.life np = .unused := by simpa using List.find?_some found
      cases memory with
      | false => exact ⟨sound, idle⟩
      | true =>
          have start : Copying s np (List.finRange nofile) s :=
            ⟨sound, rfl, fun _ _ _ => rfl, List.nodup_finRange _, fun fd _ => idle np (by simp [unused]) fd⟩
          have loop : Meets (fun _ => False) (Copying s np [])
              ((List.finRange nofile).foldlM (fun t fd => t.dupFd p np fd) s) :=
            Meets.foldlM (fun fd rest t copying => copying.round) start
          refine loop.bind fun t copied => ⟨?_, fun q away fd => ?_⟩
          · exact copied.sound.congr rfl rfl rfl rfl rfl rfl
          · dsimp only at away ⊢
            have apart : q ≠ np := by
              rintro rfl
              exact away (update_self _ _ _)
            rw [update_of_ne apart, copied.life] at away
            exact (copied.others q apart fd).trans (idle q away fd)

omit sound idle in
structure Closing (s : State) (p : Slot) (rest : List Fd) (t : State) : Prop where
  sound : Sound t []
  life : t.life = s.life
  others : ∀ q, q ≠ p → ∀ fd, t.ofile (q, fd) = s.ofile (q, fd)
  closed : ∀ fd, fd ∉ rest → t.ofile (p, fd) = none

omit sound idle in
theorem Closing.round {fd : Fd} {rest : List Fd} (closing : Closing s p (fd :: rest) t) :
    Meets (fun _ => False) (Closing s p rest) (t.closeFd p fd) := by
  obtain ⟨sound, life, others, closed⟩ := closing
  rw [State.closeFd]
  cases here : t.ofile (p, fd) with
  | none =>
      refine ⟨sound, life, others, fun fd' passed => ?_⟩
      by_cases same : fd' = fd
      · rw [same, here]
      · exact closed fd' (by simp [same, passed])
  | some f =>
      have gone := (sound.remove here).fileclose
      rw [State.fileclose_setFd, map_eq_pure_bind] at gone
      refine gone.imp fun u closed' => ⟨closed'.1, closed'.2.life.trans life, fun q apart fd' => ?_, fun fd' passed => ?_⟩
      · have differs : (q, fd') ≠ (p, fd) := fun same => apart (Prod.mk.inj same).1
        exact (congrFun closed'.2.ofile _).trans ((update_of_ne differs _ _).trans (others q apart fd'))
      · refine (congrFun closed'.2.ofile _).trans ?_
        by_cases same : fd' = fd
        · rw [same]
          exact update_self _ _ _
        · have differs : (p, fd') ≠ (p, fd) := fun pair => same (Prod.mk.inj pair).2
          exact (update_of_ne differs _ _).trans (closed fd' (by simp [same, passed]))

theorem exit_sound (other : p ≠ initproc) : Meets (fun _ => False) (fun t => Sound t [] ∧ Idle t) (s.exit p) := by
  rw [State.exit, if_neg other]
  have start : Closing s p (List.finRange nofile) s :=
    ⟨sound, rfl, fun _ _ _ => rfl, fun fd passed => absurd (List.mem_finRange fd) passed⟩
  have loop : Meets (fun _ => False) (Closing s p [])
      ((List.finRange nofile).foldlM (fun t fd => t.closeFd p fd) s) :=
    Meets.foldlM (fun fd rest t closing => closing.round) start
  refine loop.bind fun t closed => ⟨?_, fun q away fd => ?_⟩
  · exact closed.sound.congr rfl rfl rfl rfl rfl rfl
  · dsimp only at away ⊢
    by_cases same : q = p
    · subst same
      exact closed.closed fd (by simp)
    · rw [update_of_ne same, closed.life] at away
      exact (closed.others q same fd).trans (idle q away fd)

theorem call_sound (alive : s.life p = .live) {call : Call} (other : call = .exit → p ≠ initproc) :
    Meets (fun _ => False) (fun t => Sound t [] ∧ Idle t) (s.call p call) := by
  cases call with
  | open' found omode => exact (sysOpen_sound sound idle alive found omode).map fun _ holds => holds
  | dup fd => exact (sysDup_sound sound idle alive fd).map fun _ holds => holds
  | close fd => exact (sysClose_sound sound idle alive fd).map fun _ holds => holds
  | pipe valid memory => exact (sysPipe_sound sound idle alive valid memory).map fun _ holds => holds
  | fork memory => exact (fork_sound sound idle memory).map fun _ holds => holds
  | exit => exact exit_sound sound idle (other rfl)
  | wait q =>
      rw [State.call]
      split
      · rename_i dead
        refine ⟨sound.congr rfl rfl rfl rfl rfl rfl, fun r away fd => ?_⟩
        refine idle r (fun alive => away ?_) fd
        have apart : r ≠ q := by
          rintro rfl
          simp [dead] at alive
        exact (update_of_ne apart _ _).trans alive
      · exact ⟨sound, idle⟩

end Calls

theorem boot_sound : Sound boot [] ∧ Idle boot := by
  refine ⟨⟨fun f => ?_, fun _ => rfl, fun {f} _ => ?_, fun _ => ⟨rfl, rfl⟩, ?_, ?_, ?_⟩, fun _ _ _ => rfl⟩
  · simp [boot, State.entries]
  · simp [boot, State.entries]
  · intro f some
    simp [boot] at some
  · intro f g some
    simp [boot] at some
  · intro k old
    simp [boot] at old

theorem sound_run {events : List (Slot × Call)} (reached : run step boot events = some s) : Sound s [] ∧ Idle s := by
  refine run_invariant (fun _ s => Sound s [] ∧ Idle s) boot_sound ?_ events s reached
  rintro _ before ⟨p, call⟩ after ⟨sound, idle⟩ stepped
  rw [step] at stepped
  split at stepped
  · rename_i alive
    have returns := eq_ok_of_toOption stepped
    refine (call_sound sound idle alive fun exits => ?_).of_ok returns
    rintro rfl
    dsimp only at exits returns
    subst exits
    simp [State.call, State.exit] at returns
  · simp at stepped

/-- After every sequence of calls: the count of every file is the number of descriptors for it, a file whose
count has reached 0 has been given back once and no other file has, and every further call returns. -/
theorem files_counted {events : List (Slot × Call)} (reached : run step boot events = some s) :
    (∀ f, (s.ftable f).ref = s.entries f) ∧
    (∀ k, k < s.allocated →
      s.inUse k ∧ (s.opened k).isSome ∧ s.releases k = [] ∨ ¬ s.inUse k ∧ s.releases k = (s.opened k).toList) ∧
    ∀ p call, s.life p = .live → (call = .exit → p ≠ initproc) → (step s (p, call)).isSome := by
  obtain ⟨sound, idle⟩ := sound_run reached
  refine ⟨fun f => ?_, fun k old => ?_, fun p call alive other => ?_⟩
  · simpa using sound.counted f
  · by_cases used : s.inUse k
    · obtain ⟨f, some, rfl⟩ := used
      obtain ⟨-, none, opened⟩ := sound.live some
      refine Or.inl ⟨⟨f, some, rfl⟩, ?_, none⟩
      by_contra unopened
      rw [Option.not_isSome_iff_eq_none, opened, File.object_eq_none] at unopened
      have counts := sound.counted f
      have zero := sound.unopened unopened
      rw [List.count_nil] at counts
      omega
    · exact Or.inr ⟨used, sound.dropped old used⟩
  · obtain ⟨t, returns, -⟩ := (call_sound sound idle alive other).returns
    simp [step, alive, returns, Except.toOption]

/-- `init` opens a file, duplicates it, fails to make a pipe and forks; then both close what they have. -/
def closesAll : List (Slot × Call) :=
  [(initproc, .open' (some 5) 0), (initproc, .dup 0), (initproc, .pipe true false), (initproc, .fork true),
    (initproc, .close 0), (initproc, .close 1), (⟨1, by decide⟩, .exit)]

theorem files_counted_closed : ∃ s, run step boot closesAll = some s ∧ s.allocated = 3 ∧
    s.released = [(0, .inode 5)] ∧ (∀ f, (s.ftable f).ref = s.entries f) ∧
    ∀ k, k < s.allocated →
      s.inUse k ∧ (s.opened k).isSome ∧ s.releases k = [] ∨ ¬ s.inUse k ∧ s.releases k = (s.opened k).toList := by
  have facts : (run step boot closesAll).map (fun s => (s.allocated, s.released)) = some (3, [(0, .inode 5)]) := by
    decide +kernel
  obtain ⟨s, reached, values⟩ := Option.map_eq_some_iff.mp facts
  obtain ⟨allocated, released⟩ := Prod.mk.inj values
  obtain ⟨counted, given, -⟩ := files_counted reached
  exact ⟨s, reached, allocated, released, counted, given⟩

end OsLabs.Files
