import OsLabs.Cache.CacheSound

/-!
What `bread` returns. On a device that has its drive for itself, and as long as no holder
gives back a buffer that it changed and did not pass to `log_write` or `bwrite`, the cache
is transparent: it shows every block as its last holder left it.
-/

namespace OsLabs.Cache

open Function OsLabs.Interleaving OsLabs.LinkedRing OsLabs.Runs
open OsLabs.Log (Block)

variable {ι : Type*} {havedisk1 : Bool} {dev : Nat}

def OwnDrive (dev : Nat) : ι × Action → Prop
  | (_, .bread other _) => other % 2 = dev % 2 → other = dev
  | _ => True

/-- A holder passes what it changed to `log_write` or `bwrite` before `brelse`. -/
def Passes (dev : Nat) (s : State ι) : ι × Action → Prop
  | (_, .brelse b) => (s.shared.bufs b).dev = dev → s.shared.touched b = false
  | _ => True

instance (dev : Nat) (event : ι × Action) : Decidable (OwnDrive dev event) :=
  match event with
  | (_, .bread _ _) => inferInstanceAs (Decidable (_ → _))
  | (_, .modify _ _) | (_, .logWrite _) | (_, .bwrite _) | (_, .brelse _) | (_, .go) =>
      inferInstanceAs (Decidable True)

instance (dev : Nat) (s : State ι) : DecidablePred (Passes dev s)
  | (_, .brelse _) => inferInstanceAs (Decidable (_ → _))
  | (_, .bread _ _) | (_, .modify _ _) | (_, .logWrite _) | (_, .bwrite _) | (_, .go) =>
      inferInstanceAs (Decidable True)

def Pins (c : Bcache ι) (dev blockno : Nat) (b : Fin nbuf) : Prop :=
  (c.bufs b).Caches dev blockno ∧ (c.bufs b).valid = true ∧
    ((c.bufs b).dirty = true ∨ c.touched b = true)

structure Transparent (dev : Nat) (c : Bcache ι) : Prop where
  drive : ∀ b, 0 < (c.bufs b).refcnt → (c.bufs b).dev % 2 = dev % 2 → (c.bufs b).dev = dev
  seen : ∀ b blockno, (c.bufs b).Caches dev blockno → (c.bufs b).valid = true →
    (c.bufs b).data = c.contents dev blockno
  stored : ∀ blockno, c.disk (dev % 2) blockno = c.contents dev blockno ∨ ∃ b, Pins c dev blockno b
  guarded : ∀ b, (c.bufs b).dev = dev → c.touched b = true → (c.holder b).isSome = true

theorem transparent_binit (disk : Nat → Nat → Block) : Transparent dev (binit disk : Bcache ι) where
  drive b referred := absurd referred (Nat.lt_irrefl 0)
  seen b blockno _ valid := by simp [binit] at valid
  stored blockno := Or.inl rfl
  guarded b _ touched := by simp [binit] at touched

section Operations

variable {c next : Bcache ι} {b : Fin nbuf} (transparent : Transparent dev c)

include transparent

theorem Transparent.change
    (others : ∀ other, other ≠ b → next.bufs other = c.bufs other ∧
      next.touched other = c.touched other ∧ next.holder other = c.holder other)
    (drive : 0 < (next.bufs b).refcnt → (next.bufs b).dev % 2 = dev % 2 → (next.bufs b).dev = dev)
    (seen : ∀ blockno, (next.bufs b).Caches dev blockno → (next.bufs b).valid = true →
      (next.bufs b).data = next.contents dev blockno)
    (guarded : (next.bufs b).dev = dev → next.touched b = true → (next.holder b).isSome = true)
    (contents : ∀ other blockno, other ≠ b → (c.bufs other).Caches dev blockno →
      next.contents dev blockno = c.contents dev blockno)
    (stored : ∀ blockno, next.disk (dev % 2) blockno = next.contents dev blockno ∨
      Pins next dev blockno b ∨ ¬Pins c dev blockno b ∧
        next.disk (dev % 2) blockno = c.disk (dev % 2) blockno ∧
        next.contents dev blockno = c.contents dev blockno) : Transparent dev next := by
  refine ⟨?_, ?_, ?_, ?_⟩
  · intro other
    by_cases mine : other = b
    · rw [mine]
      exact drive
    · rw [(others other mine).1]
      exact transparent.drive other
  · intro other blockno
    by_cases mine : other = b
    · rw [mine]
      exact seen blockno
    · rw [(others other mine).1]
      intro cached valid
      rw [contents other blockno mine cached]
      exact transparent.seen other blockno cached valid
  · intro blockno
    rcases stored blockno with same | pins | ⟨free, disk, same⟩
    · exact Or.inl same
    · exact Or.inr ⟨b, pins⟩
    · rw [disk, same]
      rcases transparent.stored blockno with old | ⟨pin, pins⟩
      · exact Or.inl old
      · have different : pin ≠ b := by
          rintro rfl
          exact free pins
        refine Or.inr ⟨pin, ?_⟩
        rwa [Pins, (others pin different).1, (others pin different).2.1]
  · intro other
    by_cases mine : other = b
    · rw [mine]
      exact guarded
    · obtain ⟨buf, touched, holder⟩ := others other mine
      rw [buf, touched, holder]
      exact transparent.guarded other

theorem Transparent.change_quiet
    (others : ∀ other, other ≠ b → next.bufs other = c.bufs other ∧
      next.touched other = c.touched other ∧ next.holder other = c.holder other)
    (drive : 0 < (next.bufs b).refcnt → (next.bufs b).dev % 2 = dev % 2 → (next.bufs b).dev = dev)
    (seen : ∀ blockno, (next.bufs b).Caches dev blockno → (next.bufs b).valid = true →
      (next.bufs b).data = next.contents dev blockno)
    (guarded : (next.bufs b).dev = dev → next.touched b = true → (next.holder b).isSome = true)
    (disk : next.disk = c.disk) (contents : next.contents = c.contents)
    (pins : ∀ blockno, Pins c dev blockno b → Pins next dev blockno b) : Transparent dev next := by
  refine transparent.change others drive seen guarded (fun _ _ _ _ => by rw [contents]) ?_
  intro blockno
  rw [disk, contents]
  by_cases pinned : Pins c dev blockno b
  · exact Or.inr (Or.inl (pins blockno pinned))
  · exact Or.inr (Or.inr ⟨pinned, rfl, rfl⟩)

theorem Transparent.recount {count : Nat}
    (drive : 0 < count → (c.bufs b).dev % 2 = dev % 2 → (c.bufs b).dev = dev) :
    Transparent dev (c.setBuf b { c.bufs b with refcnt := count }) := by
  have self : (c.setBuf b { c.bufs b with refcnt := count }).bufs b =
      { c.bufs b with refcnt := count } := update_self _ _ _
  refine transparent.change_quiet (b := b) ?_ ?_ ?_ ?_ rfl rfl ?_
  · intro other different
    exact ⟨update_of_ne different _ _, rfl, rfl⟩
  · rwa [self]
  · rw [self]
    exact transparent.seen b
  · rw [self]
    exact transparent.guarded b
  · intro blockno pins
    rwa [Pins, self]

theorem Transparent.recycle {blockno device : Nat} (clean : (c.bufs b).dirty = false)
    (unlocked : c.holder b = none) (drive : device % 2 = dev % 2 → device = dev) :
    Transparent dev (c.recycle b device blockno) := by
  have self : (c.recycle b device blockno).bufs b =
      ⟨device, blockno, false, false, 1, (c.bufs b).data⟩ := update_self _ _ _
  refine transparent.change_quiet (b := b) ?_ ?_ ?_ ?_ rfl rfl ?_
  · intro other different
    exact ⟨update_of_ne different _ _, update_of_ne different _ _, rfl⟩
  · rw [self]
    exact fun _ => drive
  · rw [self]
    simp
  · simp [Bcache.recycle]
  · rintro block ⟨⟨device, _⟩, _, dirty | touched⟩
    · simp [clean] at dirty
    · have locked := transparent.guarded b device touched
      simp [unlocked] at locked

omit transparent in
theorem modify_contents (data : Block) (blockno : Nat) :
    (c.modify b data).contents dev blockno =
      if (c.bufs b).Caches dev blockno then data else c.contents dev blockno := by
  by_cases here : (c.bufs b).dev = dev
  · subst here
    simp [Bcache.modify, Buf.Caches, update_apply, eq_comm]
  · simp [Bcache.modify, Buf.Caches, here, update_of_ne (Ne.symm here)]

theorem Transparent.modify {data : Block} (unique : Unique c) (device : dev ≠ 0)
    (locked : (c.holder b).isSome = true) (valid : (c.bufs b).valid = true) :
    Transparent dev (c.modify b data) := by
  have self : (c.modify b data).bufs b = { c.bufs b with data } := update_self _ _ _
  refine transparent.change (b := b) ?_ ?_ ?_ (fun _ _ => locked) ?_ ?_
  · intro other different
    exact ⟨update_of_ne different _ _, update_of_ne different _ _, rfl⟩
  · rw [self]
    exact transparent.drive b
  · rw [self]
    intro blockno cached _
    have mine : (c.bufs b).Caches dev blockno := cached
    rw [modify_contents, if_pos mine]
  · intro other blockno different cached
    rw [modify_contents, if_neg]
    intro mine
    refine different (unique other b (cached.1.symm ▸ device) ?_)
    exact Prod.ext (cached.1.trans mine.1.symm) (cached.2.trans mine.2.symm)
  · intro blockno
    rw [modify_contents]
    split
    next mine =>
      refine Or.inr (Or.inl ?_)
      rw [Pins, self]
      exact ⟨mine, valid, Or.inr (update_self _ _ _)⟩
    next other => exact Or.inr (Or.inr ⟨fun pins => other pins.1, rfl, rfl⟩)

theorem Transparent.setDirty : Transparent dev (c.setDirty b) := by
  have self : (c.setDirty b).bufs b = { c.bufs b with dirty := true } := update_self _ _ _
  refine transparent.change_quiet (b := b) ?_ ?_ ?_ ?_ rfl rfl ?_
  · intro other different
    exact ⟨update_of_ne different _ _, update_of_ne different _ _, rfl⟩
  · rw [self]
    exact transparent.drive b
  · rw [self]
    exact transparent.seen b
  · simp [Bcache.setDirty]
  · intro blockno pins
    rw [Pins, self]
    exact ⟨pins.1, pins.2.1, Or.inl rfl⟩

theorem Transparent.bwrite (valid : (c.bufs b).valid = true) (referred : 0 < (c.bufs b).refcnt) :
    Transparent dev
      { c.setBuf b { c.bufs b with valid := true, dirty := false } with
        disk := update c.disk ((c.bufs b).dev % 2)
          (update (c.disk ((c.bufs b).dev % 2)) (c.bufs b).blockno (c.bufs b).data)
        touched := update c.touched b false } := by
  have self : (c.setBuf b { c.bufs b with valid := true, dirty := false }).bufs b =
      { c.bufs b with valid := true, dirty := false } := update_self _ _ _
  refine transparent.change (b := b) ?_ ?_ ?_ (by simp) (fun _ _ _ _ => rfl) ?_
  · intro other different
    exact ⟨update_of_ne different _ _, update_of_ne different _ _, rfl⟩
  · dsimp only
    rw [self]
    exact transparent.drive b
  · dsimp only
    rw [self]
    exact fun blockno cached _ => transparent.seen b blockno cached valid
  · intro blockno
    by_cases mine : (c.bufs b).Caches dev blockno
    · refine Or.inl ?_
      have data := transparent.seen b blockno mine valid
      obtain ⟨here, there⟩ := mine
      dsimp only
      rw [here, update_self, there, update_self, data]
      rfl
    · refine Or.inr (Or.inr ⟨fun pins => mine pins.1, ?_, rfl⟩)
      dsimp only
      rw [update_apply]
      split
      next drive =>
        have here := transparent.drive b referred drive.symm
        rw [← drive, update_of_ne]
        rintro rfl
        exact mine ⟨here, rfl⟩
      next => rfl

theorem Transparent.lock (holder : Option ι)
    (guarded : (c.bufs b).dev = dev → c.touched b = true → holder.isSome = true) :
    Transparent dev { c with holder := update c.holder b holder } := by
  refine transparent.change_quiet (b := b) ?_ (transparent.drive b) (transparent.seen b) ?_ rfl rfl
    (fun _ => id)
  · intro other different
    exact ⟨rfl, rfl, update_of_ne different _ _⟩
  · dsimp only
    rwa [update_self]

theorem Transparent.fill (unique : Unique c) (device : dev ≠ 0) (invalid : (c.bufs b).valid = false)
    (done : c.iderw havedisk1 b = some next) (clean : (c.bufs b).Clean) : Transparent dev next := by
  rcases iderw_cases done with ⟨dirty, _⟩ | ⟨_, rfl⟩
  · simp [clean invalid] at dirty
  · have self : (c.setBuf b { c.bufs b with
          valid := true
          data := c.disk ((c.bufs b).dev % 2) (c.bufs b).blockno }).bufs b =
        { c.bufs b with
          valid := true
          data := c.disk ((c.bufs b).dev % 2) (c.bufs b).blockno } := update_self _ _ _
    refine transparent.change_quiet (b := b) ?_ ?_ ?_ ?_ rfl rfl ?_
    · intro other different
      exact ⟨update_of_ne different _ _, rfl, rfl⟩
    · rw [self]
      exact transparent.drive b
    · rw [self]
      rintro blockno ⟨here, there⟩ _
      dsimp only at here there ⊢
      rw [here, there]
      rcases transparent.stored blockno with stored | ⟨pin, cached, valid, _⟩
      · exact stored
      · have same : pin = b := by
          refine unique pin b (cached.1.symm ▸ device) ?_
          exact Prod.ext (cached.1.trans here.symm) (cached.2.trans there.symm)
        rw [same, invalid] at valid
        simp at valid
    · rw [self]
      exact transparent.guarded b
    · rintro blockno ⟨_, valid, _⟩
      simp [invalid] at valid

end Operations

variable [Fintype ι] {s : State ι}

theorem transparent_moves {p : ι} {proc proc' : Proc} {action : Action} {next : Bcache ι}
    (device : dev ≠ 0) (sound : Sound s) (transparent : Transparent dev s.shared)
    (here : s.place p = proc) (moves : Moves havedisk1 p s.shared proc action next proc')
    (own : OwnDrive dev (p, action)) (passes : Passes dev s (p, action)) : Transparent dev next := by
  cases moves with
  | hit cached =>
      refine transparent.recount fun _ drive => ?_
      rw [cached.1] at drive ⊢
      exact own drive
  | recycle absent free clean => exact transparent.recycle clean (sound.unlocked free) own
  | @modify b held data holds =>
      have mine : b ∈ (s.place p).held := by rwa [here]
      have owned := (sound.owners b p).mpr (Or.inl mine)
      exact transparent.modify sound.unique device (by simp [owned]) (sound.loaded b p mine)
  | logWrite => exact transparent.setDirty
  | @bwrite b held owned =>
      have mine := ((sound.owners b p).mp owned).resolve_right (by simp [here])
      exact transparent.bwrite (sound.loaded b p mine) (sound.referred_of_owned owned)
  | brelse =>
      refine transparent.lock none fun here touched => ?_
      simp [passes here] at touched
  | lock => exact transparent.lock (some p) fun _ _ => rfl
  | found => exact transparent
  | fill invalid done => exact transparent.fill sound.unique device invalid done (sound.clean _)
  | @drop b =>
      have counted : Transparent dev (s.shared.setBuf b
          { s.shared.bufs b with refcnt := (s.shared.bufs b).refcnt - 1 }) :=
        transparent.recount fun referred => transparent.drive b (by omega)
      rw [Bcache.drop]
      split
      next => exact ⟨counted.drive, counted.seen, counted.stored, counted.guarded⟩
      next => exact counted

variable [DecidableEq ι]

theorem sound_run {disk : Nat → Nat → Block} {events : List (ι × Action)} {final : State ι}
    (reached : run (step havedisk1) (start disk) events = some final) : Sound final :=
  run_invariant (fun _ s => Sound s) (sound_start disk)
    (fun _ _ _ _ sound stepped => (sound_step sound stepped).2) events final reached

theorem transparent_run {disk : Nat → Nat → Block} {events : List (ι × Action)} {final : State ι}
    (device : dev ≠ 0) (own : ∀ event ∈ events, OwnDrive dev event)
    (passes : Along (step havedisk1) (fun _ => Passes dev) (start disk) events)
    (reached : run (step havedisk1) (start disk) events = some final) :
    Transparent dev final.shared := by
  have alone : Along (step havedisk1) (fun _ _ => OwnDrive dev) (start disk) events :=
    fun before event after state split _ => own event (by simp [split])
  refine run_invariant_reached (fun _ s => Transparent dev s.shared) (transparent_binit disk) ?_
    events final (alone.and passes) reached
  intro history s event next before transparent permitted stepped
  have sound := sound_run before
  have moves := (sound_step sound stepped).1
  exact transparent_moves device sound transparent rfl moves permitted.1 permitted.2

/-- Whatever the users of the cache do, a block of a device other than 0 has one buffer at
most, the ring has every buffer once, and a buffer in use or dirty keeps its block. On a device
alone on its drive, whose holders pass what they changed to `log_write` or `bwrite` before
`brelse`, the buffers that `bread` returned have what the last holder left. -/
theorem cache_transparent (havedisk1 : Bool) (disk : Nat → Nat → Block) (events : List (ι × Action))
    (final : State ι) (reached : run (step havedisk1) (start disk) events = some final) :
    (∀ a b, (final.shared.bufs a).dev ≠ 0 → (final.shared.bufs a).dev = (final.shared.bufs b).dev →
      (final.shared.bufs a).blockno = (final.shared.bufs b).blockno → a = b) ∧
    (∃ order, Linked final.shared.ring order ∧ ∀ b, b ∈ order) ∧
    (∀ event next, step havedisk1 final event = some next → ∀ b,
      0 < (final.shared.bufs b).refcnt ∨ (final.shared.bufs b).dirty = true →
      (next.shared.bufs b).dev = (final.shared.bufs b).dev ∧
        (next.shared.bufs b).blockno = (final.shared.bufs b).blockno) ∧
    ∀ dev, dev ≠ 0 → (∀ event ∈ events, OwnDrive dev event) →
      Along (step havedisk1) (fun _ => Passes dev) (start disk) events →
      ∀ p b, b ∈ (final.place p).held → (final.shared.bufs b).dev = dev →
        (final.shared.bufs b).data = final.shared.contents dev (final.shared.bufs b).blockno := by
  have sound := sound_run reached
  refine ⟨?_, sound.whole, ?_, ?_⟩
  · intro a b device sameDev sameBlock
    exact sound.unique a b device (Prod.ext sameDev sameBlock)
  · intro event next stepped b used
    rcases moves_address (sound_step sound stepped).1 b with kept | ⟨free, clean, _⟩
    · exact ⟨congrArg Prod.fst kept, congrArg Prod.snd kept⟩
    · rcases used with referred | dirty
      · omega
      · simp [clean] at dirty
  · intro dev device own passes p b holds here
    have transparent := transparent_run device own passes reached
    exact transparent.seen b _ ⟨here, rfl⟩ (sound.loaded b p holds)

def blankDisks : Nat → Nat → Block := fun _ _ _ => 0

def readBlock (p : ι) (dev blockno : Nat) : List (ι × Action) :=
  [(p, .bread dev blockno), (p, .go), (p, .go)]

def passedOn : List (Fin 2 × Action) :=
  readBlock 0 1 5 ++ [(0, .modify 0 fun _ => 1), (0, .logWrite 0), (0, .brelse 0), (0, .go)] ++
    readBlock 1 1 5

theorem cache_transparent_passed : ∃ s : State (Fin 2),
    run (step true) (start blankDisks) passedOn = some s ∧ 0 ∈ (s.place 1).held ∧
      (s.shared.bufs 0).data = s.shared.contents 1 5 ∧ s.shared.contents 1 5 0 = 1 := by
  let s := (run (step true) (start blankDisks) passedOn).get (by decide +kernel)
  have reached : run (step true) (start blankDisks) passedOn = some s := (Option.some_get _).symm
  have holds : 0 ∈ (s.place 1).held := by decide +kernel
  have passes : Along (step true) (fun _ => Passes 1) (start blankDisks) passedOn :=
    alongCheck_sound _ _ _ _ (by decide +kernel)
  have block : (s.shared.bufs 0).blockno = 5 := by decide +kernel
  have seen := (cache_transparent true blankDisks passedOn s reached).2.2.2 1 (by decide) (by decide)
    passes 1 0 holds (by decide +kernel)
  rw [block] at seen
  exact ⟨s, reached, holds, seen, by decide +kernel⟩

/-- A change that is not passed on, and 29 other blocks held until the buffer is reused. -/
def unpassed : List (Fin 2 × Action) :=
  readBlock 0 1 5 ++ [(0, .modify 0 fun _ => 1), (0, .brelse 0), (0, .go)] ++
    (List.range 29).flatMap (fun i => readBlock 1 1 (100 + i)) ++ readBlock 0 1 6 ++
    [(0, .brelse 0), (0, .go)] ++ readBlock 0 1 5

def aliased : List (Fin 2 × Action) :=
  readBlock 0 3 5 ++ [(0, .modify 0 fun _ => 1), (0, .bwrite 0), (0, .brelse 0), (0, .go)] ++
    readBlock 0 1 5

/-- Without either condition `bread` returns something else than the last holder left. -/
theorem bread_other_contents :
    (∃ s : State (Fin 2), run (step true) (start blankDisks) unpassed = some s ∧
      (∀ event ∈ unpassed, OwnDrive 1 event) ∧ 0 ∈ (s.place 0).held ∧
      (s.shared.bufs 0).Caches 1 5 ∧ (s.shared.bufs 0).data ≠ s.shared.contents 1 5) ∧
    ∃ s : State (Fin 2), run (step true) (start blankDisks) aliased = some s ∧
      Along (step true) (fun _ => Passes 1) (start blankDisks) aliased ∧ 1 ∈ (s.place 0).held ∧
      (s.shared.bufs 1).Caches 1 5 ∧ (s.shared.bufs 1).data ≠ s.shared.contents 1 5 := by
  constructor
  · let s := (run (step true) (start blankDisks) unpassed).get (by decide +kernel)
    refine ⟨s, (Option.some_get _).symm, by decide +kernel, by decide +kernel, by decide +kernel, ?_⟩
    intro same
    have first : (s.shared.bufs 0).data 0 ≠ s.shared.contents 1 5 0 := by decide +kernel
    exact first (congrFun same 0)
  · let s := (run (step true) (start blankDisks) aliased).get (by decide +kernel)
    refine ⟨s, (Option.some_get _).symm, alongCheck_sound _ _ _ _ (by decide +kernel),
      by decide +kernel, by decide +kernel, ?_⟩
    intro same
    have first : (s.shared.bufs 1).data 0 ≠ s.shared.contents 1 5 0 := by decide +kernel
    exact first (congrFun same 0)

end OsLabs.Cache
