import Mathlib.Data.Fintype.Sum
import OsLabs.Locks.LocksSleep

/-!
Sleep locks exclude each other and lose no wakeup, in every interleaving of processes, CPUs and other kernel code: one
process at a time is inside, `holdingsleep` says which one, and nobody sleeps on a lock that is free.
-/

namespace OsLabs.Locks

open Function (update update_of_ne update_self)
open Proc Runs

variable {C S L K : Type*} [DecidableEq S]

namespace Place

def process : Place S → Option Slot
  | .out => none
  | .acquireEnter _ p | .acquireTest _ p | .acquireSleep _ p | .acquireSet _ p | .acquireExit _ p | .acquireReturn _ p
  | .releaseEnter _ p | .releaseSet _ p | .releaseWake _ p | .releaseExit _ p | .holdingEnter _ p _ | .holdingRead _ p _
  | .holdingExit _ p _ _ | .holdingReturn _ p _ _ => some p

/-- The lock that is taken in `acquiresleep`, or not free yet in `releasesleep`. -/
def owns : Place S → Option S
  | .acquireExit s _ | .acquireReturn s _ | .releaseEnter s _ | .releaseSet s _ => some s
  | _ => none

def Knows (d : Data S) : Place S → Prop
  | .acquireSleep s _ => (d.locks s).locked = true
  | .acquireSet s _ => (d.locks s).locked = false
  | .holdingExit s p _ r | .holdingReturn s p _ r => r = d.inside s p
  | _ => True

end Place

def Has (d : Data S) (place : Place S) (s : S) (p : Slot) : Prop := d.inside s p = true ∨ place.owns = some s

structure Fair (d : Data S) (p : Slot) (place : Place S) : Prop where
  self : ∀ q, place.process = some q → q = p
  has : ∀ s, Has d place s p ↔ d.locks s = ⟨true, some p⟩
  once : ∀ s, place.owns = some s → d.inside s p = false
  knows : place.Knows d

def Data.Shaped (d : Data S) : Prop := ∀ s, d.locks s = ⟨false, none⟩ ∨ ∃ p, d.locks s = ⟨true, some p⟩

def after (d : Data S) : Command (S ⊕ L) (S ⊕ K) (Data S) (Place S) → Data S × Place S
  | .move data place => (data, place)
  | .acquire _ place | .release _ place | .wakeup _ place | .sleep _ _ place => (d, place)

inductive Changes (d : Data S) (p : Slot) : Place S → Data S → Prop
  | nothing {place} : Changes d p place d
  | set {s} : Changes d p (.acquireSet s p) (d.setLock s ⟨true, some p⟩)
  | clear {s} : Changes d p (.releaseSet s p) (d.setLock s ⟨false, none⟩)
  | inside {s place} (b : Bool) : Changes d p place (d.setInside s p b)

section Updates

variable (d : Data S) {s s' : S} {p q : Slot} {lk : Sleeplock} {b : Bool}

@[simp] theorem setLock_self : (d.setLock s lk).locks s = lk := update_self ..

theorem setLock_other (differs : s' ≠ s) : (d.setLock s lk).locks s' = d.locks s' := update_of_ne differs _ _

@[simp] theorem setLock_inside : (d.setLock s lk).inside = d.inside := rfl

@[simp] theorem setInside_locks : (d.setInside s p b).locks = d.locks := rfl

@[simp] theorem setInside_self : (d.setInside s p b).inside s p = b := by
  simp only [Data.setInside, update_self]

theorem setInside_lock (differs : s' ≠ s) : (d.setInside s p b).inside s' q = d.inside s' q := by
  simp only [Data.setInside, update_of_ne differs]

theorem setInside_other (differs : q ≠ p) : (d.setInside s p b).inside s' q = d.inside s' q := by
  by_cases same : s' = s
  · simp only [same, Data.setInside, update_self, update_of_ne differs]
  · rw [setInside_lock d same]

end Updates

section Code

variable {d d' : Data S} {p q : Slot} {place : Place S}
  {command : Command (S ⊕ L) (S ⊕ K) (Data S) (Place S)}

theorem next_changes (self : ∀ q, place.process = some q → q = p) (given : next d place = some command) :
    Changes d p place (after d command).1 := by
  cases place with
  | out => cases given
  | acquireSet s q =>
      obtain rfl := self q rfl
      obtain rfl := Option.some.inj given
      exact .set
  | releaseSet s q =>
      obtain rfl := self q rfl
      obtain rfl := Option.some.inj given
      exact .clear
  | acquireReturn s q =>
      obtain rfl := self q rfl
      obtain rfl := Option.some.inj given
      exact .inside true
  | holdingReturn s q unlocks r =>
      obtain rfl := self q rfl
      cases unlocks <;> cases r <;> cases given
      · exact .nothing
      · exact .nothing
      · exact .inside false
  | _ =>
      obtain rfl := Option.some.inj given
      exact .nothing

theorem Changes.locks_out (changes : Changes d p .out d') : d'.locks = d.locks := by
  cases changes <;> rfl

theorem Changes.shaped (changes : Changes d p place d') (shaped : d.Shaped) : d'.Shaped := by
  have update {s : S} {lk : Sleeplock} (good : lk = ⟨false, none⟩ ∨ ∃ p, lk = ⟨true, some p⟩) :
      (d.setLock s lk).Shaped := by
    intro s'
    by_cases same : s' = s
    · rw [same, setLock_self]
      exact good
    · rw [setLock_other d same]
      exact shaped s'
  cases changes with
  | nothing => exact shaped
  | set => exact update (Or.inr ⟨p, rfl⟩)
  | clear => exact update (Or.inl rfl)
  | inside => exact shaped

theorem Fair.setLock {s : S} {lk : Sleeplock} (fair : Fair d q place) (without : d.locks s ≠ ⟨true, some q⟩)
    (still : lk ≠ ⟨true, some q⟩)
    (apart : (place.lock : Option (S ⊕ L)) = some (.inl s) → (place.rests : Option (S ⊕ K)).isSome) :
    Fair (d.setLock s lk) q place := by
  refine ⟨fair.self, fun s' => ?_, fair.once, ?_⟩
  · by_cases same : s' = s
    · rw [same, setLock_self]
      exact iff_of_false (fun has => without ((fair.has s).mp has)) still
    · rw [setLock_other d same]
      exact fair.has s'
  · have knows := fair.knows
    cases place with
    | acquireSleep s' q' | acquireSet s' q' =>
        have differs : s' ≠ s := by
          rintro rfl
          exact Bool.false_ne_true (apart rfl)
        rw [Place.Knows, setLock_other d differs]
        exact knows
    | _ => exact knows

theorem Fair.other {place' : Place S} (fair : Fair d p place) (changes : Changes d p place d') (differs : q ≠ p)
    (fair' : Fair d q place')
    (apart : ∀ s, (place.lock : Option (S ⊕ L)) = some (.inl s) → (place'.lock : Option (S ⊕ L)) = some (.inl s) →
      (place'.rests : Option (S ⊕ K)).isSome) : Fair d' q place' := by
  cases changes with
  | nothing => exact fair'
  | @set s =>
      have free : (d.locks s).locked = false := fair.knows
      refine fair'.setLock (fun held => ?_) (fun same => ?_) (apart s rfl)
      · rw [held] at free
        cases free
      · cases same
        exact differs rfl
  | @clear s =>
      have held : d.locks s = ⟨true, some p⟩ := (fair.has s).mp (Or.inr rfl)
      refine fair'.setLock (fun both => ?_) (fun same => ?_) (apart s rfl)
      · rw [held] at both
        cases both
        exact differs rfl
      · cases same
  | @inside s _ b =>
      have same (s' : S) : (d.setInside s p b).inside s' q = d.inside s' q := setInside_other d differs
      refine ⟨fair'.self, fun s' => ?_, fun s' owns => ?_, ?_⟩
      · rw [Has, same]
        exact fair'.has s'
      · rw [same]
        exact fair'.once s' owns
      · have knows := fair'.knows
        cases place' with
        | holdingExit s' q' unlocks r | holdingReturn s' q' unlocks r =>
            obtain rfl := fair'.self q' rfl
            rw [Place.Knows, same]
            exact knows
        | _ => exact knows

omit [DecidableEq S] in
theorem Fair.move {place' : Place S} (fair : Fair d p place) (self : ∀ q, place'.process = some q → q = p)
    (owns : place'.owns = place.owns) (knows : place'.Knows d) : Fair d p place' := by
  refine ⟨self, fun s => ?_, fun s => ?_, knows⟩
  · rw [Has, owns]
    exact fair.has s
  · rw [owns]
    exact fair.once s

theorem Fair.acquireSet {s : S} (fair : Fair d p (.acquireSet s p)) :
    Fair (d.setLock s ⟨true, some p⟩) p (.acquireExit s p) := by
  have free : (d.locks s).locked = false := fair.knows
  refine ⟨fair.self, fun s' => ?_, fun s' owns => ?_, trivial⟩
  · by_cases same : s' = s
    · rw [same, setLock_self]
      exact iff_of_true (Or.inr rfl) rfl
    · rw [setLock_other d same, ← fair.has s']
      refine or_congr_right (iff_of_false (fun own => same (Option.some.inj own).symm) fun own => ?_)
      cases own
  · cases owns
    by_contra inside
    rw [(fair.has s).mp (Or.inl (by simpa using inside))] at free
    cases free

theorem Fair.releaseSet {s : S} (fair : Fair d p (.releaseSet s p)) :
    Fair (d.setLock s ⟨false, none⟩) p (.releaseWake s p) := by
  refine ⟨fair.self, fun s' => ?_, fun s' owns => ?_, trivial⟩
  · by_cases same : s' = s
    · rw [same, setLock_self]
      refine iff_of_false ?_ fun held => ?_
      · rintro (inside | own)
        · exact Bool.false_ne_true ((fair.once s rfl).symm.trans inside)
        · cases own
      · cases held
    · rw [setLock_other d same, ← fair.has s']
      refine or_congr_right (iff_of_false (fun own => ?_) fun own => same (Option.some.inj own).symm)
      cases own
  · cases owns

theorem Fair.setInside {place' : Place S} {s : S} (b : Bool) (fair : Fair d p place)
    (self : ∀ q, place'.process = some q → q = p) (before : Has d place s p)
    (place_owns : place.owns = none ∨ place.owns = some s) (owns : place'.owns = if b then none else some s)
    (knows : place'.Knows (d.setInside s p b)) : Fair (d.setInside s p b) p place' := by
  refine ⟨self, fun s' => ?_, fun s' own => ?_, knows⟩
  · by_cases same : s' = s
    · rw [same, Has, setInside_self, owns]
      refine iff_of_true ?_ ((fair.has s).mp before)
      cases b
      · exact Or.inr rfl
      · exact Or.inl rfl
    · rw [Has, setInside_lock d same, owns, setInside_locks, ← fair.has s', Has]
      refine or_congr_right (iff_of_false (fun own => ?_) fun own => ?_)
      · cases b
        · exact same (Option.some.inj own).symm
        · cases own
      · obtain none | here := place_owns
        · rw [none] at own
          cases own
        · exact same (Option.some.inj (here.symm.trans own)).symm
  · cases b
    · rw [owns] at own
      cases own
      exact setInside_self d
    · rw [owns] at own
      cases own

omit [DecidableEq S] in
theorem Fair.holding (fair : Fair d p place) (outside : place.owns = none) (s : S) :
    ((d.locks s).locked && decide ((d.locks s).pid = some p)) = d.inside s p := by
  have has := fair.has s
  rw [Has, outside] at has
  rw [Bool.eq_iff_iff, Bool.and_eq_true, decide_eq_true_eq]
  constructor
  · rintro ⟨locked, pid⟩
    refine (has.mpr ?_).resolve_right fun own => by cases own
    cases lk : d.locks s
    rw [lk] at locked pid
    cases locked
    cases pid
    rfl
  · intro inside
    rw [has.mp (Or.inl inside)]
    exact ⟨rfl, rfl⟩

theorem Fair.next (fair : Fair d p place) (given : Locks.next d place = some command) :
    Fair (after d command).1 p (after d command).2 := by
  cases place with
  | out => cases given
  | acquireTest s q =>
      obtain rfl := Option.some.inj given
      cases locked : (d.locks s).locked with
      | true => exact fair.move fair.self rfl locked
      | false => exact fair.move fair.self rfl locked
  | acquireSet s q =>
      obtain rfl := fair.self q rfl
      obtain rfl := Option.some.inj given
      exact fair.acquireSet
  | releaseSet s q =>
      obtain rfl := fair.self q rfl
      obtain rfl := Option.some.inj given
      exact fair.releaseSet
  | acquireReturn s q =>
      obtain rfl := fair.self q rfl
      obtain rfl := Option.some.inj given
      refine fair.setInside true (fun _ own => ?_) (Or.inr rfl) (Or.inr rfl) rfl trivial
      cases own
  | holdingRead s q unlocks =>
      obtain rfl := fair.self q rfl
      obtain rfl := Option.some.inj given
      exact fair.move fair.self rfl (fair.holding rfl s)
  | holdingReturn s q unlocks r =>
      obtain rfl := fair.self q rfl
      cases unlocks with
      | false =>
          obtain rfl := Option.some.inj given
          exact fair.move (fun _ own => by cases own) rfl trivial
      | true =>
          cases r with
          | false => cases given
          | true =>
              obtain rfl := Option.some.inj given
              have knows : true = d.inside s q := fair.knows
              exact fair.setInside false fair.self (Or.inl knows.symm) (Or.inl rfl) rfl trivial
  | releaseExit s q =>
      obtain rfl := Option.some.inj given
      exact fair.move (fun _ own => by cases own) rfl trivial
  | holdingExit s q unlocks r =>
      obtain rfl := Option.some.inj given
      exact fair.move fair.self rfl fair.knows
  | _ =>
      obtain rfl := Option.some.inj given
      exact fair.move fair.self rfl trivial

theorem Fair.enter {call : Call S} {place' : Place S} (fair : Fair d p .out)
    (given : Locks.enter d p call = some (d', place')) : Fair d' p place' ∧ Changes d p .out d' := by
  have self {q q' : Slot} (same : some q = some q') : q' = q := (Option.some.inj same).symm
  cases call with
  | release s =>
      obtain ⟨inside, same⟩ := Option.ite_none_right_eq_some.mp given
      cases same
      exact ⟨fair.setInside false (fun _ => self) (Or.inl inside) (Or.inl rfl) rfl trivial, .inside false⟩
  | _ =>
      cases given
      exact ⟨fair.move (fun _ => self) rfl trivial, .nothing⟩

end Code

section Run

variable {w w' : World C (S ⊕ L) (S ⊕ K) (Data S) (Place S)}

def Justified (w : World C (S ⊕ L) (S ⊕ K) (Data S) (Place S)) : Prop :=
  ∀ q s, Waits w.machine q (.addr (.inl s)) →
    (w.data.locks s).locked = true ∨ ∃ p p', w.machine.pc p = .user ∧ w.place p = .releaseWake s p'

structure Sound [Fintype S] (w : World C (S ⊕ L) (S ⊕ K) (Data S) (Place S)) : Prop where
  owned : Owned (sleeplocks C) w
  idle : ∀ c, w.hand c = .out
  shaped : w.data.Shaped
  fair : ∀ p, Fair w.data p (w.place p)
  justified : Justified w

theorem sound_start [Fintype S] : Sound (World.start (sleeplocks C) .blank : World C (S ⊕ L) (S ⊕ K) (Data S) (Place S)) := by
  have owned : Owned (sleeplocks C) (World.start (sleeplocks C) .blank : World C (S ⊕ L) (S ⊕ K) (Data S) (Place S)) :=
    owned_start _
  refine ⟨owned, fun _ => rfl, fun _ => Or.inl rfl, fun p => ⟨?_, fun s => ?_, ?_, trivial⟩, fun q s waits => ?_⟩
  · intro q own
    cases own
  · refine iff_of_false ?_ fun held => ?_
    · rintro (inside | own)
      · cases inside
      · cases own
    · cases held
  · intro s own
    cases own
  · have rests := owned.asks rfl waits
    cases rests

omit [DecidableEq S] in
theorem rests_lock {place : Place S} {s : S} (rests : (place.rests : Option (S ⊕ K)) = some (.inl s)) :
    (place.lock : Option (S ⊕ L)) = some (.inl s) := by
  cases place with
  | acquireTest s' p =>
      cases rests
      rfl
  | _ => cases rests

theorem after_of_ran [DecidableEq L] [DecidableEq K] {m m' : Machine C (S ⊕ L) (S ⊕ K)} {d d' : Data S} {c : C}
    {command : Command (S ⊕ L) (S ⊕ K) (Data S) (Place S)} {place : Place S}
    (ran : Ran m d c command m' d' place) : after d command = (d', place) := by
  cases ran <;> rfl

theorem locked_next {d : Data S} {p : Slot} {place : Place S} {command : Command (S ⊕ L) (S ⊕ K) (Data S) (Place S)} {s : S}
    (self : ∀ q, place.process = some q → q = p) (given : next d place = some command)
    (locked : (d.locks s).locked = true) : ((after d command).1.locks s).locked = true ∨
      (after d command).2 = .releaseWake s p ∧ ∀ chan l place, command ≠ .sleep chan l place := by
  cases place with
  | releaseSet s' q =>
      obtain rfl := self q rfl
      obtain rfl := Option.some.inj given
      by_cases same : s' = s
      · refine Or.inr ⟨by rw [same]; rfl, fun _ _ _ sleeps => ?_⟩
        cases sleeps
      · left
        simp only [after, setLock_other d (Ne.symm same)]
        exact locked
  | acquireSet s' q =>
      obtain rfl := Option.some.inj given
      left
      by_cases same : s = s'
      · simp only [after, same, setLock_self]
      · simp only [after, setLock_other d same]
        exact locked
  | holdingReturn s' q unlocks r =>
      left
      cases unlocks <;> cases r <;> cases given <;> exact locked
  | out => cases given
  | _ =>
      obtain rfl := Option.some.inj given
      exact Or.inl locked

theorem locked_sleep {d : Data S} {place place' : Place S} {s : S} {l : S ⊕ L} (knows : place.Knows d)
    (given : next d place = some (.sleep (.addr (.inl s)) l place' : Command _ (S ⊕ K) _ _)) :
    (d.locks s).locked = true := by
  cases place with
  | acquireSleep s' q =>
      cases given
      exact knows
  | holdingReturn s' q unlocks r => cases unlocks <;> cases r <;> cases given
  | _ => cases given

variable [DecidableEq C] [Fintype S] [DecidableEq L] [DecidableEq K]

omit [DecidableEq C] in
theorem Sound.justified_process (sound : Sound w) {p : Slot} {c : C}
    {command : Command (S ⊕ L) (S ⊕ K) (Data S) (Place S)} {m : Machine C (S ⊕ L) (S ⊕ K)} {d : Data S} {place : Place S}
    (runs : w.machine.proc c = some p) (user : w.machine.pc p = .user) (given : next w.data (w.place p) = some command)
    (ran : Ran w.machine w.data c command m d place) :
    Justified { w with machine := m, data := d, place := update w.place p place } := by
  intro q s waits
  have same := after_of_ran ran
  have beside := ran.outside
  rcases ran.waits waits with before | ⟨on, l, calls⟩
  · rcases sound.justified q s before with locked | ⟨p', p'', user', wakes⟩
    · rcases locked_next (sound.fair p).self given locked with still | ⟨wakes, awake⟩
      · rw [same] at still
        exact Or.inl still
      · rw [same] at wakes
        refine Or.inr ⟨p, p, ?_, ?_⟩
        · cases ran with
          | sleep => exact absurd rfl (awake _ _ _)
          | _ => exact user
        · exact (update_self ..).trans wakes
    · by_cases self : p' = p
      · subst self
        rw [wakes] at given
        cases given
        have lock : ((w.place p').lock : Option (S ⊕ L)) = some (.inl s) := by
          rw [wakes]
          rfl
        cases ran with
        | wakeup unlocked =>
            exact absurd waits (sound.owned.wakes user lock unlocked rfl rests_lock)
      · refine Or.inr ⟨p', p'', ?_, ?_⟩
        · dsimp only
          rw [beside.pc p' fun there => self (Option.some.inj (there.symm.trans runs)), user']
        · exact (update_of_ne self ..).trans wakes
  · obtain rfl := Option.some.inj (runs.symm.trans on)
    subst calls
    have data : d = w.data := (congrArg Prod.fst same).symm
    rw [data]
    exact Or.inl (locked_sleep (sound.fair p).knows given)

variable [Fintype L]

theorem Sound.step {event : C × Event (S ⊕ L) (S ⊕ K) Unit (Call S) Unit} (sound : Sound w)
    (stepped : w.step (sleeplocks C) event = some w') : Sound w' := by
  have owned := sound.owned.step stepped
  obtain ⟨c, event⟩ := event
  cases acts_of_step stepped with
  | @kernel action m idle foreign stays leaves went =>
      have same : w.forked (sleeplocks C) c action = w.data := by
        rcases forked_cases (sleeplocks C) w c action with same | ⟨p, np, -, -, forked⟩
        · exact same
        · rw [forked]
          rfl
      rw [same] at owned ⊢
      refine ⟨owned, sound.idle, sound.shaped, sound.fair, fun q s waits => ?_⟩
      rcases sound.justified q s (sound.owned.waits_kernel foreign went rfl waits) with locked | ⟨p, p', user, wakes⟩
      · exact Or.inl locked
      · have inside : w.place p ≠ .out := by
          intro outside
          rw [wakes] at outside
          cases outside
        have lock : ((w.place p).lock : Option (S ⊕ L)) = some (.inl s) := by
          rw [wakes]
          rfl
        obtain ⟨-, -, user', -⟩ := sound.owned.running_kernel stays went inside (sound.owned.running user lock)
        exact Or.inr ⟨p, p', user', wakes⟩
  | @call f p data place idle runs user outside given =>
      have fair := sound.fair p
      have outside : w.place p = .out := outside
      rw [outside] at fair
      obtain ⟨mine, changes⟩ := fair.enter given
      refine ⟨owned, sound.idle, changes.shaped sound.shaped, fun q => ?_, fun q s waits => ?_⟩
      · by_cases self : q = p
        · rw [self]
          dsimp only
          rwa [update_self]
        · dsimp only
          rw [update_of_ne self]
          refine fair.other (L := L) (K := K) changes self (sound.fair q) fun s lock => ?_
          cases lock
      · have locks : data.locks = w.data.locks := changes.locks_out
        rcases sound.justified q s waits with locked | ⟨p', p'', user', wakes⟩
        · exact Or.inl (locks ▸ locked)
        · refine Or.inr ⟨p', p'', user', (update_of_ne (fun self => ?_) ..).trans wakes⟩
          rw [self, outside] at wakes
          cases wakes
  | interrupt idle open' unlocked given => cases given
  | @process input p command m data place idle runs user given ran kept =>
      have same := after_of_ran ran
      have changes := next_changes (sound.fair p).self given
      have mine := (sound.fair p).next given
      rw [same] at changes mine
      refine ⟨owned, sound.idle, changes.shaped sound.shaped, fun q => ?_, sound.justified_process runs user given ran⟩
      dsimp only
      by_cases self : q = p
      · rw [self, update_self]
        exact mine
      · rw [update_of_ne self]
        refine (sound.fair p).other (L := L) (K := K) changes self (sound.fair q) fun s lock lock' => ?_
        exact (sound.owned.exclusive user lock lock' self).2
  | handler busy given awake ran kept => exact absurd (sound.idle c) busy

theorem sound_run {events : List (C × Event (S ⊕ L) (S ⊕ K) Unit (Call S) Unit)}
    (reached : run (World.step (sleeplocks C)) (World.start (sleeplocks C) .blank) events = some w) : Sound w := by
  refine run_invariant (fun _ w => Sound w) sound_start ?_ events w reached
  intro _ before event after sound stepped
  exact sound.step stepped

omit [DecidableEq C] [DecidableEq L] [DecidableEq K] [Fintype L] in
theorem Sound.unique (sound : Sound w) {s : S} {p q : Slot} (has : Has w.data (w.place p) s p)
    (has' : Has w.data (w.place q) s q) : p = q := by
  have held := ((sound.fair p).has s).mp has
  rw [((sound.fair q).has s).mp has'] at held
  cases held
  rfl

omit [DecidableEq C] [DecidableEq L] [DecidableEq K] [Fintype L] in
theorem Sound.sleeper (sound : Sound w) {s : S} {q : Slot} (free : w.machine.lock (some (.inl s)) = none)
    (sleeps : w.machine.state q = .sleeping) (on : w.machine.chan q = some (.addr (.inl s))) :
    ∃ p, Has w.data (w.place p) s p := by
  rcases sound.justified q s (Or.inr ⟨sleeps, on⟩) with locked | ⟨p, p', user, wakes⟩
  · obtain unlocked | ⟨p, held⟩ := sound.shaped s
    · rw [unlocked] at locked
      cases locked
    · exact ⟨p, ((sound.fair p).has s).mpr held⟩
  · have lock : ((w.place p).lock : Option (S ⊕ L)) = some (.inl s) := by
      rw [wakes]
      rfl
    obtain ⟨c, -, -, held⟩ := sound.owned.running user lock
    rw [free] at held
    cases held

/-- In every run, at most one process has a sleep lock, `holdingsleep` returns to each process whether it is the one, and
with the spin lock free, who sleeps on a lock waits for a process that has it. -/
theorem sleeplocks_safe {events : List (C × Event (S ⊕ L) (S ⊕ K) Unit (Call S) Unit)}
    (reached : run (World.step (sleeplocks C)) (World.start (sleeplocks C) .blank) events = some w) :
    (∀ s p q, Has w.data (w.place p) s p → Has w.data (w.place q) s q → p = q) ∧
      (∀ s p q unlocks r, w.place p = .holdingReturn s q unlocks r → q = p ∧ r = w.data.inside s p) ∧
      ∀ s q, w.machine.lock (some (.inl s)) = none → w.machine.state q = .sleeping →
        w.machine.chan q = some (.addr (.inl s)) → ∃ p, Has w.data (w.place p) s p := by
  have sound := sound_run reached
  refine ⟨fun _ _ _ => sound.unique, fun s p q unlocks r here => ?_, fun _ _ => sound.sleeper⟩
  have fair := sound.fair p
  rw [here] at fair
  obtain rfl := fair.self q rfl
  exact ⟨rfl, fair.knows⟩

end Run

section Examples

/-- `init` makes a child, which runs on the second CPU, and takes a lock. The child sleeps on it. -/
def childSleeps : List (Bool × Event (Unit ⊕ Empty) (Unit ⊕ Empty) Unit (Call Unit) Unit) :=
  List.replicate 3 (false, .kernel (.go true)) ++ (false, .kernel .fork) :: List.replicate 4 (false, .kernel (.go true)) ++
    List.replicate 3 (true, .kernel (.go true)) ++ (false, .call (.acquire ())) :: List.replicate 5 (false, .code ()) ++
    (true, .call (.acquire ())) :: List.replicate 3 (true, .code ()) ++ List.replicate 6 (true, .kernel (.go true))

theorem sleeplocks_safe_child : ∃ w : World Bool (Unit ⊕ Empty) (Unit ⊕ Empty) (Data Unit) (Place Unit),
    run (World.step (sleeplocks Bool)) (World.start (sleeplocks Bool) .blank) childSleeps = some w ∧
      w.machine.state 1 = .sleeping ∧ ∃ p, Has w.data (w.place p) () p := by
  have facts : (run (World.step (sleeplocks Bool)) (World.start (sleeplocks Bool) .blank) childSleeps).map
      (fun w => (w.machine.lock (some (.inl ())), w.machine.state 1, w.machine.chan 1)) =
        some (none, .sleeping, some (.addr (.inl ()))) := by decide +kernel
  obtain ⟨w, reached, values⟩ := Option.map_eq_some_iff.mp facts
  simp only [Prod.mk.injEq] at values
  obtain ⟨free, sleeps, on⟩ := values
  exact ⟨w, reached, sleeps, (sleeplocks_safe reached).2.2 () 1 free sleeps on⟩

end Examples

end OsLabs.Locks
