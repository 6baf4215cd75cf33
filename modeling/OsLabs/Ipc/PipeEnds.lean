import Mathlib.Data.Fintype.Sum
import OsLabs.Ipc.IpcCore

/-!
The descriptors of the two ends of the pipe: who is in a call of `piperead` or `pipewrite` has one, an end
is closed when nobody has one, and the page of the pipe is freed once.
-/

namespace OsLabs.Ipc

open Function Proc Runs

variable {C L K : Type*}

def Place.uses : Place → Option Bool
  | .writeEnter _ | .writeLoop _ _ | .writeTest _ _ _ | .writeWake _ _ _ | .writeSleep _ _ _
  | .writeStore _ _ _ | .writeDone _ => some true
  | .readEnter _ | .readWait _ | .readTest _ | .readSleep _ | .readCopy _ _ | .readTake _ _ | .readDone _ =>
      some false
  | _ => none

def Place.closes : Place → Option Bool
  | .closeEnter writable | .closeSet writable => some writable
  | _ => none

def Place.closed : Place → Bool
  | .closeWake _ | .closeTest => true
  | _ => false

def Place.frees : Place → Bool
  | .closeRelease | .closeFree => true
  | _ => false

def Place.device : Place → Bool
  | .out | .keyEnter | .keyLoop | .keyWake | .timerEnter | .timerAdd | .timerWake | .timerRelease => true
  | _ => false

def Pipe.isOpen (p : Pipe) (writable : Bool) : Bool := if writable then p.writeopen else p.readopen

def after (d : Data) : Command (Lock ⊕ L) (Key ⊕ K) Data Place → Data × Place
  | .move data place => (data, place)
  | .acquire _ place | .release _ place | .wakeup _ place | .sleep _ _ place => (d, place)

theorem after_of_ran {m m' : Machine C (Lock ⊕ L) (Key ⊕ K)} [DecidableEq L] [DecidableEq K] {d d' : Data} {c : C}
    {command : Command (Lock ⊕ L) (Key ⊕ K) Data Place} {place : Place}
    (ran : Ran m d c command m' d' place) : after d command = (d', place) := by
  cases ran <;> rfl

theorem device_next {d : Data} {killed : Bool} {key : Option Byte} {place : Place}
    {command : Command (Lock ⊕ L) (Key ⊕ K) Data Place} (device : place.device = true)
    (given : next d killed key place = some command) :
    (after d command).2.device = true ∧ ∃ input ticks, (after d command).1 = { d with input := input, ticks := ticks } := by
  cases place with
  | keyLoop =>
      cases key with
      | none =>
          obtain rfl := Option.some.inj given
          exact ⟨rfl, d.input, d.ticks, rfl⟩
      | some c =>
          obtain rfl := Option.some.inj given
          refine ⟨?_, (d.input.consoleintr c).1, d.ticks, rfl⟩
          simp only [after]
          split <;> rfl
  | out => simp [next] at given
  | keyEnter | keyWake | timerEnter | timerWake | timerRelease =>
      obtain rfl := Option.some.inj given
      exact ⟨rfl, d.input, d.ticks, rfl⟩
  | timerAdd =>
      obtain rfl := Option.some.inj given
      exact ⟨rfl, d.input, d.ticks + 1, rfl⟩
  | _ => simp [Place.device] at device

section Descriptors

variable {d d' : Data} {place : Slot → Place} {p : Slot} {place' : Place}

structure Ends (d : Data) (place : Slot → Place) : Prop where
  uses : ∀ {p w}, (place p).uses = some w → 0 < d.ends w p
  shut : ∀ {w}, d.pipe.isOpen w = false → ∀ q, d.ends w q = 0
  unallocated : d.allocated = false → ∀ w q, d.ends w q = 0
  closes : ∀ {p w}, (place p).closes = some w →
    d.allocated = true ∧ d.pipe.isOpen w = true ∧ ∀ q, d.ends w q = 0
  once : ∀ {p q w}, (place p).closes = some w → (place q).closes = some w → p = q
  closed : ∀ {p}, (place p).closed = true → d.allocated = true ∧ ∀ q, (place q).frees = false
  frees : ∀ {p}, (place p).frees = true → d.allocated = true ∧ ∀ w, d.pipe.isOpen w = false
  freed : ∀ {p q}, (place p).frees = true → (place q).frees = true → p = q

structure Weaker (place place' : Place) : Prop where
  uses : ∀ {w}, place'.uses = some w → place.uses = some w
  closes : ∀ {w}, place'.closes = some w → place.closes = some w
  closed : place'.closed = true → place.closed = true
  frees : place'.frees = true → place.frees = true

theorem of_update (property : Place → Prop) {q : Slot} (kept : property place' → property (place p))
    (holds : property (update place p place' q)) : property (place q) := by
  by_cases same : q = p
  · subst same
    rw [update_self] at holds
    exact kept holds
  · rwa [update_of_ne same] at holds

theorem Ends.replace (ends : Ends d place) (uses : ∀ {w}, place'.uses = some w → 0 < d.ends w p)
    (closes : ∀ {w}, place'.closes = some w → (place p).closes = some w)
    (closed : place'.closed = true → (place p).closed = true)
    (frees : place'.frees = true → (place p).frees = true) : Ends d (update place p place') := by
  have closing {q : Slot} {w : Bool} (there : (update place p place' q).closes = some w) :
      (place q).closes = some w := of_update (·.closes = some w) closes there
  have freeing {q : Slot} (there : (update place p place' q).frees = true) :
      (place q).frees = true := of_update (·.frees = true) frees there
  refine ⟨fun {q w} used => ?_, ends.shut, ends.unallocated, fun there => ends.closes (closing there),
    fun first second => ends.once (closing first) (closing second), fun {q} shut => ?_,
    fun there => ends.frees (freeing there), fun first second => ends.freed (freeing first) (freeing second)⟩
  · by_cases same : q = p
    · subst same
      rw [update_self] at used
      exact uses used
    · rw [update_of_ne same] at used
      exact ends.uses used
  · have before := ends.closed (of_update (·.closed = true) closed shut)
    refine ⟨before.1, fun r => ?_⟩
    by_contra there
    simp only [Bool.not_eq_false] at there
    exact absurd (freeing there) (by simp [before.2 r])

theorem Ends.weaken (ends : Ends d place) (weaker : Weaker (place p) place') :
    Ends d (update place p place') :=
  ends.replace (fun used => ends.uses (weaker.uses used)) weaker.closes weaker.closed weaker.frees

theorem Ends.congr (ends : Ends d place) (pipe : ∀ w, d'.pipe.isOpen w = d.pipe.isOpen w)
    (allocated : d'.allocated = d.allocated) (counts : d'.ends = d.ends) : Ends d' place := by
  refine ⟨?_, ?_, ?_, ?_, ends.once, ?_, ?_, ends.freed⟩
  · rw [counts]
    exact ends.uses
  · intro w
    rw [pipe, counts]
    exact ends.shut
  · rw [allocated, counts]
    exact ends.unallocated
  · intro q w closing
    rw [allocated, pipe, counts]
    exact ends.closes closing
  · intro q shut
    rw [allocated]
    exact ends.closed shut
  · intro q freeing
    simp only [allocated, pipe]
    exact ends.frees freeing

theorem isOpen_close (pipe : Pipe) (w w' : Bool) :
    (pipe.close w).isOpen w' = if w' = w then false else pipe.isOpen w' := by
  cases w <;> cases w' <;> rfl

theorem Ends.closeSet (ends : Ends d place) {w : Bool} (here : place p = .closeSet w) :
    Ends { d with pipe := d.pipe.close w } (update place p (.closeWake w)) := by
  have closing : (place p).closes = some w := by rw [here]; rfl
  obtain ⟨allocated, isOpen, none⟩ := ends.closes closing
  have still (q : Slot) : (place q).frees = false := by
    by_contra freeing
    simp only [Bool.not_eq_false] at freeing
    simp [(ends.frees freeing).2 w] at isOpen
  have frees {q : Slot} : (update place p (.closeWake w) q).frees = false := by
    by_contra freeing
    simp only [Bool.not_eq_false] at freeing
    have before := of_update (·.frees = true) (fun shut => by simp [Place.frees] at shut) freeing
    simp [still q] at before
  have closes {q : Slot} {w' : Bool} (other : (update place p (.closeWake w) q).closes = some w') :
      (place q).closes = some w' ∧ w' ≠ w := by
    have apart : q ≠ p := by
      rintro rfl
      simp [Place.closes] at other
    rw [update_of_ne apart] at other
    refine ⟨other, ?_⟩
    rintro rfl
    exact apart (ends.once other closing)
  refine ⟨?_, ?_, ?_, ?_, fun first second => ends.once (closes first).1 (closes second).1, ?_, ?_, ?_⟩
  · intro q w' used
    exact ends.uses (of_update (·.uses = some w') (fun shut => by simp [Place.uses] at shut) used)
  · intro w' shut
    dsimp only at shut
    rw [isOpen_close] at shut
    split at shut
    · rename_i same
      rw [same]
      exact none
    · exact ends.shut shut
  · intro unallocated
    simp [allocated] at unallocated
  · intro q w' other
    dsimp only
    rw [isOpen_close, if_neg (closes other).2]
    exact ends.closes (closes other).1
  · exact fun _ => ⟨allocated, fun q => frees⟩
  · intro q freeing
    simp [frees] at freeing
  · intro q r freeing
    simp [frees] at freeing

theorem Ends.closeTest (ends : Ends d place) (here : place p = .closeTest)
    (shut : ∀ w, d.pipe.isOpen w = false) (alone : ∀ q, q ≠ p → (place q).closed = false) :
    Ends d (update place p .closeRelease) := by
  obtain ⟨allocated, still⟩ := ends.closed (by rw [here]; rfl : (place p).closed = true)
  have frees {q : Slot} (freeing : (update place p .closeRelease q).frees = true) : q = p := by
    by_contra apart
    rw [update_of_ne apart, still q] at freeing
    simp at freeing
  have closes {q : Slot} {w : Bool} (other : (update place p .closeRelease q).closes = some w) :
      (place q).closes = some w := of_update (·.closes = some w) (fun none => by simp [Place.closes] at none) other
  refine ⟨?_, ends.shut, ends.unallocated, fun other => ends.closes (closes other),
    fun first second => ends.once (closes first) (closes second), ?_, fun _ => ⟨allocated, shut⟩,
    fun first second => (frees first).trans (frees second).symm⟩
  · intro q w used
    exact ends.uses (of_update (·.uses = some w) (fun none => by simp [Place.uses] at none) used)
  · intro q closed
    have apart : q ≠ p := by
      rintro rfl
      simp [Place.closed] at closed
    rw [update_of_ne apart, alone q apart] at closed
    simp at closed

theorem Ends.closeFree (ends : Ends d place) (here : place p = .closeFree) :
    Ends { d with allocated := false } (update place p (.ret 0)) := by
  have freeing : (place p).frees = true := by rw [here]; rfl
  obtain ⟨allocated, shut⟩ := ends.frees freeing
  have frees {q : Slot} : (update place p (.ret 0) q).frees = false := by
    by_contra other
    simp only [Bool.not_eq_false] at other
    have apart : q ≠ p := by
      rintro rfl
      simp [Place.frees] at other
    rw [update_of_ne apart] at other
    exact apart (ends.freed other freeing)
  have closes {q : Slot} {w : Bool} (other : (update place p (.ret 0) q).closes = some w) :
      (place q).closes = some w := of_update (·.closes = some w) (fun none => by simp [Place.closes] at none) other
  refine ⟨?_, ends.shut, fun _ w => ends.shut (shut w), ?_,
    fun first second => ends.once (closes first) (closes second), ?_, ?_, ?_⟩
  · intro q w used
    exact ends.uses (of_update (·.uses = some w) (fun none => by simp [Place.uses] at none) used)
  · intro q w other
    have isOpen := (ends.closes (closes other)).2.1
    simp [shut w] at isOpen
  · intro q closed
    have before := of_update (·.closed = true) (fun none => by simp [Place.closed] at none) closed
    simp [(ends.closed before).2 p] at freeing
  · intro q other
    simp [frees] at other
  · intro q r other
    simp [frees] at other

structure Plain (d : Data) (place : Place) (d' : Data) (place' : Place) : Prop where
  weaker : Weaker place place'
  isOpen : ∀ w, d'.pipe.isOpen w = d.pipe.isOpen w
  allocated : d'.allocated = d.allocated
  ends : d'.ends = d.ends

theorem Plain.of_pipe {place place' : Place} (weaker : Weaker place place') (pipe : d'.pipe = d.pipe)
    (allocated : d'.allocated = d.allocated) (ends : d'.ends = d.ends) : Plain d place d' place' :=
  ⟨weaker, fun w => by rw [pipe], allocated, ends⟩

theorem Weaker.silent {place place' : Place} (uses : place'.uses = none) (closes : place'.closes = none)
    (closed : place'.closed = false) (frees : place'.frees = false) : Weaker place place' :=
  ⟨by simp [uses], by simp [closes], by simp [closed], by simp [frees]⟩

theorem Weaker.same {place place' : Place} (uses : place'.uses = place.uses) (closes : place'.closes = place.closes)
    (closed : place'.closed = place.closed) (frees : place'.frees = place.frees) : Weaker place place' :=
  ⟨by simp [uses], by simp [closes], by simp [closed], by simp [frees]⟩

theorem next_plain {killed : Bool} {key : Option Byte} {place : Place}
    {command : Command (Lock ⊕ L) (Key ⊕ K) Data Place} (given : next d killed key place = some command)
    (set : ∀ w, place ≠ .closeSet w) (test : place ≠ .closeTest) (free : place ≠ .closeFree) :
    Plain d place (after d command).1 (after d command).2 := by
  cases place with
  | out => simp [next] at given
  | closeSet w => exact absurd rfl (set w)
  | closeTest => exact absurd rfl test
  | closeFree => exact absurd rfl free
  | writeStore n byte rest =>
      obtain rfl := Option.some.inj given
      exact ⟨.same rfl rfl rfl rfl, fun w => by cases w <;> rfl, rfl, rfl⟩
  | readTake i n =>
      obtain rfl := Option.some.inj given
      exact ⟨.same rfl rfl rfl rfl, fun w => by cases w <;> rfl, rfl, rfl⟩
  | writeLoop n bytes =>
      cases bytes with
      | nil =>
          obtain rfl := Option.some.inj given
          exact .of_pipe (.same rfl rfl rfl rfl) rfl rfl rfl
      | cons byte rest =>
          obtain rfl := Option.some.inj given
          refine .of_pipe ?_ rfl rfl rfl
          simp only [after]
          split <;> exact .same rfl rfl rfl rfl
  | writeTest n byte rest =>
      obtain rfl := Option.some.inj given
      refine .of_pipe ?_ rfl rfl rfl
      simp only [after]
      split
      · exact .silent rfl rfl rfl rfl
      · exact .same rfl rfl rfl rfl
  | readTest n =>
      obtain rfl := Option.some.inj given
      refine .of_pipe ?_ rfl rfl rfl
      simp only [after]
      split
      · exact .silent rfl rfl rfl rfl
      · exact .same rfl rfl rfl rfl
  | readWait n =>
      obtain rfl := Option.some.inj given
      refine .of_pipe ?_ rfl rfl rfl
      simp only [after]
      split <;> exact .same rfl rfl rfl rfl
  | readCopy i n =>
      obtain rfl := Option.some.inj given
      refine .of_pipe ?_ rfl rfl rfl
      simp only [after]
      split <;> exact .same rfl rfl rfl rfl
  | consTake n target =>
      simp only [next] at given
      split at given
      · split at given
        · obtain rfl := Option.some.inj given
          exact .of_pipe (.silent rfl rfl rfl rfl) rfl rfl rfl
        · obtain rfl := Option.some.inj given
          exact .of_pipe (.silent rfl rfl rfl rfl) rfl rfl rfl
      · obtain rfl := Option.some.inj given
        refine .of_pipe ?_ rfl rfl rfl
        simp only [after]
        split <;> exact .silent rfl rfl rfl rfl
  | consLoop | consWait | consTest | tickLoop | tickTest =>
      obtain rfl := Option.some.inj given
      refine .of_pipe ?_ rfl rfl rfl
      simp only [after]
      split <;> exact .silent rfl rfl rfl rfl
  | keyLoop =>
      cases key with
      | none =>
          obtain rfl := Option.some.inj given
          exact .of_pipe (.silent rfl rfl rfl rfl) rfl rfl rfl
      | some c =>
          obtain rfl := Option.some.inj given
          refine .of_pipe ?_ rfl rfl rfl
          simp only [after]
          split <;> exact .silent rfl rfl rfl rfl
  | writeDone | readDone =>
      obtain rfl := Option.some.inj given
      exact .of_pipe (.silent rfl rfl rfl rfl) rfl rfl rfl
  | writeEnter | writeWake | writeSleep | readEnter | readSleep | closeEnter | closeWake | closeRelease =>
      obtain rfl := Option.some.inj given
      exact .of_pipe (.same rfl rfl rfl rfl) rfl rfl rfl
  | _ =>
      obtain rfl := Option.some.inj given
      exact .of_pipe (.silent rfl rfl rfl rfl) rfl rfl rfl

theorem Ends.code (ends : Ends d place) {killed : Bool} {key : Option Byte}
    {command : Command (Lock ⊕ L) (Key ⊕ K) Data Place} (given : next d killed key (place p) = some command)
    (alone : (place p).closed = true → ∀ q, q ≠ p → (place q).closed = false) :
    Ends (after d command).1 (update place p (after d command).2) := by
  by_cases set : ∃ w, place p = .closeSet w
  · obtain ⟨w, here⟩ := set
    rw [here] at given
    obtain rfl := Option.some.inj given
    exact ends.closeSet here
  · by_cases test : place p = .closeTest
    · have closed : (place p).closed = true := by rw [test]; rfl
      rw [test] at given
      obtain rfl := Option.some.inj given
      simp only [after]
      split
      · rename_i shut
        refine ends.closeTest test (fun w => ?_) (alone closed)
        cases w
        · exact shut.1
        · exact shut.2
      · exact ends.weaken (.silent rfl rfl rfl rfl)
    · by_cases free : place p = .closeFree
      · rw [free] at given
        obtain rfl := Option.some.inj given
        exact ends.closeFree free
      · have plain := next_plain given (fun w here => set ⟨w, here⟩) test free
        exact (ends.weaken plain.weaker).congr plain.isOpen plain.allocated plain.ends

theorem Ends.open_of_end (ends : Ends d place) {w : Bool} (held : 0 < d.ends w p) : d.pipe.isOpen w = true := by
  by_contra shut
  simp only [Bool.not_eq_true] at shut
  simp [ends.shut shut p] at held

theorem Ends.allocated_of_end (ends : Ends d place) {w : Bool} (held : 0 < d.ends w p) : d.allocated = true := by
  by_contra unallocated
  simp only [Bool.not_eq_true] at unallocated
  simp [ends.unallocated unallocated w p] at held

theorem Ends.not_closes (ends : Ends d place) {w : Bool} (held : 0 < d.ends w p) (q : Slot) :
    (place q).closes ≠ some w := by
  intro closing
  simp [(ends.closes closing).2.2 p] at held

theorem Ends.recount (ends : Ends d place) {count : Bool → Slot → Nat}
    (same : ∀ w, (∀ q, d.ends w q = 0) → ∀ q, count w q = 0)
    (kept : ∀ {q w}, (place q).uses = some w → 0 < count w q) : Ends { d with ends := count } place := by
  refine ⟨kept, fun shut => same _ (ends.shut shut), fun unallocated w => same w (ends.unallocated unallocated w),
    fun closing => ?_, ends.once, ends.closed, ends.frees, ends.freed⟩
  obtain ⟨allocated, isOpen, none⟩ := ends.closes closing
  exact ⟨allocated, isOpen, same _ none⟩

theorem Ends.uses_none_of_out (outside : place p = .out) {w : Bool} {q : Slot} (used : (place q).uses = some w) :
    q ≠ p := by
  rintro rfl
  simp [outside, Place.uses] at used

theorem Ends.setEnds (ends : Ends d place) (outside : place p = .out) {w : Bool} (held : 0 < d.ends w p)
    (count : Nat) : Ends (d.setEnds w (update (d.ends w) p count)) place := by
  refine ends.recount (fun w' none q => ?_) (fun {q w'} used => ?_)
  · have other : w' ≠ w := by
      rintro rfl
      simp [none p] at held
    rw [update_of_ne other]
    exact none q
  · have apart := Ends.uses_none_of_out outside used
    by_cases same : w' = w
    · subst same
      rw [update_self, update_of_ne apart]
      exact ends.uses used
    · rw [update_of_ne same]
      exact ends.uses used

theorem Ends.closeEnter (ends : Ends d place) {w : Bool} (allocated : d.allocated = true)
    (isOpen : d.pipe.isOpen w = true)
    (none : ∀ q, d.ends w q = 0) (first : ∀ q, (place q).closes ≠ some w) :
    Ends d (update place p (.closeEnter w)) := by
  have closes {q : Slot} {w' : Bool} (closing : (update place p (.closeEnter w) q).closes = some w') :
      q = p ∧ w' = w ∨ (place q).closes = some w' := by
    by_cases same : q = p
    · subst same
      rw [update_self] at closing
      exact Or.inl ⟨rfl, (Option.some.inj closing).symm⟩
    · rw [update_of_ne same] at closing
      exact Or.inr closing
  have frees {q : Slot} (freeing : (update place p (.closeEnter w) q).frees = true) :
      (place q).frees = true := of_update (·.frees = true) (fun none => by simp [Place.frees] at none) freeing
  refine ⟨?_, ends.shut, ends.unallocated, ?_, ?_, ?_, fun freeing => ends.frees (frees freeing),
    fun one two => ends.freed (frees one) (frees two)⟩
  · intro q w' used
    exact ends.uses (of_update (·.uses = some w') (fun none => by simp [Place.uses] at none) used)
  · intro q w' closing
    rcases closes closing with ⟨-, rfl⟩ | before
    · exact ⟨allocated, isOpen, none⟩
    · exact ends.closes before
  · intro q r w' one two
    rcases closes one with ⟨rfl, rfl⟩ | before
    · rcases closes two with ⟨rfl, -⟩ | other
      · rfl
      · exact absurd other (first r)
    · rcases closes two with ⟨rfl, rfl⟩ | other
      · exact absurd before (first q)
      · exact ends.once before other
  · intro q closed
    have before := ends.closed (of_update (·.closed = true) (fun none => by simp [Place.closed] at none) closed)
    refine ⟨before.1, fun r => ?_⟩
    by_contra freeing
    simp only [Bool.not_eq_false] at freeing
    exact absurd (frees freeing) (by simp [before.2 r])

theorem Ends.alloc (ends : Ends d place) (unallocated : d.allocated = false) :
    Ends { d with
      pipe := d.pipe.alloc
      allocated := true
      ends := fun w => update (d.ends w) p 1
      sent := []
      received := [] } place := by
  have none := ends.unallocated unallocated
  refine ⟨?_, ?_, by simp, ?_, ends.once, ?_, ?_, ends.freed⟩
  · intro q w used
    have held := ends.uses used
    simp [none w q] at held
  · intro w shut
    cases w <;> simp [Pipe.isOpen, Pipe.alloc] at shut
  · intro q w closing
    have allocated := (ends.closes closing).1
    simp [unallocated] at allocated
  · intro q closed
    have allocated := (ends.closed closed).1
    simp [unallocated] at allocated
  · intro q freeing
    have allocated := (ends.frees freeing).1
    simp [unallocated] at allocated

theorem Ends.call (ends : Ends d place) (outside : place p = .out) {call : Call}
    (given : enter d p call = some (d', place')) : Ends d' (update place p place') := by
  cases call with
  | pipe =>
      simp only [enter] at given
      split at given
      · simp at given
      · rename_i unallocated
        simp only [Option.some.injEq, Prod.mk.injEq] at given
        obtain ⟨rfl, rfl⟩ := given
        exact (ends.alloc (by simpa using unallocated)).weaken (.silent rfl rfl rfl rfl)
  | dup w =>
      simp only [enter] at given
      split at given
      · rename_i held
        simp only [Option.some.injEq, Prod.mk.injEq] at given
        obtain ⟨rfl, rfl⟩ := given
        exact (ends.setEnds outside held _).weaken (.silent rfl rfl rfl rfl)
      · simp at given
  | close w =>
      simp only [enter] at given
      split at given
      · rename_i held
        simp only [Option.some.injEq, Prod.mk.injEq] at given
        obtain ⟨rfl, rfl⟩ := given
        have fewer := ends.setEnds outside held (d.ends w p - 1)
        split
        · rename_i last
          refine fewer.closeEnter (ends.allocated_of_end held) (ends.open_of_end held) (fun q => ?_) (ends.not_closes held)
          rw [Data.setEnds]
          dsimp only
          rw [update_self]
          exact last q
        · exact fewer.weaken (.silent rfl rfl rfl rfl)
      · simp at given
  | write bytes =>
      simp only [enter] at given
      split at given
      · rename_i held
        simp only [Option.some.injEq, Prod.mk.injEq] at given
        obtain ⟨rfl, rfl⟩ := given
        refine ends.replace (fun used => ?_) (by simp [Place.closes]) (by simp [Place.closed]) (by simp [Place.frees])
        rwa [← Option.some.inj used]
      · simp at given
  | read n =>
      simp only [enter] at given
      split at given
      · rename_i held
        simp only [Option.some.injEq, Prod.mk.injEq] at given
        obtain ⟨rfl, rfl⟩ := given
        refine ends.replace (fun used => ?_) (by simp [Place.closes]) (by simp [Place.closed]) (by simp [Place.frees])
        rwa [← Option.some.inj used]
      · simp at given
  | consoleread | sleep =>
      simp only [enter, Option.some.injEq, Prod.mk.injEq] at given
      obtain ⟨rfl, rfl⟩ := given
      exact ends.weaken (.silent rfl rfl rfl rfl)

theorem Ends.fork (ends : Ends d place) {np : Slot} (outside : place np = .out) :
    Ends { d with ends := fun w => update (d.ends w) np (d.ends w p) } place := by
  refine ends.recount (fun w none q => ?_) (fun {q w} used => ?_)
  · by_cases same : q = np
    · subst same
      rw [update_self, none p]
    · rw [update_of_ne same, none q]
  · rw [update_of_ne (Ends.uses_none_of_out outside used)]
    exact ends.uses used

end Descriptors

section Run

variable {bsp c : C} {w w' : World C (Lock ⊕ L) (Key ⊕ K) Data Place}

structure Sound [DecidableEq C] (bsp : C) (w : World C (Lock ⊕ L) (Key ⊕ K) Data Place) : Prop where
  owned : Owned (ipc bsp) w
  device : ∀ c, (w.hand c).device = true
  ends : Ends w.data w.place

theorem closed_lock {place : Place} (closed : place.closed = true) :
    (place.lock : Option (Lock ⊕ L)) = some (.inl .pipe) ∧ (place.rests : Option (Key ⊕ K)) = none := by
  cases place <;> simp [Place.closed] at closed <;> exact ⟨rfl, rfl⟩

theorem handler_device [DecidableEq C] {interrupt : Interrupt} {place : Place}
    (given : handler bsp c interrupt = some place) : place.device = true := by
  cases interrupt with
  | keyboard =>
      obtain rfl := Option.some.inj given
      rfl
  | timer =>
      simp only [handler] at given
      split at given
      · obtain rfl := Option.some.inj given
        rfl
      · simp at given

variable [DecidableEq C] [DecidableEq L] [DecidableEq K] [Fintype L]

theorem Sound.step (sound : Sound bsp w) {event : C × Event (Lock ⊕ L) (Key ⊕ K) (Option Byte) Call Interrupt}
    (stepped : w.step (ipc bsp) event = some w') : Sound bsp w' := by
  obtain ⟨c, event⟩ := event
  have owned := sound.owned.step stepped
  cases acts_of_step stepped with
  | @kernel action m idle foreign stays leaves went =>
      refine ⟨owned, sound.device, ?_⟩
      rcases forked_cases (ipc bsp) w c action with same | ⟨p, np, -, here, forked⟩
      · dsimp only
        rw [same]
        exact sound.ends
      · dsimp only
        rw [forked]
        exact sound.ends.fork (sound.owned.newborn_out (by rw [here]; rfl))
  | call idle runs user outside given => exact ⟨owned, sound.device, sound.ends.call outside given⟩
  | @interrupt j place idle open' unlocked given =>
      refine ⟨owned, fun c' => ?_, sound.ends⟩
      by_cases same : c' = c
      · subst same
        dsimp only
        rw [update_self]
        exact handler_device given
      · dsimp only
        rw [update_of_ne same]
        exact sound.device c'
  | @process input p command m data place idle runs user given ran kept =>
      refine ⟨owned, sound.device, ?_⟩
      have same := after_of_ran ran
      have ends := sound.ends.code given fun closed q other => ?_
      · rwa [same] at ends
      · by_contra closing
        simp only [Bool.not_eq_false] at closing
        obtain ⟨lock, -⟩ := closed_lock (L := L) (K := K) closed
        obtain ⟨lock', rests⟩ := closed_lock (L := L) (K := K) closing
        obtain ⟨-, waits⟩ := sound.owned.exclusive user lock lock' other
        simp [ipc, rests] at waits
  | @handler input command m data place busy given awake ran kept =>
      have same := after_of_ran ran
      obtain ⟨device, input', ticks', data'⟩ := device_next (sound.device c) given
      rw [same] at device data'
      refine ⟨owned, fun c' => ?_, ?_⟩
      · by_cases self : c' = c
        · subst self
          dsimp only
          rw [update_self]
          exact device
        · dsimp only
          rw [update_of_ne self]
          exact sound.device c'
      · dsimp only at data' ⊢
        rw [data']
        exact sound.ends.congr (fun _ => rfl) rfl rfl

structure Data.Fresh (d : Data) : Prop where
  unallocated : d.allocated = false
  ends : ∀ w q, d.ends w q = 0

omit [DecidableEq L] [DecidableEq K] [Fintype L] in
theorem sound_start {d : Data} (fresh : d.Fresh) :
    Sound bsp (World.start (ipc bsp) d : World C (Lock ⊕ L) (Key ⊕ K) Data Place) := by
  refine ⟨owned_start d, fun _ => rfl, ⟨?_, fun _ => fresh.ends _, fun _ => fresh.ends, ?_, ?_, ?_, ?_, ?_⟩⟩
  · intro p w used
    exact absurd used (by simp [World.start, ipc, Place.uses])
  · intro p w closing
    exact absurd closing (by simp [World.start, ipc, Place.closes])
  · intro p q w closing
    exact absurd closing (by simp [World.start, ipc, Place.closes])
  · intro p closed
    exact absurd closed (by simp [World.start, ipc, Place.closed])
  · intro p freeing
    exact absurd freeing (by simp [World.start, ipc, Place.frees])
  · intro p q freeing
    exact absurd freeing (by simp [World.start, ipc, Place.frees])

end Run

end OsLabs.Ipc
