import Mathlib.Logic.Basic
import Mathlib.Tactic.Common

/-!
Postconditions for computations that either return or fail: what a returned value meets and
which failures are allowed.
-/

namespace OsLabs.Outcomes

variable {ε α β ι : Type} {allowed : ε → Prop} {post : α → Prop} {after : β → Prop}

@[simp] theorem ok_bind (value : α) (next : α → Except ε β) :
    ((Except.ok value : Except ε α) >>= next) = next value := rfl

theorem bind_eq_ok {first : Except ε α} {next : α → Except ε β} {value : β} :
    (first >>= next) = .ok value ↔ ∃ middle, first = .ok middle ∧ next middle = .ok value := by
  cases first with
  | error failure => simp [bind, Except.bind]
  | ok middle => simp

theorem eq_ok_of_toOption {first : Except ε α} {value : α} (some : first.toOption = some value) :
    first = .ok value := by
  cases first with
  | error failure => exact nomatch some
  | ok other => rw [Option.some.inj some]

def Meets (allowed : ε → Prop) (post : α → Prop) : Except ε α → Prop
  | .ok value => post value
  | .error failure => allowed failure

namespace Meets

@[simp] theorem pure_iff {value : α} : Meets allowed post (pure value) ↔ post value := Iff.rfl

@[simp] theorem ok_iff {value : α} : Meets allowed post (.ok value) ↔ post value := Iff.rfl

@[simp] theorem error_iff {failure : ε} : Meets allowed post (.error failure) ↔ allowed failure := Iff.rfl

theorem bind {first : Except ε α} {next : α → Except ε β} (meets : Meets allowed post first)
    (continues : ∀ value, post value → Meets allowed after (next value)) :
    Meets allowed after (first >>= next) := by
  cases first with
  | error failure => exact meets
  | ok value => exact continues value meets

theorem map {first : Except ε α} {convert : α → β} (meets : Meets allowed post first)
    (continues : ∀ value, post value → after (convert value)) :
    Meets allowed after (convert <$> first) := by
  cases first with
  | error failure => exact meets
  | ok value => exact continues value meets

theorem of_map {first : Except ε α} {convert : α → β} (meets : Meets allowed after (convert <$> first)) :
    Meets allowed (fun value => after (convert value)) first := by
  cases first with
  | error failure => exact meets
  | ok value => exact meets

theorem mapError {δ : Type} {wider : δ → Prop} {first : Except ε α} {convert : ε → δ}
    (meets : Meets allowed post first) (failures : ∀ failure, allowed failure → wider (convert failure)) :
    Meets wider post (first.mapError convert) := by
  cases first with
  | error failure => exact failures failure meets
  | ok value => exact meets

theorem mono {wider : ε → Prop} {weaker : α → Prop} {first : Except ε α}
    (meets : Meets allowed post first) (failures : ∀ failure, allowed failure → wider failure)
    (values : ∀ value, post value → weaker value) : Meets wider weaker first := by
  cases first with
  | error failure => exact failures failure meets
  | ok value => exact values value meets

theorem imp {weaker : α → Prop} {first : Except ε α} (meets : Meets allowed post first)
    (values : ∀ value, post value → weaker value) : Meets allowed weaker first :=
  meets.mono (fun _ fails => fails) values

theorem sure {first : Except ε α} (meets : Meets (fun _ => False) post first) : Meets allowed post first :=
  meets.mono (fun _ fails => fails.elim) fun _ value => value

theorem and {other : ε → Prop} {more : α → Prop} {first : Except ε α} (meets : Meets allowed post first)
    (also : Meets other more first) :
    Meets (fun failure => allowed failure ∧ other failure) (fun value => post value ∧ more value) first := by
  cases first with
  | error failure => exact ⟨meets, also⟩
  | ok value => exact ⟨meets, also⟩

theorem foldlM {body : α → ι → Except ε α} {invariant : List ι → α → Prop}
    (round : ∀ item rest value, invariant (item :: rest) value →
      Meets allowed (invariant rest) (body value item)) {items : List ι} {start : α}
    (initial : invariant items start) : Meets allowed (invariant []) (items.foldlM body start) := by
  induction items generalizing start with
  | nil => exact initial
  | cons item rest ih =>
      rw [List.foldlM_cons]
      exact (round item rest start initial).bind fun value holds => ih holds

theorem of_ok {first : Except ε α} {value : α} (meets : Meets allowed post first)
    (returns : first = .ok value) : post value := by
  rw [returns] at meets
  exact meets

theorem of_error {first : Except ε α} {failure : ε} (meets : Meets allowed post first)
    (fails : first = .error failure) : allowed failure := by
  rw [fails] at meets
  exact meets

theorem returns {first : Except ε α} (meets : Meets (fun _ => False) post first) :
    ∃ value, first = .ok value ∧ post value := by
  cases first with
  | error failure => exact meets.elim
  | ok value => exact ⟨value, rfl, meets⟩

end Meets

section Agree

variable {δ γ : Type} {fails : ε → δ → Prop} {related : α → γ → Prop}

def Agree (fails : ε → δ → Prop) (related : α → γ → Prop) : Except ε α → Except δ γ → Prop
  | .ok value, .ok value' => related value value'
  | .error failure, .error failure' => fails failure failure'
  | _, _ => False

namespace Agree

@[simp] theorem pure_iff {value : α} {value' : γ} :
    Agree fails related (pure value) (pure value') ↔ related value value' := Iff.rfl

@[simp] theorem ok_iff {value : α} {value' : γ} :
    Agree fails related (.ok value) (.ok value') ↔ related value value' := Iff.rfl

@[simp] theorem error_iff {failure : ε} {failure' : δ} :
    Agree fails related (.error failure) (.error failure') ↔ fails failure failure' := Iff.rfl

theorem elim {first : Except ε α} {first' : Except δ γ} (agree : Agree fails related first first') :
    (∃ failure failure', first = .error failure ∧ first' = .error failure' ∧ fails failure failure') ∨
      ∃ value value', first = .ok value ∧ first' = .ok value' ∧ related value value' := by
  cases first with
  | error failure =>
      cases first' with
      | error failure' => exact Or.inl ⟨failure, failure', rfl, rfl, agree⟩
      | ok value' => exact False.elim agree
  | ok value =>
      cases first' with
      | error failure' => exact False.elim agree
      | ok value' => exact Or.inr ⟨value, value', rfl, rfl, agree⟩

theorem bind {α' γ' : Type} {after : α' → γ' → Prop} {first : Except ε α} {first' : Except δ γ}
    {next : α → Except ε α'} {next' : γ → Except δ γ'} (agree : Agree fails related first first')
    (continues : ∀ value value', related value value' → Agree fails after (next value) (next' value')) :
    Agree fails after (first >>= next) (first' >>= next') := by
  obtain ⟨failure, failure', rfl, rfl, fail⟩ | ⟨value, value', rfl, rfl, both⟩ := agree.elim
  · exact fail
  · exact continues value value' both

theorem and_meets {first : Except ε α} {first' : Except δ γ} (agree : Agree fails related first first')
    (meets : Meets allowed post first) :
    Agree (fun failure failure' => fails failure failure' ∧ allowed failure)
      (fun value value' => related value value' ∧ post value) first first' := by
  obtain ⟨failure, failure', rfl, rfl, fail⟩ | ⟨value, value', rfl, rfl, both⟩ := agree.elim
  · exact ⟨fail, meets⟩
  · exact ⟨both, meets⟩

end Agree

end Agree

end OsLabs.Outcomes
