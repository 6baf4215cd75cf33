import Mathlib.Data.List.Induction
import Mathlib.Tactic.Common

/-!
Finite runs of a partial step function. A step answers `none` when the event is
not enabled (or ends the program), so a run is a successful left fold of events.
-/

namespace OsLabs.Runs

variable {σ ε : Type*}

def run (step : σ → ε → Option σ) : σ → List ε → Option σ
  | start, [] => some start
  | start, event :: rest => (step start event).bind fun next => run step next rest

@[simp] theorem run_nil (step : σ → ε → Option σ) (start : σ) : run step start [] = some start := rfl

@[simp] theorem run_cons (step : σ → ε → Option σ) (start : σ) (event : ε) (rest : List ε) :
    run step start (event :: rest) = (step start event).bind fun next => run step next rest := rfl

theorem run_append (step : σ → ε → Option σ) (start : σ) (first second : List ε) :
    run step start (first ++ second) =
      (run step start first).bind fun middle => run step middle second := by
  induction first generalizing start with
  | nil => rfl
  | cons event rest ih =>
      simp only [List.cons_append, run_cons, Option.bind_assoc, ih]

theorem run_concat (step : σ → ε → Option σ) (start : σ) (events : List ε) (event : ε) :
    run step start (events ++ [event]) =
      (run step start events).bind fun last => step last event := by
  simp only [run_append, run_cons, run_nil, Option.bind_fun_some]

theorem run_concat_eq_some {step : σ → ε → Option σ} {start final : σ} {events : List ε}
    {event : ε} :
    run step start (events ++ [event]) = some final ↔
      ∃ last, run step start events = some last ∧ step last event = some final := by
  rw [run_concat, Option.bind_eq_some_iff]

theorem split_concat {items before after : List ε} {last item : ε}
    (split : items ++ [last] = before ++ item :: after) :
    (items = before ∧ last = item) ∨ ∃ shorter, items = before ++ item :: shorter := by
  rcases List.eq_nil_or_concat after with empty | ⟨shorter, final, same⟩
  · subst after
    obtain ⟨same, heads⟩ := List.append_inj' split rfl
    exact Or.inl ⟨same, (List.cons.inj heads).1⟩
  · subst same
    rw [List.concat_eq_append, ← List.cons_append, ← List.append_assoc] at split
    exact Or.inr ⟨shorter, (List.append_inj' split rfl).1⟩

/-- Every step taken along the run meets `condition`, which may look at the events
before the step, at the state before it and at the step's own event. -/
def Along (step : σ → ε → Option σ) (condition : List ε → σ → ε → Prop) (start : σ)
    (events : List ε) : Prop :=
  ∀ before event after state, events = before ++ event :: after →
    run step start before = some state → condition before state event

theorem Along.of_append {step : σ → ε → Option σ} {condition : List ε → σ → ε → Prop} {start : σ}
    {events more : List ε} (along : Along step condition start (events ++ more)) :
    Along step condition start events := by
  intro before current after state split reached
  exact along before current (after ++ more) state (by simp [split]) reached

theorem Along.last {step : σ → ε → Option σ} {condition : List ε → σ → ε → Prop} {start state : σ}
    {events : List ε} {event : ε} (along : Along step condition start (events ++ [event]))
    (reached : run step start events = some state) : condition events state event :=
  along events event [] state rfl reached

theorem Along.concat {step : σ → ε → Option σ} {condition : List ε → σ → ε → Prop} {start : σ}
    {events : List ε} {event : ε} (along : Along step condition start events)
    (last : ∀ state, run step start events = some state → condition events state event) :
    Along step condition start (events ++ [event]) := by
  intro before current after state split reached
  rcases split_concat split with ⟨same, here⟩ | ⟨shorter, earlier⟩
  · subst same here
    exact last state reached
  · exact along before current shorter state earlier reached

theorem Along.and {step : σ → ε → Option σ} {first second : List ε → σ → ε → Prop} {start : σ}
    {events : List ε} (one : Along step first start events) (other : Along step second start events) :
    Along step (fun history state event => first history state event ∧ second history state event)
      start events :=
  fun before event after state split reached =>
    ⟨one before event after state split reached, other before event after state split reached⟩

theorem Along.head {step : σ → ε → Option σ} {condition : List ε → σ → ε → Prop} {start : σ}
    {event : ε} {rest : List ε} (along : Along step condition start (event :: rest)) :
    condition [] start event :=
  along [] event rest start rfl rfl

theorem Along.tail {step : σ → ε → Option σ} {condition : List ε → σ → ε → Prop} {start next : σ}
    {event : ε} {rest : List ε} (along : Along step condition start (event :: rest))
    (stepped : step start event = some next) :
    Along step (fun history => condition (event :: history)) next rest := by
  intro before current after state split reached
  refine along (event :: before) current after state (by simp [split]) ?_
  rw [run_cons, stepped, Option.bind_some, reached]

theorem Along.everywhere {step : σ → ε → Option σ} {property : σ → Prop} {start final : σ}
    {events : List ε} (along : Along step (fun _ state _ => property state) start events)
    (reached : run step start events = some final) (last : property final) (before after : List ε)
    (state : σ) (split : events = before ++ after) (arrived : run step start before = some state) :
    property state := by
  cases after with
  | nil =>
      rw [split, List.append_nil, arrived, Option.some.injEq] at reached
      rwa [reached]
  | cons event rest => exact along before event rest state split arrived

def alongCheck (step : σ → ε → Option σ) (condition : σ → ε → Prop)
    [∀ state, DecidablePred (condition state)] : σ → List ε → Bool
  | _, [] => true
  | start, event :: rest =>
      decide (condition start event) && (step start event).all (alongCheck step condition · rest)

theorem alongCheck_sound (step : σ → ε → Option σ) (condition : σ → ε → Prop)
    [∀ state, DecidablePred (condition state)] (start : σ) (events : List ε)
    (checked : alongCheck step condition start events = true) :
    Along step (fun _ => condition) start events := by
  induction events generalizing start with
  | nil =>
      intro before event after state split _
      simp at split
  | cons first rest ih =>
      simp only [alongCheck, Bool.and_eq_true, decide_eq_true_eq] at checked
      intro before event after state split reached
      cases before with
      | nil =>
          simp only [List.nil_append, List.cons.injEq] at split
          simp only [run_nil, Option.some.injEq] at reached
          rw [← split.1, ← reached]
          exact checked.1
      | cons head tail =>
          simp only [List.cons_append, List.cons.injEq] at split
          rw [run_cons, Option.bind_eq_some_iff] at reached
          obtain ⟨next, stepped, later⟩ := reached
          rw [← split.1] at stepped
          have remaining := checked.2
          rw [stepped, Option.all_some] at remaining
          exact ih next remaining tail event after state split.2 later

/-- The invariant rule: what holds at the start and survives every permitted
step from a state reached so far holds at the end of every permitted run. -/
theorem run_invariant_reached {step : σ → ε → Option σ} {condition : List ε → σ → ε → Prop}
    (invariant : List ε → σ → Prop) {start : σ} (initial : invariant [] start)
    (preserved : ∀ history state event next, run step start history = some state →
      invariant history state → condition history state event → step state event = some next →
        invariant (history ++ [event]) next)
    (events : List ε) (final : σ) (along : Along step condition start events)
    (reached : run step start events = some final) : invariant events final := by
  induction events using List.reverseRecOn generalizing final with
  | nil =>
      simp only [run_nil, Option.some.injEq] at reached
      subst final
      exact initial
  | append_singleton history event ih =>
      obtain ⟨last, before, stepped⟩ := run_concat_eq_some.mp reached
      exact preserved history last event final before (ih last along.of_append before)
        (along.last before) stepped

theorem run_invariant_along {step : σ → ε → Option σ} {condition : List ε → σ → ε → Prop}
    (invariant : List ε → σ → Prop) {start : σ} (initial : invariant [] start)
    (preserved : ∀ history state event next, invariant history state → condition history state event →
      step state event = some next → invariant (history ++ [event]) next)
    (events : List ε) (final : σ) (along : Along step condition start events)
    (reached : run step start events = some final) : invariant events final := by
  refine run_invariant_reached invariant initial ?_ events final along reached
  intro history state event next _ holds permitted stepped
  exact preserved history state event next holds permitted stepped

theorem run_along {step : σ → ε → Option σ} {condition property : List ε → σ → ε → Prop}
    (invariant : List ε → σ → Prop) {start : σ} (initial : invariant [] start)
    (preserved : ∀ history state event next, invariant history state → condition history state event →
      step state event = some next → invariant (history ++ [event]) next)
    (granted : ∀ history state event next, invariant history state →
      step state event = some next → property history state event)
    (events : List ε) (final : σ) (along : Along step condition start events)
    (reached : run step start events = some final) : Along step property start events := by
  intro before event after state split arrived
  subst split
  have holds := run_invariant_along invariant initial preserved before state along.of_append arrived
  rw [run_append, arrived, Option.bind_some, run_cons, Option.bind_eq_some_iff] at reached
  obtain ⟨next, stepped, _⟩ := reached
  exact granted before state event next holds stepped

theorem along_true {step : σ → ε → Option σ} {start : σ} {events : List ε} :
    Along step (fun _ _ _ => True) start events :=
  fun _ _ _ _ _ _ => trivial

theorem run_invariant {step : σ → ε → Option σ} (invariant : List ε → σ → Prop) {start : σ}
    (initial : invariant [] start)
    (preserved : ∀ history state event next, invariant history state →
      step state event = some next → invariant (history ++ [event]) next)
    (events : List ε) (final : σ) (reached : run step start events = some final) :
    invariant events final := by
  refine run_invariant_along invariant initial ?_ events final along_true reached
  intro history state event next holds _ stepped
  exact preserved history state event next holds stepped

theorem run_total {step : σ → ε → Option σ} {condition : List ε → σ → ε → Prop} (invariant : σ → Prop) {start : σ}
    (initial : invariant start)
    (progress : ∀ history state event, invariant state → condition history state event →
      ∃ next, step state event = some next ∧ invariant next)
    (events : List ε) (along : Along step condition start events) :
    ∃ final, run step start events = some final ∧ invariant final := by
  induction events using List.reverseRecOn with
  | nil => exact ⟨start, rfl, initial⟩
  | append_singleton history event ih =>
      obtain ⟨state, reached, holds⟩ := ih along.of_append
      obtain ⟨next, stepped, kept⟩ := progress history state event holds (along.last reached)
      exact ⟨next, run_concat_eq_some.mpr ⟨state, reached, stepped⟩, kept⟩

theorem run_crosses {step : σ → ε → Option σ} (good : σ → Prop) (value : σ → Int)
    (preserved : ∀ state event next, good state → step state event = some next →
      good next ∧ value next ≤ value state + 1)
    (events : List ε) {start final : σ} (target : Int) (initial : good start)
    (reached : run step start events = some final) (low : value start ≤ target)
    (high : target ≤ value final) :
    ∃ before after state, events = before ++ after ∧ run step start before = some state ∧
      value state = target := by
  induction events generalizing start with
  | nil =>
      simp only [run_nil, Option.some.injEq] at reached
      subst final
      exact ⟨[], [], start, rfl, rfl, Int.le_antisymm low high⟩
  | cons event rest ih =>
      by_cases here : value start = target
      · exact ⟨[], event :: rest, start, rfl, rfl, here⟩
      · rw [run_cons, Option.bind_eq_some_iff] at reached
        obtain ⟨next, stepped, later⟩ := reached
        obtain ⟨holds, small⟩ := preserved start event next initial stepped
        obtain ⟨before, after, state, split, arrived, equal⟩ := ih holds later (by omega)
        refine ⟨event :: before, after, state, by rw [split, List.cons_append], ?_, equal⟩
        rw [run_cons, stepped, Option.bind_some, arrived]

end OsLabs.Runs
