import Mathlib.Logic.Relation
import OsLabs.Proc.ProcTree

/-!
The tree of processes. `fork` adds a leaf, `exit` gives the children of a process to `init`, and `wait` takes away a process
that has no children, so the parents of a process lead to `init`.
-/

namespace OsLabs.Proc

open Function Relation Runs

section Trees

variable {α : Type*} [DecidableEq α]

def IsChild (parent : α → Option α) (p q : α) : Prop := parent p = some q

def Rooted (root : α) (parent : α → Option α) : Prop :=
  ∀ p q, parent p = some q → ReflTransGen (IsChild parent) p root

variable {root p : α} {parent parent' : α → Option α}

omit [DecidableEq α] in
theorem descends_of_kept (gone : α → Prop)
    (kept : ∀ p q, parent p = some q → ¬gone p → parent' p = some q ∨ parent' p = some root)
    (childless : ∀ p q, parent p = some q → ¬gone q) (descends : ReflTransGen (IsChild parent) p root)
    (present : ¬gone p) : ReflTransGen (IsChild parent') p root := by
  induction descends using ReflTransGen.head_induction_on with
  | refl => exact .refl
  | head child _ ih =>
      rcases kept _ _ child present with same | adopted
      · exact .head same (ih (childless _ _ child))
      · exact .single adopted

omit [DecidableEq α] in
theorem no_cycle (top : parent root = none) (descends : ReflTransGen (IsChild parent) p root) :
    ¬TransGen (IsChild parent) p p := by
  induction descends using ReflTransGen.head_induction_on with
  | refl =>
      intro cycle
      obtain ⟨q, child, -⟩ := TransGen.head'_iff.mp cycle
      rw [IsChild, top] at child
      cases child
  | head child _ ih =>
      intro cycle
      obtain ⟨q, again, back⟩ := TransGen.head'_iff.mp cycle
      obtain rfl := Option.some.inj (child.symm.trans again)
      exact ih (.tail' back child)

theorem Rooted.leaf (rooted : Rooted root parent) {new : α} (orphan : parent new = none)
    (descends : ReflTransGen (IsChild parent) p root) : Rooted root (update parent new (some p)) := by
  have kept (r q : α) (child : parent r = some q) : update parent new (some p) r = some q := by
    rw [update_of_ne, child]
    rintro rfl
    rw [orphan] at child
    cases child
  have moved {r : α} (descends : ReflTransGen (IsChild parent) r root) :=
    descends_of_kept (fun _ => False) (fun r q child _ => Or.inl (kept r q child)) (fun _ _ _ => id) descends id
  intro r q child
  by_cases newborn : r = new
  · rw [newborn]
    exact .head (update_self ..) (moved descends)
  · rw [update_of_ne newborn] at child
    exact moved (rooted r q child)

theorem Rooted.orphans (rooted : Rooted root parent) {dead : α}
    (handed : ∀ q, parent' q = if parent q = some dead then some root else parent q) : Rooted root parent' := by
  have kept (r q : α) (child : parent r = some q) : parent' r = some q ∨ parent' r = some root := by
    rw [handed]
    split
    · exact Or.inr rfl
    · exact Or.inl child
  intro r q child
  by_cases orphan : parent r = some dead
  · exact .single ((handed r).trans (if_pos orphan))
  · rw [handed, if_neg orphan] at child
    exact descends_of_kept (fun _ => False) (fun r q child _ => kept r q child) (fun _ _ _ => id) (rooted r q child) id

theorem Rooted.remove (rooted : Rooted root parent) {dead : α} (childless : ∀ p, parent p ≠ some dead) :
    Rooted root (update parent dead none) := by
  intro r q child
  have present : r ≠ dead := by
    rintro rfl
    rw [update_self] at child
    cases child
  rw [update_of_ne present] at child
  refine descends_of_kept (· = dead) (fun r q child present => Or.inl ?_) (fun r q child gone => ?_) (rooted r q child) present
  · rw [update_of_ne present, child]
  · exact childless r (gone ▸ child)

end Trees

section Ancestors

variable {C L K : Type*} [DecidableEq C] [DecidableEq L] [DecidableEq K] {m next : Machine C L K} {c : C}
  {action : Action L K} {p : Slot}

omit [DecidableEq C] [DecidableEq L] [DecidableEq K] in
theorem Family.descends (family : Family m) (rooted : Rooted initproc m.parent) (used : m.state p ≠ .unused)
    (born : m.state p ≠ .embryo) : ReflTransGen (IsChild m.parent) p initproc := by
  by_cases init : p = initproc
  · rw [init]
  · obtain ⟨q, child⟩ := family.child used born init
    exact rooted p q child

omit [DecidableEq C] [DecidableEq L] [DecidableEq K] in
theorem Rooted.exits (rooted : Rooted initproc m.parent) (exits : Exits m p next) : Rooted initproc next.parent :=
  rooted.orphans exits.parent

omit [DecidableEq C] in
theorem Rooted.turns (rooted : Rooted initproc m.parent) (family : Family m) (wf : Wf m) (turns : Turns m c action next) :
    Rooted initproc next.parent := by
  cases turns with
  | fork | fail | ready => exact rooted
  | @adopt p np _ runs here =>
      have alive := (wf.on_alive runs (by simp [here])).in_use
      exact rooted.leaf (family.stage (p := p) (by rw [here]; rfl)) (family.descends rooted alive.1 alive.2.1)
  | @exit p runs user other unlocked =>
      have locked : Rooted initproc { m with lock := update m.lock none (some c) }.parent := rooted
      dsimp only [Machine.goto]
      exact locked.exits (exit_exits other)
  | @reap p q _ runs here found =>
      refine rooted.remove fun r child => ?_
      exact (family.parent child).1.in_use.2.2 (zombieChild_some found).2

variable [Fintype L]

/-- In every state of every run, the parents of a process lead to `init`. They are alive, and the process is none of them. -/
theorem ancestors_lead_to_init {events : List (C × Action L K)} (reached : run step boot events = some m)
    (used : m.state p ≠ .unused) (born : m.state p ≠ .embryo) :
    ReflTransGen (IsChild m.parent) p initproc ∧ ∀ q, TransGen (IsChild m.parent) p q → m.alive q ∧ q ≠ p := by
  have rooted : Rooted initproc m.parent := by
    refine run_invariant_reached (fun _ m => Rooted initproc m.parent) ?_ ?_ events m along_true reached
    · intro p q child
      cases child
    · intro history state event next before rooted _ stepped
      have lawful := lawful_run before
      rcases quiet_or_turns (moves_of_step stepped) lawful.wf with quiet | turns
      · rw [quiet.parent]
        exact rooted
      · exact rooted.turns lawful.family lawful.wf turns
  have family := (lawful_run reached).family
  have descends := family.descends rooted used born
  refine ⟨descends, fun q ancestor => ⟨?_, ?_⟩⟩
  · obtain ⟨r, -, child⟩ := TransGen.tail'_iff.mp ancestor
    exact (family.parent child).1
  · rintro rfl
    exact no_cycle family.root descends ancestor

/-- The child of `init` creates a process and exits. -/
def childLeavesChild : List (Bool × Action Unit Unit) :=
  [(false, .go true), (false, .go true), (false, .go true), (false, .fork), (false, .go true), (false, .go true),
    (false, .go true), (false, .go true), (true, .go true), (true, .go true), (true, .go true), (true, .fork),
    (true, .go true), (true, .go true), (true, .go true), (true, .go true), (true, .exit)]

theorem two_lt_nproc : 2 < nproc := by decide

theorem ancestors_lead_to_init_orphan : ∃ m, run step boot childLeavesChild = some m ∧ m.state firstChild = .zombie ∧
    m.state ⟨2, two_lt_nproc⟩ = .runnable ∧ ReflTransGen (IsChild m.parent) ⟨2, two_lt_nproc⟩ initproc := by
  let m := (run step boot childLeavesChild).get (by decide +kernel)
  have reached : run step boot childLeavesChild = some m := (Option.some_get _).symm
  have zombie : m.state firstChild = .zombie := by decide +kernel
  have runnable : m.state ⟨2, two_lt_nproc⟩ = .runnable := by decide +kernel
  exact ⟨m, reached, zombie, runnable, (ancestors_lead_to_init reached (by simp [runnable]) (by simp [runnable])).1⟩

end Ancestors

end OsLabs.Proc
