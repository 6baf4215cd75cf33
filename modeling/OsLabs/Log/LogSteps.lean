import OsLabs.Log.LogCore

/-!
What one step of a process can do, and the rule that operations keep: they modify blocks
between `begin_op` and `end_op`, and pass every block they modified to `log_write`.
-/

namespace OsLabs.Log

open Function OsLabs.Interleaving

variable {ι : Type*}

structure Ready (s : Shared ι) (proc : Proc) : Prop where
  appending : proc.appending = none
  script : proc.script = []
  booted : s.store.booted = true

def Shared.take (s : Shared ι) (p : ι) (block : Nat) : Shared ι :=
  { s with
    holder := update s.holder block (some p)
    buffers := { s.buffers with referenced := insert block s.buffers.referenced } }

inductive Moves (area : Area) (p : ι) (s : Shared ι) (proc : Proc) :
    Action → Shared ι → Proc → Prop
  | bread {r block} (ready : Ready s proc) (found : s.buffers.Finds block)
      (unlocked : s.holder block = none) :
      Moves area p s proc (.call (.bread r block)) (s.take p block)
        { proc with regs := update proc.regs r (some block) }
  | modify {r block data} (ready : Ready s proc) (holds : proc.regs r = some block) :
      Moves area p s proc (.call (.modify r data))
        { s with
          store :=
            { s.store with
              view := update s.store.view block data
              unsaved := insert block s.store.unsaved } } proc
  | logWrite {r block} (ready : Ready s proc) (holds : proc.regs r = some block)
      (room : ¬s.store.TooBig area) (inside : 1 ≤ s.store.outstanding) :
      Moves area p s proc (.call (.logWrite r)) s { proc with appending := some block }
  | brelse {r block} (ready : Ready s proc) (holds : proc.regs r = some block) :
      Moves area p s proc (.call (.brelse r)) (s.brelse block)
        { proc with regs := update proc.regs r none }
  | beginOp (ready : Ready s proc) (idle : s.store.committing = false)
      (reserved : s.store.lh.length + (s.store.outstanding + 1) * maxOpBlocks ≤ logSize) :
      Moves area p s proc (.call .beginOp)
        { s with store := { s.store with outstanding := s.store.outstanding + 1 } }
        { proc with inOp := true, written := [] }
  | endOp (ready : Ready s proc) (idle : s.store.committing = false)
      (others : s.store.outstanding - 1 ≠ 0) :
      Moves area p s proc (.call .endOp)
        { s with store := { s.store with outstanding := s.store.outstanding - 1 } }
        { proc with inOp := false, script := [] }
  | commit (ready : Ready s proc) (idle : s.store.committing = false)
      (last : s.store.outstanding - 1 = 0) :
      Moves area p s proc (.call .endOp)
        { s with store := { s.store with outstanding := 0, committing := true } }
        { proc with inOp := false, script := commit s.store.lh }
  | append {block store} (passed : proc.appending = some block)
      (appended : s.store.logAppend block = some store) :
      Moves area p s proc .go { s.pin block with store }
        { proc with appending := none, written := proc.written.insert block }
  | instr {instr rest locked next more} (ready : proc.appending = none)
      (script : proc.script = instr :: rest)
      (lock : s.locked area p proc.regs instr = some locked)
      (executed : exec area instr (locked.store, proc.regs) = some (next, more)) :
      Moves area p s proc .go { locked with store := next.1 }
        { proc with regs := next.2, script := more ++ rest }

theorem bget_eq_some {s next : Shared ι} {p : ι} {block : Nat} :
    s.bget p block = some next ↔
      (s.buffers.Finds block ∧ s.holder block = none) ∧ s.take p block = next := by
  by_cases found : s.buffers.Finds block <;> simp [Shared.bget, Shared.acquire, Shared.take, found]

theorem beginOp_eq_some {s next : Store} :
    s.beginOp = some next ↔
      (s.committing = false ∧ s.lh.length + (s.outstanding + 1) * maxOpBlocks ≤ logSize) ∧
        { s with outstanding := s.outstanding + 1 } = next := by
  simp [Store.beginOp]

theorem logAppend_eq_some {s next : Store} {block : Nat} (appended : s.logAppend block = some next) :
    ∃ lh, next =
        { s with
          lh
          unsaved := s.unsaved.erase block
          pending := s.pending ++ [(block, s.view block)] } ∧
      (block ∈ s.lh ∧ lh = s.lh ∨
        block ∉ s.lh ∧ s.lh.length < logSize ∧ lh = s.lh ++ [block]) := by
  rw [Store.logAppend] at appended
  split at appended
  next present => exact ⟨s.lh, (Option.some.inj appended).symm, Or.inl ⟨present, rfl⟩⟩
  next absent =>
    obtain ⟨room, same⟩ := Option.ite_none_right_eq_some.mp appended
    exact ⟨s.lh ++ [block], (Option.some.inj same).symm, Or.inr ⟨absent, room, rfl⟩⟩

theorem call_moves {area : Area} {p : ι} {s next : Shared ι} {proc proc' : Proc} {c : Call}
    (moved : program area (.call c) p s proc = some (next, proc')) :
    Moves area p s proc (.call c) next proc' := by
  unfold program at moved
  dsimp only at moved
  split at moved
  next => simp at moved
  next waiting =>
    simp only [not_or, ne_eq, not_not, Bool.not_eq_false, Option.not_isSome_iff_eq_none] at waiting
    have ready : Ready s proc := ⟨waiting.1, waiting.2.1, waiting.2.2⟩
    cases c <;> simp only [Option.map_eq_some_iff, Option.bind_eq_some_iff, bget_eq_some,
      beginOp_eq_some, Prod.mk.injEq] at moved
    case bread r block =>
      obtain ⟨_, ⟨⟨found, unlocked⟩, rfl⟩, rfl, rfl⟩ := moved
      exact .bread ready found unlocked
    case modify r data =>
      obtain ⟨block, holds, rfl, rfl⟩ := moved
      exact .modify ready holds
    case logWrite r =>
      obtain ⟨block, holds, tested⟩ := moved
      simp only [Option.ite_none_left_eq_some, Option.some.injEq, Prod.mk.injEq, not_or, not_lt]
        at tested
      obtain ⟨⟨room, inside⟩, rfl, rfl⟩ := tested
      exact .logWrite ready holds room inside
    case brelse r =>
      obtain ⟨block, holds, rfl, rfl⟩ := moved
      exact .brelse ready holds
    case beginOp =>
      obtain ⟨_, ⟨⟨idle, reserved⟩, rfl⟩, rfl, rfl⟩ := moved
      exact .beginOp ready idle reserved
    case endOp =>
      obtain ⟨⟨store, last⟩, ended, rfl, rfl⟩ := moved
      rw [Store.endOp] at ended
      split at ended
      next => simp at ended
      next idle =>
        simp only [Bool.not_eq_true] at idle
        split at ended
        next zero =>
          simp only [Option.some.injEq, Prod.mk.injEq] at ended
          obtain ⟨rfl, rfl⟩ := ended
          exact .commit ready idle zero
        next others =>
          simp only [Option.some.injEq, Prod.mk.injEq] at ended
          obtain ⟨rfl, rfl⟩ := ended
          exact .endOp ready idle others

theorem go_moves {area : Area} {p : ι} {s next : Shared ι} {proc proc' : Proc}
    (moved : program area .go p s proc = some (next, proc')) :
    Moves area p s proc .go next proc' := by
  rw [program] at moved
  split at moved
  next block _ passed =>
    simp only [Option.map_eq_some_iff, Prod.mk.injEq] at moved
    obtain ⟨store, appended, rfl, rfl⟩ := moved
    exact .append passed appended
  next => simp at moved
  next instr rest ready script =>
    simp only [Option.bind_eq_some_iff, Option.map_eq_some_iff, Prod.mk.injEq] at moved
    obtain ⟨locked, lock, ⟨next, more⟩, executed, rfl, rfl⟩ := moved
    exact .instr ready script lock executed

def Action.event (p : ι) : Action → Event ι
  | .call c => .call p c
  | .go => .go p

theorem step_cases [DecidableEq ι] {area : Area} {s next : State ι} {event : Event ι}
    (stepped : step area s event = some next) :
    (∃ p, event = .crash p ∧ next = boot s.shared.store.disk s.shared.store.committed p) ∨
      ∃ p action shared proc, event = Action.event p action ∧
        Moves area p s.shared (s.place p) action shared proc ∧
        next = ⟨shared, update s.place p proc⟩ := by
  cases event with
  | crash p => exact Or.inl ⟨p, rfl, (Option.some.inj stepped).symm⟩
  | call p c =>
      obtain ⟨shared, proc, moved, same⟩ := act_eq_some.mp stepped
      exact Or.inr ⟨p, .call c, shared, proc, rfl, call_moves moved, same⟩
  | go p =>
      obtain ⟨shared, proc, moved, same⟩ := act_eq_some.mp stepped
      exact Or.inr ⟨p, .go, shared, proc, rfl, go_moves moved, same⟩

theorem locked_store {area : Area} {p : ι} {s locked : Shared ι} {regs : Regs} {instr : Instr}
    (lock : s.locked area p regs instr = some locked) : locked.store = s.store := by
  cases instr with
  | bread r place =>
      simp only [Shared.locked, Option.bind_eq_some_iff, bget_eq_some] at lock
      obtain ⟨block, named, -, rfl⟩ := lock
      rfl
  | brelse r | bwrite r | bwriteHead r =>
      simp only [Shared.locked, Option.map_eq_some_iff] at lock
      obtain ⟨block, holds, rfl⟩ := lock
      rfl
  | _ => rw [Option.some.inj lock]

theorem exec_frame {area : Area} {instr : Instr} {store : Store} {regs : Regs} {state : Store × Regs}
    {more : List Instr} (executed : exec area instr (store, regs) = some (state, more)) :
    state.1.outstanding = store.outstanding ∧ state.1.unsaved = store.unsaved := by
  cases instr with
  | writeLog tail | installTrans tail =>
      simp only [exec] at executed
      split at executed <;> simp only [Option.some.injEq, Prod.mk.injEq] at executed <;>
        rw [← executed.1] <;> exact ⟨rfl, rfl⟩
  | bread r place | bwrite r | putHead r | loadHead r =>
      simp only [exec, Option.map_eq_some_iff, Prod.mk.injEq] at executed
      obtain ⟨_, _, rfl, _⟩ := executed
      exact ⟨rfl, rfl⟩
  | copy target source =>
      simp only [exec, Option.bind_eq_some_iff, Option.map_eq_some_iff, Prod.mk.injEq] at executed
      obtain ⟨_, _, _, _, rfl, _⟩ := executed
      exact ⟨rfl, rfl⟩
  | bwriteHead r =>
      simp only [exec, Option.map_eq_some_iff, Prod.mk.injEq] at executed
      obtain ⟨_, _, rfl, _⟩ := executed
      rw [Store.commitPoint]
      split <;> exact ⟨rfl, rfl⟩
  | brelse r | writeHead | clearHead | endCommit | endBoot =>
      simp only [exec, Option.some.injEq, Prod.mk.injEq] at executed
      rw [← executed.1]
      exact ⟨rfl, rfl⟩

def inside (proc : Proc) : Int := if proc.inOp then 1 else 0

theorem inside_nonneg (proc : Proc) : 0 ≤ inside proc := by
  rw [inside]
  split <;> omega

/-- Operations lie between `begin_op` and `end_op`, and blocks are logged inside them. -/
def Nested (s : State ι) : Event ι → Prop
  | .call p (.logWrite _) | .call p .endOp => (s.place p).inOp = true
  | .call p .beginOp => (s.place p).inOp = false
  | _ => True

/-- Home blocks are modified inside operations and logged before they are released. -/
def Saved (area : Area) (s : State ι) : Event ι → Prop
  | .call p (.modify r _) =>
      (s.place p).inOp = true ∧ ∀ block, (s.place p).regs r = some block → area.Home block
  | .call p (.logWrite r) => ∀ block, (s.place p).regs r = some block → area.Home block
  | .call p (.brelse r) =>
      ∀ block, (s.place p).regs r = some block → block ∉ s.shared.store.unsaved
  | .call p .endOp => ∀ block ∈ s.shared.store.unsaved, s.shared.holder block ≠ some p
  | _ => True

def Bracketed (area : Area) (s : State ι) (event : Event ι) : Prop :=
  Nested s event ∧ Saved area s event

theorem count_step [DecidableEq ι] [Fintype ι] {area : Area} {s : State ι} {p : ι} {action : Action}
    {next : Shared ι} {proc : Proc} (count : (s.shared.store.outstanding : Int) = tally inside s.place)
    (moves : Moves area p s.shared (s.place p) action next proc)
    (nested : Nested s (action.event p)) :
    (next.store.outstanding : Int) = tally inside (update s.place p proc) := by
  have mine := le_tally inside_nonneg s.place p
  rw [tally_update]
  have within : ∀ {other : Proc}, other.inOp = true → inside other = 1 := fun inOp => by
    simp [inside, inOp]
  have without : ∀ {other : Proc}, other.inOp = false → inside other = 0 := fun inOp => by
    simp [inside, inOp]
  cases moves with
  | bread | modify | logWrite | brelse => exact count.trans (sub_add_cancel _ _).symm
  | beginOp =>
      rw [without nested, within rfl]
      push_cast
      omega
  | endOp ready idle others | commit ready idle last =>
      rw [within nested] at mine ⊢
      rw [without rfl]
      dsimp only
      omega
  | append passed appended =>
      obtain ⟨lh, rfl, _⟩ := logAppend_eq_some appended
      exact count.trans (sub_add_cancel _ _).symm
  | instr ready script lock executed =>
      dsimp only
      rw [(exec_frame executed).1, locked_store lock]
      exact count.trans (sub_add_cancel _ _).symm

theorem alone_of_last [DecidableEq ι] [Fintype ι] {s : State ι} {p q : ι}
    (count : (s.shared.store.outstanding : Int) = tally inside s.place)
    (mine : (s.place p).inOp = true) (last : s.shared.store.outstanding - 1 = 0) (other : q ≠ p) :
    (s.place q).inOp = false := by
  have here : inside (s.place p) = 1 := by simp [inside, mine]
  have none : inside Proc.fresh = 0 := rfl
  have left := tally_update inside s.place p Proc.fresh
  have there := le_tally inside_nonneg (update s.place p Proc.fresh) q
  rw [update_of_ne other, left, inside] at there
  split at there
  next => omega
  next outside => simpa using outside

section Places

variable [DecidableEq ι] {s : State ι} {p runner : ι} {moved : Proc}

theorem all_quiet (empty : moved.script = []) (others : ∀ q, q ≠ p → (s.place q).script = []) :
    ∀ q, (update s.place p moved q).script = [] :=
  (forall_update_iff s.place fun _ other => other.script = []).mpr ⟨empty, others⟩

theorem others_quiet (others : ∀ q, q ≠ p → (s.place q).script = []) (q : ι) (other : q ≠ p) :
    (update s.place p moved q).script = [] :=
  (congrArg Proc.script (update_of_ne other _ _)).trans (others q other)

theorem all_outside (out : moved.inOp = false) (others : ∀ q, q ≠ p → (s.place q).inOp = false) :
    ∀ q, (update s.place p moved q).inOp = false :=
  (forall_update_iff s.place fun _ other => other.inOp = false).mpr ⟨out, others⟩

theorem asleep (others : ∀ q, q ≠ runner → (s.place q).script = [])
    (outside : ∀ q, (s.place q).inOp = false) (empty : moved.script = []) (out : moved.inOp = false) :
    (∀ q, q ≠ runner → (update s.place p moved q).script = []) ∧
      ∀ q, (update s.place p moved q).inOp = false :=
  ⟨(forall_update_iff s.place fun q other => q ≠ runner → other.script = []).mpr
      ⟨fun _ => empty, fun q _ => others q⟩,
    all_outside out fun q _ => outside q⟩

end Places

instance decidableOnSome {α : Type*} (value : Option α) (property : α → Prop) [DecidablePred property] :
    Decidable (∀ a, value = some a → property a) :=
  match value with
  | none => isTrue (by simp)
  | some a => decidable_of_iff (property a) (by simp)

instance (s : State ι) : DecidablePred (Nested s)
  | .call _ (.logWrite _) | .call _ .endOp | .call _ .beginOp => inferInstanceAs (Decidable (_ = _))
  | .call _ (.modify _ _) | .call _ (.brelse _) | .call _ (.bread _ _) | .go _ | .crash _ =>
      inferInstanceAs (Decidable True)

instance [DecidableEq ι] (area : Area) (s : State ι) : DecidablePred (Saved area s)
  | .call _ (.modify _ _) => inferInstanceAs (Decidable (_ ∧ _))
  | .call _ (.logWrite _) | .call _ (.brelse _) => inferInstanceAs (Decidable (∀ _, _ → _))
  | .call _ .endOp => inferInstanceAs (Decidable (∀ _ ∈ _, _))
  | .call _ .beginOp | .call _ (.bread _ _) | .go _ | .crash _ => inferInstanceAs (Decidable True)

instance [DecidableEq ι] (area : Area) (s : State ι) : DecidablePred (Bracketed area s) :=
  fun _ => inferInstanceAs (Decidable (_ ∧ _))

def blank : Nat → Block := fun _ _ => 0

/-- An operation's update of one block: `bread`, the change, `log_write` and `brelse`. -/
def updateBlock (p : ι) (block : Nat) : List (Event ι) :=
  [.call p (.bread 0 block), .call p (.modify 0 fun _ => 1), .call p (.logWrite 0), .go p,
    .call p (.brelse 0)]

end OsLabs.Log
