import OsLabs.Log.LogSteps

/-!
The locks of the blocks: a process holds the lock of every block in its registers, and no
step of another process takes it away. The buffers in use or logged are never more than `NBUF`.
-/

namespace OsLabs.Log

open Function

variable {ι : Type*} {area : Area} {p : ι} {s next : Shared ι} {proc proc' : Proc} {action : Action}

inductive LockMove (p : ι) (holder : Nat → Option ι) (regs : Regs) : (Nat → Option ι) → Regs → Prop
  | keep : LockMove p holder regs holder regs
  | take {r block} (unlocked : holder block = none) :
      LockMove p holder regs (update holder block (some p))
        (update regs r (some block))
  | give {r block} (holds : regs r = some block) :
      LockMove p holder regs (update holder block none) (update regs r none)

theorem locked_move {regs : Regs} {instr : Instr} {locked : Shared ι} {state : Store × Regs}
    {more : List Instr} (lock : s.locked area p regs instr = some locked)
    (executed : exec area instr (locked.store, regs) = some (state, more)) :
    LockMove p s.holder regs locked.holder state.2 := by
  cases instr with
  | bread r place =>
      simp only [Shared.locked, Option.bind_eq_some_iff, bget_eq_some] at lock
      obtain ⟨block, named, ⟨-, unlocked⟩, rfl⟩ := lock
      simp only [exec, Shared.take, named, Option.map_some, Option.some.injEq, Prod.mk.injEq] at executed
      rw [← executed.1]
      exact .take unlocked
  | brelse r =>
      simp only [Shared.locked, Option.map_eq_some_iff] at lock
      obtain ⟨block, holds, rfl⟩ := lock
      simp only [exec, Option.some.injEq, Prod.mk.injEq] at executed
      rw [← executed.1]
      exact .give holds
  | writeLog tail | installTrans tail =>
      simp only [exec] at executed
      split at executed <;> simp only [Option.some.injEq, Prod.mk.injEq] at executed <;>
        rw [← Option.some.inj lock, ← executed.1] <;> exact .keep
  | copy target source =>
      simp only [exec, Option.bind_eq_some_iff, Option.map_eq_some_iff, Prod.mk.injEq] at executed
      obtain ⟨_, _, _, _, same, _⟩ := executed
      rw [← Option.some.inj lock, ← same]
      exact .keep
  | bwrite r | bwriteHead r =>
      simp only [Shared.locked, Option.map_eq_some_iff] at lock
      obtain ⟨block, _, rfl⟩ := lock
      simp only [exec, Option.map_eq_some_iff, Prod.mk.injEq] at executed
      obtain ⟨_, _, same, _⟩ := executed
      rw [← same]
      exact .keep
  | putHead r | loadHead r =>
      simp only [exec, Option.map_eq_some_iff, Prod.mk.injEq] at executed
      obtain ⟨_, _, same, _⟩ := executed
      rw [← Option.some.inj lock, ← same]
      exact .keep
  | writeHead | clearHead | endCommit | endBoot =>
      simp only [exec, Option.some.injEq, Prod.mk.injEq] at executed
      rw [← Option.some.inj lock, ← executed.1]
      exact .keep

theorem moves_locks (moves : Moves area p s proc action next proc') :
    LockMove p s.holder proc.regs next.holder proc'.regs := by
  cases moves with
  | bread _ _ unlocked => exact .take unlocked
  | brelse _ holds => exact .give holds
  | instr _ _ lock executed =>
      have moved := locked_move lock executed
      exact moved
  | _ => exact .keep

structure Limited (s : Shared ι) : Prop where
  few : (s.buffers.referenced ∪ s.buffers.dirty).card ≤ nbuf
  taken : ∀ block q, s.holder block = some q → block ∈ s.buffers.referenced

section Limited

variable {block : Nat} (limited : Limited s)

include limited

theorem Limited.store (store : Store) : Limited { s with store } := ⟨limited.few, limited.taken⟩

theorem Limited.take (found : s.buffers.Finds block) : Limited (s.take p block) := by
  refine ⟨?_, ?_⟩
  · rw [Shared.take, Finset.insert_union]
    rcases found with present | room
    · rw [Finset.insert_eq_of_mem present]
      exact limited.few
    · exact (Finset.card_insert_le _ _).trans room
  · intro other q owned
    simp only [Shared.take, update_apply] at owned
    split at owned
    next same => exact same ▸ Finset.mem_insert_self _ _
    next => exact Finset.mem_insert_of_mem (limited.taken other q owned)

theorem Limited.brelse : Limited (s.brelse block) := by
  refine ⟨?_, ?_⟩
  · refine (Finset.card_le_card ?_).trans limited.few
    exact Finset.union_subset_union_left (Finset.erase_subset _ _)
  · intro other q owned
    simp only [Shared.brelse, Shared.release, update_apply] at owned
    split at owned
    next => simp at owned
    next different => exact Finset.mem_erase.mpr ⟨different, limited.taken other q owned⟩

theorem Limited.pin {q : ι} (owned : s.holder block = some q) : Limited (s.pin block) := by
  refine ⟨?_, limited.taken⟩
  have present : block ∈ s.buffers.referenced ∪ s.buffers.dirty :=
    Finset.mem_union_left _ (limited.taken block q owned)
  rw [Shared.pin, Finset.union_insert, Finset.insert_eq_of_mem present]
  exact limited.few

theorem Limited.unpin : Limited (s.unpin block) :=
  ⟨(Finset.card_le_card (Finset.union_subset_union_right (Finset.erase_subset _ _))).trans limited.few,
    limited.taken⟩

theorem Limited.locked {regs : Regs} {instr : Instr} {next : Shared ι}
    (lock : s.locked area p regs instr = some next) : Limited next := by
  cases instr with
  | bread r place =>
      simp only [Shared.locked, Option.bind_eq_some_iff, bget_eq_some] at lock
      obtain ⟨block, named, ⟨found, -⟩, rfl⟩ := lock
      exact limited.take found
  | brelse r =>
      obtain ⟨block, -, rfl⟩ := Option.map_eq_some_iff.mp lock
      exact limited.brelse
  | bwrite r | bwriteHead r =>
      obtain ⟨block, -, rfl⟩ := Option.map_eq_some_iff.mp lock
      exact limited.unpin
  | _ =>
      rw [← Option.some.inj lock]
      exact limited

theorem Limited.moves
    (logging : ∀ block, proc.appending = some block → ∃ q, s.holder block = some q)
    (moves : Moves area p s proc action next proc') : Limited next := by
  cases moves with
  | bread _ found => exact limited.take found
  | brelse => exact limited.brelse
  | append passed =>
      obtain ⟨q, owned⟩ := logging _ passed
      exact (limited.pin owned).store _
  | instr _ _ lock => exact (limited.locked lock).store _
  | logWrite => exact limited
  | _ => exact limited.store _

end Limited

structure Held (holder : Nat → Option ι) (regs : ι → Regs) : Prop where
  locked : ∀ q r block, regs q r = some block → holder block = some q
  single : ∀ q r r' block, regs q r = some block → regs q r' = some block → r = r'

variable {holder : Nat → Option ι} {regs : ι → Regs}

theorem LockMove.kept {holder' : Nat → Option ι} {regs' : Regs} {q : ι} {block : Nat}
    (held : Held holder regs) (move : LockMove p holder (regs p) holder' regs') (other : q ≠ p)
    (owned : holder block = some q) : holder' block = some q := by
  cases move with
  | keep => exact owned
  | take unlocked =>
      rw [update_of_ne, owned]
      rintro rfl
      simp [unlocked] at owned
  | give holds =>
      rw [update_of_ne, owned]
      rintro rfl
      rw [held.locked p _ _ holds, Option.some.injEq] at owned
      exact other owned.symm

variable [DecidableEq ι]

theorem Held.take {r block : Nat} (held : Held holder regs) (unlocked : holder block = none) :
    Held (update holder block (some p))
      (update regs p (update (regs p) r (some block))) := by
  have elsewhere : ∀ {q r' other}, regs q r' = some other → other ≠ block := by
    rintro q r' other named rfl
    simp [held.locked q r' other named] at unlocked
  constructor
  · intro q r' other named
    by_cases self : q = p
    · subst self
      rw [update_self, update_apply] at named
      split at named
      next =>
        rw [Option.some.injEq] at named
        rw [← named, update_self]
      next =>
        rw [update_of_ne (elsewhere named)]
        exact held.locked q r' other named
    · rw [update_of_ne self] at named
      rw [update_of_ne (elsewhere named)]
      exact held.locked q r' other named
  · intro q r' r'' other first second
    by_cases self : q = p
    · subst self
      rw [update_self, update_apply] at first second
      split at first <;> split at second
      next one two => exact one.trans two.symm
      next =>
        rw [Option.some.injEq] at first
        exact absurd first.symm (elsewhere second)
      next =>
        rw [Option.some.injEq] at second
        exact absurd second.symm (elsewhere first)
      next => exact held.single q r' r'' other first second
    · rw [update_of_ne self] at first second
      exact held.single q r' r'' other first second

theorem Held.give {r block : Nat} (held : Held holder regs) (holds : regs p r = some block) :
    Held (update holder block none)
      (update regs p (update (regs p) r none)) := by
  have kept : ∀ {q r' other}, update regs p (update (regs p) r none) q r' =
      some other → regs q r' = some other ∧ other ≠ block := by
    intro q r' other named
    by_cases self : q = p
    · subst self
      rw [update_self, update_apply] at named
      split at named
      next => simp at named
      next different =>
        refine ⟨named, ?_⟩
        rintro rfl
        exact different (held.single q r' r other named holds)
    · rw [update_of_ne self] at named
      refine ⟨named, ?_⟩
      rintro rfl
      have owner := held.locked q r' other named
      rw [held.locked p r other holds, Option.some.injEq] at owner
      exact self owner.symm
  constructor
  · intro q r' other named
    obtain ⟨before, different⟩ := kept named
    rw [update_of_ne different]
    exact held.locked q r' other before
  · intro q r' r'' other first second
    exact held.single q r' r'' other (kept first).1 (kept second).1

theorem Held.move {holder' : Nat → Option ι} {regs' : Regs} (held : Held holder regs)
    (move : LockMove p holder (regs p) holder' regs') :
    Held holder' (update regs p regs') := by
  cases move with
  | keep =>
      rw [update_eq_self]
      exact held
  | take unlocked => exact held.take unlocked
  | give holds => exact held.give holds

end OsLabs.Log
