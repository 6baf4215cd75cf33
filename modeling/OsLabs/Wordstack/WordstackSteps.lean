import OsLabs.Wordstack.WordstackCore

/-!
What one step of a process can do, and the balance of the two semaphores: each token
taken from one is, later, a row more or less and then a token posted to the other.
-/

namespace OsLabs.Wordstack

open OsLabs.Interleaving

variable {ι : Type*}

inductive Moves (i : ι) (s : Shared ι) : Pc → Shared ι → Pc → Prop
  | pushWait {word} (available : 0 < s.empty) :
      Moves i s (.pushWait word) { s with empty := s.empty - 1 } (.pushLock word)
  | pushLock {word} (unlocked : s.mutex = none) :
      Moves i s (.pushLock word) { s with mutex := some i } (.pushCopy word)
  | pushCopy {word} : Moves i s (.pushCopy word) (s.copyIn word) .pushItems
  | pushItems : Moves i s .pushItems { s with items := s.items + 1 } .pushFree
  | pushFree : Moves i s .pushFree { s with free := s.free + 1 } .pushUnlock
  | pushUnlock : Moves i s .pushUnlock { s with mutex := none } .pushPost
  | pushPost : Moves i s .pushPost { s with full := s.full + 1 } .pushDone
  | popRead : Moves i s .popRead s (.popWait s.free (wordIndexOf s.free))
  | popWait {read wordIndex} (available : 0 < s.full) :
      Moves i s (.popWait read wordIndex) { s with full := s.full - 1 } (.popLock read wordIndex)
  | popLock {read wordIndex} (unlocked : s.mutex = none) :
      Moves i s (.popLock read wordIndex) { s with mutex := some i } (.popCopy read wordIndex)
  | popCopy {read wordIndex} :
      Moves i s (.popCopy read wordIndex) (s.copyOut wordIndex).2 (.popItems (s.copyOut wordIndex).1)
  | popItems {word} : Moves i s (.popItems word) { s with items := s.items - 1 } (.popFree word)
  | popFree {word} : Moves i s (.popFree word) { s with free := s.free - 1 } (.popUnlock word)
  | popUnlock {word} : Moves i s (.popUnlock word) { s with mutex := none } (.popPost word)
  | popPost {word} : Moves i s (.popPost word) { s with empty := s.empty + 1 } (.popDone word)

theorem semWaitEmpty_eq_some {s next : Shared ι} :
    s.semWaitEmpty = some next ↔ 0 < s.empty ∧ { s with empty := s.empty - 1 } = next := by
  simp [Shared.semWaitEmpty]

theorem semWaitFull_eq_some {s next : Shared ι} :
    s.semWaitFull = some next ↔ 0 < s.full ∧ { s with full := s.full - 1 } = next := by
  simp [Shared.semWaitFull]

theorem mutexLock_eq_some {s next : Shared ι} {i : ι} :
    s.mutexLock i = some next ↔ s.mutex = none ∧ { s with mutex := some i } = next := by
  simp [Shared.mutexLock]

theorem program_moves {i : ι} {s next : Shared ι} {pc pc' : Pc}
    (moved : program i s pc = some (next, pc')) : Moves i s pc next pc' := by
  cases pc <;>
    simp only [program, Option.map_eq_some_iff, semWaitEmpty_eq_some, semWaitFull_eq_some,
      mutexLock_eq_some, Option.some.injEq, Prod.mk.injEq, reduceCtorEq] at moved
  case pushWait | popWait =>
    obtain ⟨_, ⟨available, rfl⟩, rfl, rfl⟩ := moved
    constructor
    exact available
  case pushLock | popLock =>
    obtain ⟨_, ⟨unlocked, rfl⟩, rfl, rfl⟩ := moved
    constructor
    exact unlocked
  all_goals
    obtain ⟨rfl, rfl⟩ := moved
    constructor

def Pc.fullDebt : Pc → Int
  | .pushUnlock | .pushPost => 1
  | .popLock _ _ | .popCopy _ _ | .popItems _ | .popFree _ => 1
  | _ => 0

def Pc.emptyDebt : Pc → Int
  | .pushLock _ | .pushCopy _ | .pushItems | .pushFree => 1
  | .popUnlock _ | .popPost _ => 1
  | _ => 0

def Pc.itemsLead : Pc → Int
  | .pushFree => 1
  | .popFree _ => -1
  | _ => 0

def Pc.freeShare : Pc → Int
  | .pushUnlock | .pushPost | .pushDone => 1
  | .popUnlock _ | .popPost _ | .popDone _ => -1
  | _ => 0

def Pc.critical : Pc → Bool
  | .pushCopy _ | .pushItems | .pushFree | .pushUnlock => true
  | .popCopy _ _ | .popItems _ | .popFree _ | .popUnlock _ => true
  | _ => false

theorem fullDebt_nonneg (pc : Pc) : 0 ≤ pc.fullDebt := by
  cases pc <;> simp [Pc.fullDebt]

theorem emptyDebt_nonneg (pc : Pc) : 0 ≤ pc.emptyDebt := by
  cases pc <;> simp [Pc.emptyDebt]

theorem fullDebt_balanced :
    Balanced program (fun s : Shared ι => s.free - s.full) Pc.fullDebt := by
  intro i s pc next pc' moved
  cases program_moves moved <;> simp only [Pc.fullDebt, Shared.copyIn, Shared.copyOut] <;> omega

theorem emptyDebt_balanced :
    Balanced program (fun s : Shared ι => maxItems - s.free - s.empty) Pc.emptyDebt := by
  intro i s pc next pc' moved
  cases program_moves moved <;> simp only [Pc.emptyDebt, Shared.copyIn, Shared.copyOut] <;> omega

theorem itemsLead_balanced :
    Balanced program (fun s : Shared ι => s.items - s.free) Pc.itemsLead := by
  intro i s pc next pc' moved
  cases program_moves moved <;> simp only [Pc.itemsLead, Shared.copyIn, Shared.copyOut] <;> omega

theorem freeShare_balanced : Balanced program (fun s : Shared ι => s.free) Pc.freeShare := by
  intro i s pc next pc' moved
  cases program_moves moved <;> simp only [Pc.freeShare, Shared.copyIn, Shared.copyOut] <;> omega

theorem mutex_guards : Guards program Pc.critical (Shared.mutex (ι := ι)) where
  enter moved outside inside := by
    cases program_moves moved <;> simp_all [Pc.critical]
  leave moved inside outside := by
    cases program_moves moved <;> simp_all [Pc.critical]
  keep moved same := by
    cases program_moves moved <;> simp_all [Pc.critical, Shared.copyIn, Shared.copyOut]

abbrev Guarded (s : State ι) : Prop := Exclusive Pc.critical Shared.mutex s

section Runs

variable [DecidableEq ι] {commands : ι → Command} {schedule : List ι} {s : State ι}

theorem start_weightless {weight : Pc → Int} (palabra : ∀ word, weight (.pushWait word) = 0)
    (read : weight .popRead = 0) (command : Command) : weight command.start = 0 := by
  cases command with
  | w word => exact palabra word
  | r => exact read

theorem run_guarded (reached : Runs.run step (initial commands) schedule = some s) : Guarded s := by
  refine run_exclusive mutex_guards ?_ reached
  intro i
  cases command : commands i <;> simp [initial, created, Command.start, Pc.critical, command]

theorem run_balance [Fintype ι] {value : Shared ι → Int} {weight : Pc → Int}
    (balanced : Balanced program value weight) (palabra : ∀ word, weight (.pushWait word) = 0)
    (read : weight .popRead = 0) (reached : Runs.run step (initial commands) schedule = some s) :
    value s.shared = value created + tally weight s.place := by
  have conserved := run_conserved balanced reached
  have zero : tally weight (initial commands).place = 0 :=
    tally_eq_zero fun i => start_weightless palabra read (commands i)
  rw [zero] at conserved
  simp only [initial] at conserved
  omega

structure Counted [Fintype ι] (s : State ι) : Prop where
  full : s.shared.free = s.shared.full + tally Pc.fullDebt s.place
  empty : s.shared.free + s.shared.empty + tally Pc.emptyDebt s.place = maxItems
  items : s.shared.items = s.shared.free + tally Pc.itemsLead s.place
  share : s.shared.free = tally Pc.freeShare s.place

theorem run_counted [Fintype ι] (reached : Runs.run step (initial commands) schedule = some s) :
    Counted s := by
  have full := run_balance fullDebt_balanced (fun _ => rfl) rfl reached
  have empty := run_balance emptyDebt_balanced (fun _ => rfl) rfl reached
  have items := run_balance itemsLead_balanced (fun _ => rfl) rfl reached
  have share := run_balance freeShare_balanced (fun _ => rfl) rfl reached
  simp only [created] at full empty items share
  exact ⟨by omega, by omega, by omega, by omega⟩

end Runs

end OsLabs.Wordstack
