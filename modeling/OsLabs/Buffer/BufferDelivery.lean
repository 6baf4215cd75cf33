import Mathlib.Algebra.BigOperators.Group.Finset.Basic
import OsLabs.Buffer.BufferCore

/-!
Exact delivery. Each semaphore counts the distance between the two loops, so that the
items stored and not yet read always fit in the buffer, each in its own slot.
-/

namespace OsLabs.Buffer

open Function OsLabs.Interleaving

def Pc.llenoShare : Pc → Int
  | .prodWait i | .prodLock i | .prodStore i | .prodUnlock i | .prodPost i => i
  | .consWait i => -i
  | .consLock i | .consRead i | .consUnlock i | .consPost i => -(i + 1)
  | _ => 0

def Pc.vacioShare : Pc → Int
  | .prodWait i => -i
  | .prodLock i | .prodStore i | .prodUnlock i | .prodPost i => -(i + 1)
  | .consWait i | .consLock i | .consRead i | .consUnlock i | .consPost i => i
  | _ => 0

def Pc.stored : Pc → Nat
  | .prodWait i | .prodLock i | .prodStore i => i
  | .prodUnlock i | .prodPost i => i + 1
  | _ => 0

def Pc.read : Pc → Nat
  | .consWait i | .consLock i | .consRead i => i
  | .consUnlock i | .consPost i => i + 1
  | _ => 0

def itemsStored (s : State) : Nat := (s.place .producer).stored

def itemsRead (s : State) : Nat := (s.place .consumer).read

theorem llenoShare_balanced (params : Params) :
    Balanced (program params) (fun s => s.lleno) Pc.llenoShare := by
  intro thread s pc next pc' moved
  cases program_moves moved <;> simp only [Pc.llenoShare, Shared.create, Shared.destroy] <;> omega

theorem vacioShare_balanced (params : Params) :
    Balanced (program params) (fun s => s.vacio) Pc.vacioShare := by
  intro thread s pc next pc' moved
  cases program_moves moved <;> simp only [Pc.vacioShare, Shared.create, Shared.destroy] <;> omega

theorem tally_threads (weight : Pc → Int) (place : Thread → Pc) :
    tally weight place =
      weight (place .main) + (weight (place .producer) + weight (place .consumer)) := by
  have apart : (.main : Thread) ∉ ({.producer, .consumer} : Finset Thread) := by decide
  have different : (.producer : Thread) ∉ ({.consumer} : Finset Thread) := by decide
  change ∑ thread ∈ {.main, .producer, .consumer}, weight (place thread) = _
  rw [Finset.sum_insert apart, Finset.sum_insert different, Finset.sum_singleton]

theorem start_share (thread : Thread) :
    (start thread).llenoShare = 0 ∧ (start thread).vacioShare = 0 := by
  cases thread <;> exact ⟨rfl, rfl⟩

theorem main_share {pc : Pc} (owned : pc.owner = .main) : pc.llenoShare = 0 ∧ pc.vacioShare = 0 := by
  cases pc <;> simp_all [Pc.owner, Pc.llenoShare, Pc.vacioShare]

theorem producer_share {pc : Pc} (owned : pc.owner = .producer) :
    pc.llenoShare ≤ pc.stored ∧ (pc.stored : Int) ≤ -pc.vacioShare := by
  cases pc <;> simp_all [Pc.owner, Pc.llenoShare, Pc.vacioShare, Pc.stored]

theorem consumer_share {pc : Pc} (owned : pc.owner = .consumer) :
    pc.vacioShare ≤ pc.read ∧ (pc.read : Int) ≤ -pc.llenoShare := by
  cases pc <;> simp_all [Pc.owner, Pc.llenoShare, Pc.vacioShare, Pc.read]

section Runs

variable {params : Params} {sinIniciar : (Nat → Int) × (Nat → Int)} {schedule : List Thread}
  {s : State}

structure Counted (params : Params) (s : State) : Prop where
  lleno : (s.shared.lleno : Int) =
    (s.place .producer).llenoShare + (s.place .consumer).llenoShare
  vacio : (s.shared.vacio : Int) =
    params.size + (s.place .producer).vacioShare + (s.place .consumer).vacioShare

theorem run_counted
    (reached : Runs.run (step params) (initial params sinIniciar) schedule = some s) :
    Counted params s := by
  have main := main_share (run_owner reached .main)
  have lleno := run_conserved (llenoShare_balanced params) reached
  have vacio := run_conserved (vacioShare_balanced params) reached
  simp only [tally_threads, initial, start_share, main] at lleno vacio
  exact ⟨by omega, by omega⟩

theorem Counted.store_room (counted : Counted params s) (owned : ∀ t, (s.place t).owner = t) {i : Nat}
    (storing : s.place .producer = .prodStore i) : i < itemsRead s + params.size := by
  have consumer := consumer_share (owned .consumer)
  have vacio := counted.vacio
  have taken : (Pc.prodStore i).vacioShare = -(i + 1) := rfl
  rw [storing, taken] at vacio
  simp only [itemsRead]
  omega

theorem Counted.read_stored (counted : Counted params s) (owned : ∀ t, (s.place t).owner = t) {i : Nat}
    (reading : s.place .consumer = .consRead i) : i < itemsStored s := by
  have producer := producer_share (owned .producer)
  have lleno := counted.lleno
  have taken : (Pc.consRead i).llenoShare = -(i + 1) := rfl
  rw [reading, taken] at lleno
  simp only [itemsStored]
  omega

structure Delivered (params : Params) (shared : Shared) (stored read : Nat) : Prop where
  results : ∀ i < read, shared.readerResults i = i
  slots : ∀ i, read ≤ i → i < stored → shared.buf (i % params.size) = i

theorem mod_ne_of_near {size i j : Nat} (before : j < i) (near : i < j + size) :
    j % size ≠ i % size := by
  intro same
  have multiple : (i - j) % size = 0 := Nat.sub_mod_eq_zero_of_mod_eq same.symm
  rw [Nat.mod_eq_of_lt (by omega)] at multiple
  omega

theorem Delivered.store {shared : Shared} {i read : Nat} (delivered : Delivered params shared i read)
    (room : i < read + params.size) :
    Delivered params { shared with buf := update shared.buf (i % params.size) i } (i + 1)
      read := by
  refine ⟨delivered.results, ?_⟩
  intro j unread stored
  by_cases last : j = i
  · simp only [last, update_self]
  · have other : j % params.size ≠ i % params.size := mod_ne_of_near (by omega) (by omega)
    simp only [update_of_ne other]
    exact delivered.slots j unread (by omega)

theorem Delivered.read {shared : Shared} {i stored : Nat} (delivered : Delivered params shared stored i)
    (available : i < stored) :
    Delivered params
      { shared with
        readerResults := update shared.readerResults i (shared.buf (i % params.size)) }
      stored (i + 1) := by
  constructor
  · intro j below
    by_cases last : j = i
    · simp only [last, update_self]
      exact delivered.slots i le_rfl available
    · simp only [update_of_ne last]
      exact delivered.results j (by omega)
  · intro j unread stored
    exact delivered.slots j (by omega) stored

theorem moves_delivered {thread : Thread} {shared : Shared} {pc pc' : Pc}
    (moves : Moves params thread s.shared pc shared pc') (before : s.place thread = pc)
    (owned : ∀ t, (s.place t).owner = t) (counted : Counted params s)
    (delivered : Delivered params s.shared (itemsStored s) (itemsRead s)) :
    Delivered params shared (itemsStored ⟨shared, update s.place thread pc'⟩)
      (itemsRead ⟨shared, update s.place thread pc'⟩) := by
  have here := owned thread
  rw [before] at here
  cases moves <;> cases here <;>
    simp only [itemsStored, itemsRead, Pc.owner, update_self, update_of_ne, ne_eq,
      reduceCtorEq, not_false_eq_true] at delivered ⊢
  case prodStore i =>
    have room := counted.store_room owned before
    rw [show s.place .producer = .prodStore i from before] at delivered
    exact delivered.store room
  case consRead i =>
    have available := counted.read_stored owned before
    rw [show s.place .consumer = .consRead i from before] at delivered
    exact delivered.read available
  case createProducer | createConsumer | destroyMutex | destroyLleno | destroyVacio =>
    exact ⟨delivered.results, delivered.slots⟩
  all_goals
    simp only [Pc.owner] at before
    rw [before] at delivered
    exact ⟨delivered.results, delivered.slots⟩

theorem run_delivered
    (reached : Runs.run (step params) (initial params sinIniciar) schedule = some s) :
    Delivered params s.shared (itemsStored s) (itemsRead s) := by
  refine Runs.run_invariant_reached
    (fun _ s => Delivered params s.shared (itemsStored s) (itemsRead s)) ?_ ?_ schedule s
    Runs.along_true reached
  · constructor <;> simp [itemsRead, itemsStored, initial, start, Pc.read, Pc.stored]
  · intro history state thread next before delivered _ stepped
    obtain ⟨shared, place, moved, same⟩ := act_eq_some.mp stepped
    subst same
    exact moves_delivered (program_moves moved) rfl (run_owner before) (run_counted before) delivered

end Runs

/-- Exact delivery: what the consumer has read is `0, 1, 2, …` in order, and no item goes
into a slot whose item has not been read. -/
theorem exact_delivery (params : Params) (sinIniciar : (Nat → Int) × (Nat → Int))
    (schedule : List Thread) (s : State)
    (reached : Runs.run (step params) (initial params sinIniciar) schedule = some s) :
    (∀ i < itemsRead s, s.shared.readerResults i = i) ∧
      (∀ i, s.place .producer = .prodStore i → i < itemsRead s + params.size) ∧
      ∀ i, s.place .consumer = .consRead i → s.shared.buf (i % params.size) = i := by
  have delivered := run_delivered reached
  have counted := run_counted reached
  have owned := run_owner reached
  refine ⟨delivered.results, ?_, ?_⟩
  · intro i storing
    exact counted.store_room owned storing
  · intro i reading
    refine delivered.slots i ?_ (counted.read_stored owned reading)
    simp [itemsRead, reading, Pc.read]

/-- Two items through one slot: the producer waits for the consumer between them. -/
theorem exact_delivery_two : ∃ s,
    Runs.run (step ⟨1, 2, by decide, by decide⟩)
      (initial ⟨1, 2, by decide, by decide⟩ (fun _ => 7, fun _ => 7))
      ([.main, .main] ++ List.replicate 6 .producer ++ List.replicate 6 .consumer ++
        List.replicate 5 .producer ++ List.replicate 5 .consumer) = some s ∧
      itemsRead s = 2 ∧ s.shared.readerResults 0 = 0 ∧ s.shared.readerResults 1 = 1 := by
  let params : Params := ⟨1, 2, by decide, by decide⟩
  let schedule : List Thread := [.main, .main] ++ List.replicate 6 .producer ++
    List.replicate 6 .consumer ++ List.replicate 5 .producer ++ List.replicate 5 .consumer
  let s := (Runs.run (step params) (initial params (fun _ => 7, fun _ => 7)) schedule).get
    (by decide +kernel)
  have reached : Runs.run (step params) (initial params (fun _ => 7, fun _ => 7)) schedule = some s :=
    (Option.some_get _).symm
  have all : itemsRead s = 2 := by decide +kernel
  have delivered := (exact_delivery params _ schedule s reached).1
  rw [all] at delivered
  exact ⟨s, reached, all, delivered 0 (by decide), delivered 1 (by decide)⟩

end OsLabs.Buffer
