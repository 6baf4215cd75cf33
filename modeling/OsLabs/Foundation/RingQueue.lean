import Mathlib.Data.List.OfFn
import Mathlib.Data.Fintype.Basic
import OsLabs.Foundation.Cyclic

/-!
A bounded first-in first-out queue, and the array with one circular cursor that
implements it: the cursor names the slot that is written next, which is the oldest.
-/

namespace OsLabs.RingQueue

open Function OsLabs.Cyclic

variable {α : Type*} {n : Nat}

/-- The reference queue: a present item changes nothing, an absent one is appended
and, when there is no room, the earliest one is dropped. -/
def fetch [DecidableEq α] (capacity : Nat) (queue : List α) (item : α) : List α :=
  if item ∈ queue then queue
  else if queue.length < capacity then queue ++ [item]
  else queue.tail ++ [item]

def ring (slots : Fin n → α) (cursor : Fin n) : List α :=
  List.ofFn fun offset : Fin n => slots (offsetFrom cursor offset.val)

@[simp] theorem length_ring (slots : Fin n → α) (cursor : Fin n) : (ring slots cursor).length = n := by
  simp [ring]

theorem getElem_ring (slots : Fin n → α) (cursor : Fin n) (offset : Nat)
    (bound : offset < (ring slots cursor).length) :
    (ring slots cursor)[offset] = slots (offsetFrom cursor offset) := by
  simp [ring]

theorem mem_ring (slots : Fin n → α) (cursor : Fin n) (item : α) :
    item ∈ ring slots cursor ↔ ∃ index, slots index = item := by
  simp only [ring, List.mem_ofFn]
  constructor
  · rintro ⟨offset, found⟩
    exact ⟨_, found⟩
  · rintro ⟨index, found⟩
    obtain ⟨offset, same⟩ := exists_offset cursor index
    exact ⟨offset, by rw [same, found]⟩

theorem ring_eq_cons (slots : Fin n → α) (cursor : Fin n) :
    ring slots cursor = slots cursor :: (ring slots cursor).tail := by
  have nonempty : 0 < (ring slots cursor).length := by simpa using cursor.pos
  have start : offsetFrom cursor 0 = cursor := (offsetFrom_eq_cursor cursor (Nat.zero_le n)).mpr (Or.inl rfl)
  have head : (ring slots cursor)[0]? = some (slots cursor) := by
    rw [List.getElem?_eq_getElem nonempty, getElem_ring, start]
  cases shape : ring slots cursor with
  | nil => simp [shape] at nonempty
  | cons first rest =>
      rw [shape, List.getElem?_cons_zero, Option.some.injEq] at head
      rw [head, List.tail_cons]

theorem ring_write (slots : Fin n → α) (cursor : Fin n) (item : α) :
    ring (update slots cursor item) (advance cursor) = (ring slots cursor).tail ++ [item] := by
  have positive := cursor.pos
  apply List.ext_getElem
  · simp only [length_ring, List.length_append, List.length_tail, List.length_singleton]
    omega
  · intro offset left right
    rw [getElem_ring, offsetFrom_advance]
    rw [length_ring] at left
    by_cases last : offset + 1 = n
    · rw [(offsetFrom_eq_cursor cursor left).mpr (Or.inr last), update_self,
        List.getElem_append_right (by simp only [List.length_tail, length_ring]; omega)]
      simp
    · have apart : offsetFrom cursor (offset + 1) ≠ cursor := by
        rw [Ne, offsetFrom_eq_cursor cursor left]
        omega
      rw [update_of_ne apart,
        List.getElem_append_left (by simp only [List.length_tail, length_ring]; omega),
        List.getElem_tail, getElem_ring]

section Contents

variable [DecidableEq α]

def contents (empty : α) (slots : Fin n → α) (cursor : Fin n) : List α :=
  (ring slots cursor).filter (· ≠ empty)

theorem mem_contents (empty : α) (slots : Fin n → α) (cursor : Fin n) (item : α) :
    item ∈ contents empty slots cursor ↔ item ≠ empty ∧ ∃ index, slots index = item := by
  simp only [contents, List.mem_filter, mem_ring, decide_eq_true_eq]
  exact and_comm

theorem contents_nothing (empty : α) (cursor : Fin n) : contents empty (fun _ => empty) cursor = [] := by
  apply List.eq_nil_iff_forall_not_mem.mpr
  intro item member
  obtain ⟨real, _, same⟩ := (mem_contents empty _ cursor item).mp member
  exact real same.symm

theorem fetch_contents (empty : α) (slots : Fin n → α) (cursor : Fin n) (item : α)
    (real : item ≠ empty) (absent : ∀ index, slots index ≠ item)
    (cursorFree : ∀ index, slots index = empty → slots cursor = empty) :
    fetch n (contents empty slots cursor) item =
      contents empty (update slots cursor item) (advance cursor) := by
  have missing : item ∉ contents empty slots cursor := by
    intro member
    obtain ⟨_, index, same⟩ := (mem_contents empty slots cursor item).mp member
    exact absent index same
  have written : contents empty (update slots cursor item) (advance cursor) =
      (ring slots cursor).tail.filter (· ≠ empty) ++ [item] := by
    simp [contents, ring_write, real]
  have shape := ring_eq_cons slots cursor
  rw [fetch, if_neg missing, written]
  by_cases free : slots cursor = empty
  · have kept : contents empty slots cursor = (ring slots cursor).tail.filter (· ≠ empty) := by
      rw [contents, shape]
      simp [free]
    have short : (contents empty slots cursor).length < n := by
      have bound := List.length_filter_le (fun x => decide (x ≠ empty)) (ring slots cursor).tail
      rw [List.length_tail, length_ring] at bound
      have positive := cursor.pos
      rw [kept]
      omega
    rw [if_pos short, kept]
  · have full : ∀ x ∈ ring slots cursor, x ≠ empty := by
      intro x member same
      obtain ⟨index, found⟩ := (mem_ring slots cursor x).mp member
      exact free (cursorFree index (found.trans same))
    have whole : contents empty slots cursor = ring slots cursor :=
      List.filter_eq_self.mpr (by simpa using full)
    have tailWhole : (ring slots cursor).tail.filter (· ≠ empty) = (ring slots cursor).tail :=
      List.filter_eq_self.mpr (by
        intro x member
        simpa using full x (List.mem_of_mem_tail member))
    rw [whole, length_ring, if_neg (lt_irrefl n), tailWhole]

end Contents

end OsLabs.RingQueue
