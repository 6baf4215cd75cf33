import Mathlib.Tactic.Common

/-!
Segments of singly linked lists. `Seg next p nodes q` says that following `next` from `p` visits `nodes` and
arrives at `q`; a ring is a segment that arrives where it started.
-/

namespace OsLabs.Segments

variable {α : Type*} {next next' : α → α} {p q : α}

def Seg (next : α → α) : α → List α → α → Prop
  | p, [], q => p = q
  | p, node :: rest, q => p = node ∧ Seg next (next node) rest q

@[simp] theorem seg_nil : Seg next p [] q ↔ p = q := Iff.rfl

@[simp] theorem seg_cons {node : α} {rest : List α} :
    Seg next p (node :: rest) q ↔ p = node ∧ Seg next (next node) rest q := Iff.rfl

theorem seg_append {first second : List α} :
    Seg next p (first ++ second) q ↔ ∃ middle, Seg next p first middle ∧ Seg next middle second q := by
  induction first generalizing p with
  | nil => simp
  | cons node rest ih => simp only [List.cons_append, seg_cons, ih, and_assoc, exists_and_left]

theorem Seg.congr {nodes : List α} (seg : Seg next p nodes q) (same : ∀ node ∈ nodes, next' node = next node) :
    Seg next' p nodes q := by
  induction nodes generalizing p with
  | nil => exact seg
  | cons node rest ih =>
      refine ⟨seg.1, ?_⟩
      rw [same node List.mem_cons_self]
      exact ih seg.2 fun other member => same other (List.mem_cons_of_mem _ member)

theorem Seg.start_eq {node : α} {rest : List α} (seg : Seg next p (node :: rest) q) : p = node := seg.1

theorem Seg.after {before rest : List α} {node : α} (seg : Seg next p (before ++ node :: rest) q) :
    Seg next (next node) rest q := by
  obtain ⟨middle, -, -, tail⟩ := seg_append.mp seg
  exact tail

theorem Seg.rotate {before rest : List α} {node : α} (ring : Seg next p (before ++ node :: rest) p) :
    Seg next node (node :: (rest ++ before)) node := by
  obtain ⟨middle, front, same, tail⟩ := seg_append.mp ring
  exact ⟨rfl, seg_append.mpr ⟨p, tail, same ▸ front⟩⟩

/-- The loop that follows the pointers until `test` holds. -/
def search (next : α → α) (test : α → Bool) : Nat → α → Option α
  | 0, _ => none
  | fuel + 1, p => if test p then some p else search next test fuel (next p)

theorem Seg.search_eq {test : α → Bool} {nodes : List α} {target : α} (seg : Seg next p nodes q)
    (member : target ∈ nodes) (holds : test target = true) (only : ∀ node ∈ nodes, test node = true → node = target)
    (fuel : Nat) (enough : nodes.length ≤ fuel) : search next test fuel p = some target := by
  induction nodes generalizing p fuel with
  | nil => exact absurd member List.not_mem_nil
  | cons node rest ih =>
      obtain ⟨rfl, tail⟩ := seg
      cases fuel with
      | zero => exact absurd enough (Nat.not_succ_le_zero _)
      | succ fuel =>
          rw [search]
          by_cases here : test p = true
          · rw [if_pos here, only p List.mem_cons_self here]
          · have other : target ∈ rest := by
              rcases List.mem_cons.mp member with same | later
              · exact absurd (same ▸ holds) here
              · exact later
            rw [if_neg here]
            exact ih tail other (fun node later => only node (List.mem_cons_of_mem _ later)) fuel
              (Nat.le_of_succ_le_succ enough)

end OsLabs.Segments
