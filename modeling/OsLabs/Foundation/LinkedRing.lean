import Mathlib.Data.List.Basic
import Mathlib.Data.List.Nodup
import Mathlib.Logic.Function.Basic
import Mathlib.Tactic.Common

/-!
A doubly linked ring through a head node, which is `none`. `Linked` says that the two
pointers go through the nodes of a list, forwards and backwards, each node once; the
operations are the pointer assignments and their meaning is one list operation.
-/

namespace OsLabs.LinkedRing

open Function

variable {β : Type*}

structure Links (β : Type*) where
  next : Option β → Option β
  prev : Option β → Option β

structure Linked (ring : Links β) (order : List β) : Prop where
  nodup : order.Nodup
  next : ∀ before after, order = before ++ after → ring.next before.getLast? = after.head?
  prev : ∀ before after, order = before ++ after → ring.prev after.head? = before.getLast?

theorem getLast?_ne {first second : List β} (apart : List.Disjoint first second)
    (nonempty : second ≠ []) : first.getLast? ≠ second.getLast? := by
  intro same
  rw [List.getLast?_eq_some_getLast nonempty] at same
  exact apart (List.mem_of_getLast? same) (List.getLast_mem nonempty)

theorem head?_ne {first second : List β} (apart : List.Disjoint first second)
    (nonempty : first ≠ []) : first.head? ≠ second.head? := by
  intro same
  rw [List.head?_eq_some_head nonempty] at same
  exact apart (List.head_mem nonempty) (List.mem_of_mem_head? same.symm)

theorem getLast?_append_of_ne_nil {first second : List β} (nonempty : second ≠ []) :
    (first ++ second).getLast? = second.getLast? := by
  rw [List.getLast?_append, List.getLast?_eq_some_getLast nonempty, Option.some_or]

theorem head?_append_of_ne_nil {first second : List β} (nonempty : first ≠ []) :
    (first ++ second).head? = first.head? := by
  rw [List.head?_append, List.head?_eq_some_head nonempty, Option.some_or]

section Walk

/-- The loop that follows one pointer from `node` up to the head, looking for `test`. -/
def scan (link : Option β → Option β) (test : β → Bool) : Nat → Option β → Option β
  | 0, _ => none
  | _ + 1, none => none
  | fuel + 1, some node => if test node then some node else scan link test fuel (link (some node))

theorem scan_chain {link : Option β → Option β} {test : β → Bool} {order : List β}
    (chain : ∀ before after, order = before ++ after → link before.getLast? = after.head?)
    (fuel : Nat) (before after : List β) (split : order = before ++ after)
    (enough : after.length < fuel) : scan link test fuel after.head? = after.find? test := by
  induction after generalizing fuel before with
  | nil =>
      cases fuel with
      | zero => omega
      | succ fuel => rfl
  | cons node rest ih =>
      cases fuel with
      | zero => omega
      | succ fuel =>
          have cut : order = (before ++ [node]) ++ rest := by simp [split]
          have step := chain (before ++ [node]) rest cut
          rw [List.getLast?_concat] at step
          rw [List.head?_cons, scan, List.find?_cons]
          split
          next found => rw [found]
          next other =>
            rw [Bool.not_eq_true] at other
            rw [other, step]
            exact ih fuel (before ++ [node]) cut (by simpa using enough)

variable {ring : Links β} {order : List β} (linked : Linked ring order)

include linked

theorem Linked.scan_next (test : β → Bool) {fuel : Nat} (enough : order.length < fuel) :
    scan ring.next test fuel (ring.next none) = order.find? test := by
  have start := linked.next [] order rfl
  rw [List.getLast?_nil] at start
  rw [start]
  exact scan_chain linked.next fuel [] order rfl enough

theorem Linked.scan_prev (test : β → Bool) {fuel : Nat} (enough : order.length < fuel) :
    scan ring.prev test fuel (ring.prev none) = order.reverse.find? test := by
  have chain : ∀ before after, order.reverse = before ++ after →
      ring.prev before.getLast? = after.head? := by
    intro before after split
    have cut : order = after.reverse ++ before.reverse := by
      rw [← List.reverse_append, ← split, List.reverse_reverse]
    have step := linked.prev _ _ cut
    rwa [List.head?_reverse, List.getLast?_reverse] at step
  have start := chain [] order.reverse rfl
  rw [List.getLast?_nil] at start
  rw [start]
  exact scan_chain chain fuel [] order.reverse rfl (by simpa using enough)

end Walk

def Links.empty : Links β := ⟨fun _ => none, fun _ => none⟩

theorem linked_empty : Linked (Links.empty : Links β) [] := by
  refine ⟨List.nodup_nil, ?_, ?_⟩
  · intro before after split
    obtain ⟨rfl, rfl⟩ := List.append_eq_nil_iff.mp split.symm
    rfl
  · intro before after split
    obtain ⟨rfl, rfl⟩ := List.append_eq_nil_iff.mp split.symm
    rfl

variable [DecidableEq β]

def Links.setNext (ring : Links β) (node target : Option β) : Links β :=
  { ring with next := update ring.next node target }

def Links.setPrev (ring : Links β) (node target : Option β) : Links β :=
  { ring with prev := update ring.prev node target }

def Links.unlink (ring : Links β) (b : β) : Links β :=
  let ring := ring.setPrev (ring.next (some b)) (ring.prev (some b))
  ring.setNext (ring.prev (some b)) (ring.next (some b))

/-- `b->next = head.next; b->prev = &head; head.next->prev = b; head.next = b` -/
def Links.insertFront (ring : Links β) (b : β) : Links β :=
  let ring := ring.setNext (some b) (ring.next none)
  let ring := ring.setPrev (some b) none
  let ring := ring.setPrev (ring.next none) (some b)
  ring.setNext none (some b)

theorem unlink_eq {ring : Links β} {before after : List β} {b : β}
    (linked : Linked ring (before ++ b :: after)) :
    ring.unlink b =
      ⟨update ring.next before.getLast? after.head?,
        update ring.prev after.head? before.getLast?⟩ := by
  have nextB : ring.next (some b) = after.head? := by
    have cut := linked.next (before ++ [b]) after (by simp)
    rwa [List.getLast?_concat] at cut
  have prevB : ring.prev (some b) = before.getLast? := linked.prev before (b :: after) rfl
  have other : some b ≠ after.head? := by
    intro same
    have fresh := (List.nodup_cons.mp (List.nodup_append.mp linked.nodup).2.1).1
    exact fresh (List.mem_of_mem_head? same.symm)
  simp only [Links.unlink, Links.setPrev, Links.setNext, nextB, prevB, update_of_ne other]

theorem linked_unlink {ring : Links β} {before after : List β} {b : β}
    (linked : Linked ring (before ++ b :: after)) : Linked (ring.unlink b) (before ++ after) := by
  have nodup : (before ++ after).Nodup :=
    linked.nodup.sublist (List.Sublist.append_left (List.sublist_cons_self _ _) _)
  have apart := List.disjoint_of_nodup_append nodup
  rw [unlink_eq linked]
  refine ⟨nodup, ?_, ?_⟩ <;> intro first second split <;> dsimp only
  · rcases List.append_eq_append_iff.mp split with ⟨rest, rfl, rfl⟩ | ⟨rest, rfl, rfl⟩ <;>
      rcases eq_or_ne rest [] with rfl | nonempty
    · simp
    · rw [List.disjoint_append_right] at apart
      rw [getLast?_append_of_ne_nil nonempty, update_of_ne (getLast?_ne apart.1 nonempty).symm,
        ← linked.next (before ++ b :: rest) second (by simp), List.append_cons,
        getLast?_append_of_ne_nil nonempty]
    · simp
    · have inside := List.disjoint_of_nodup_append (List.nodup_append.mp nodup).1
      rw [getLast?_append_of_ne_nil nonempty, head?_append_of_ne_nil nonempty,
        update_of_ne (getLast?_ne inside nonempty),
        linked.next first (rest ++ b :: after) (by simp), head?_append_of_ne_nil nonempty]
  · rcases List.append_eq_append_iff.mp split with ⟨rest, rfl, rfl⟩ | ⟨rest, rfl, rfl⟩ <;>
      rcases eq_or_ne rest [] with rfl | nonempty
    · simp
    · have inside := List.disjoint_of_nodup_append (List.nodup_append.mp nodup).2.1
      rw [getLast?_append_of_ne_nil nonempty, head?_append_of_ne_nil nonempty,
        update_of_ne (head?_ne inside nonempty).symm,
        linked.prev (before ++ b :: rest) second (by simp), List.append_cons,
        getLast?_append_of_ne_nil nonempty]
    · simp
    · rw [List.disjoint_append_left] at apart
      rw [head?_append_of_ne_nil nonempty, update_of_ne (head?_ne apart.2 nonempty),
        ← linked.prev first (rest ++ b :: after) (by simp), head?_append_of_ne_nil nonempty]

theorem insertFront_eq {ring : Links β} {order : List β} {b : β} (linked : Linked ring order) :
    ring.insertFront b =
      ⟨update (update ring.next (some b) order.head?) none (some b),
        update (update ring.prev (some b) none) order.head? (some b)⟩ := by
  have first : ring.next none = order.head? := linked.next [] order rfl
  simp only [Links.insertFront, Links.setNext, Links.setPrev, first,
    update_of_ne (Option.some_ne_none b).symm]

theorem linked_insertFront {ring : Links β} {order : List β} {b : β} (linked : Linked ring order)
    (fresh : b ∉ order) : Linked (ring.insertFront b) (b :: order) := by
  have other : ∀ {node : Option β}, (∀ a, node = some a → a ∈ order) → node ≠ some b :=
    fun inside same => fresh (inside b same)
  have heads : order.head? ≠ some b := other fun a head => List.mem_of_mem_head? head
  rw [insertFront_eq linked]
  refine ⟨List.nodup_cons.mpr ⟨fresh, linked.nodup⟩, ?_, ?_⟩
  · intro first second split
    dsimp only
    cases first with
    | nil =>
        rw [← List.nil_append second, ← split]
        simp
    | cons node rest =>
        rw [List.cons_append, List.cons.injEq] at split
        obtain ⟨rfl, rfl⟩ := split
        rcases eq_or_ne rest [] with rfl | nonempty
        · simp
        · have last := List.getLast?_eq_some_getLast nonempty
          have old : rest.getLast? ≠ some b :=
            other fun a same => List.mem_append_left _ (List.mem_of_getLast? same)
          rw [List.getLast?_cons_of_ne_nil nonempty,
            update_of_ne (last ▸ Option.some_ne_none _), update_of_ne old]
          exact linked.next rest second rfl
  · intro first second split
    dsimp only
    cases first with
    | nil =>
        rw [← List.nil_append second, ← split, List.head?_cons, update_of_ne heads.symm,
          update_self, List.getLast?_nil]
    | cons node rest =>
        rw [List.cons_append, List.cons.injEq] at split
        obtain ⟨rfl, rfl⟩ := split
        rcases eq_or_ne rest [] with rfl | nonempty
        · simp
        · have apart := List.disjoint_of_nodup_append linked.nodup
          have old : second.head? ≠ some b :=
            other fun a same => List.mem_append_right _ (List.mem_of_mem_head? same)
          rw [List.getLast?_cons_of_ne_nil nonempty, head?_append_of_ne_nil nonempty,
            update_of_ne (head?_ne apart nonempty).symm, update_of_ne old]
          exact linked.prev rest second rfl

theorem linked_moveFront {ring : Links β} {before after : List β} {b : β}
    (linked : Linked ring (before ++ b :: after)) :
    Linked ((ring.unlink b).insertFront b) (b :: (before ++ after)) := by
  refine linked_insertFront (linked_unlink linked) ?_
  have fresh := (List.nodup_cons.mp (List.nodup_middle.mp linked.nodup)).1
  exact fresh

theorem linked_foldl {ring : Links β} {order nodes : List β}
    (linked : Linked ring order) (fresh : (nodes.reverse ++ order).Nodup) :
    Linked (nodes.foldl Links.insertFront ring) (nodes.reverse ++ order) := by
  induction nodes generalizing ring order with
  | nil => exact linked
  | cons node rest ih =>
      rw [List.reverse_cons, List.append_assoc, List.singleton_append] at fresh ⊢
      have tail := (List.nodup_append.mp fresh).2.1
      exact ih (linked_insertFront linked (List.nodup_cons.mp tail).1) fresh

end OsLabs.LinkedRing
