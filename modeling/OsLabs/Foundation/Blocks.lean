import Mathlib.Order.Nat
import Mathlib.Tactic.Common

/-!
Blocks of memory: which addresses a list of them covers, lists in which every block ends before the next one
begins, and the insertion of a block that is merged with the neighbours it touches.
-/

namespace OsLabs.Blocks

structure Block where
  start : Nat
  stop : Nat
deriving DecidableEq, Repr

def Block.Holds (b : Block) (address : Nat) : Prop := b.start ≤ address ∧ address < b.stop

def Block.Apart (b c : Block) : Prop := b.stop ≤ c.start ∨ c.stop ≤ b.start

theorem Block.Apart.symm {b c : Block} (apart : b.Apart c) : c.Apart b := Or.symm apart

instance Block.symmApart : Std.Symm Block.Apart := ⟨fun _ _ => Block.Apart.symm⟩

def Covers (blocks : List Block) (address : Nat) : Prop := ∃ b ∈ blocks, b.Holds address

def Separated (blocks : List Block) : Prop := blocks.Pairwise fun b c => b.stop < c.start

@[simp] theorem covers_nil {address : Nat} : ¬Covers [] address := by
  simp [Covers]

@[simp] theorem covers_cons {b : Block} {blocks : List Block} {address : Nat} :
    Covers (b :: blocks) address ↔ b.Holds address ∨ Covers blocks address := by
  simp [Covers]

@[simp] theorem covers_append {first second : List Block} {address : Nat} :
    Covers (first ++ second) address ↔ Covers first address ∨ Covers second address := by
  simp [Covers, or_and_right, exists_or]

theorem Separated.split {first b : Block} {rest : List Block} (separated : Separated (first :: rest))
    (apart : ∀ c ∈ rest, c.Apart b) (after : first.stop ≤ b.start) (within : ∀ c ∈ rest, c.start ≤ c.stop) :
    ∃ low p high, first :: rest = low ++ p :: high ∧ p.stop ≤ b.start ∧ ∀ c ∈ high, b.stop ≤ c.start := by
  induction rest generalizing first with
  | nil => exact ⟨[], first, [], rfl, after, by simp⟩
  | cons c rest ih =>
      obtain ⟨-, tail⟩ := List.pairwise_cons.mp separated
      obtain ⟨gaps, -⟩ := List.pairwise_cons.mp tail
      rcases apart c List.mem_cons_self with below | above
      · obtain ⟨low, p, high, split, before, behind⟩ := ih tail
          (fun d member => apart d (List.mem_cons_of_mem _ member)) below
          (fun d member => within d (List.mem_cons_of_mem _ member))
        exact ⟨first :: low, p, high, by rw [split, List.cons_append], before, behind⟩
      · refine ⟨[], first, c :: rest, rfl, after, fun d member => ?_⟩
        rcases List.mem_cons.mp member with rfl | later
        · exact above
        · have gap := gaps d later
          have order := within c List.mem_cons_self
          omega

theorem Separated.length_le {blocks : List Block} (separated : Separated blocks) (width : Nat)
    {low high : Nat} (inside : low ≤ high)
    (bounds : ∀ b ∈ blocks, low ≤ b.start ∧ b.start + width ≤ b.stop ∧ b.stop ≤ high) :
    low + width * blocks.length ≤ high := by
  induction blocks generalizing low with
  | nil => exact inside
  | cons b rest ih =>
      obtain ⟨gaps, tail⟩ := List.pairwise_cons.mp separated
      obtain ⟨lower, wide, upper⟩ := bounds b List.mem_cons_self
      have others := ih tail upper fun c member =>
        ⟨(gaps c member).le, (bounds c (List.mem_cons_of_mem _ member)).2⟩
      rw [List.length_cons, Nat.mul_succ]
      omega

theorem Separated.gaps {before after : List Block} {c : Block} (separated : Separated (before ++ c :: after)) :
    (∀ d ∈ before, d.stop < c.start) ∧ ∀ d ∈ after, c.stop < d.start := by
  obtain ⟨-, tail, cross⟩ := List.pairwise_append.mp separated
  exact ⟨fun d member => cross d member c List.mem_cons_self, (List.pairwise_cons.mp tail).1⟩

theorem Separated.gap {blocks : List Block} {c d : Block} (separated : Separated blocks) (first : c ∈ blocks)
    (second : d ∈ blocks) (differ : c ≠ d) : c.stop < d.start ∨ d.stop < c.start := by
  obtain ⟨before, after, rfl⟩ := List.append_of_mem first
  obtain ⟨below, above⟩ := separated.gaps
  rcases List.mem_append.mp second with earlier | later
  · exact Or.inr (below d earlier)
  · exact Or.inl (above d ((List.mem_cons.mp later).resolve_left (Ne.symm differ)))

theorem Separated.replace {before after parts : List Block} {c : Block} (separated : Separated (before ++ c :: after))
    (within : ∀ d ∈ parts, c.start ≤ d.start ∧ d.stop ≤ c.stop) (inner : Separated parts) :
    Separated (before ++ (parts ++ after)) := by
  obtain ⟨below, above⟩ := separated.gaps
  obtain ⟨front, tail, cross⟩ := List.pairwise_append.mp separated
  refine List.pairwise_append.mpr ⟨front, List.pairwise_append.mpr
    ⟨inner, (List.pairwise_cons.mp tail).2, fun d part e later => ?_⟩, fun d earlier e member => ?_⟩
  · exact lt_of_le_of_lt (within d part).2 (above e later)
  · rcases List.mem_append.mp member with part | later
    · exact lt_of_lt_of_le (below d earlier) (within e part).1
    · exact cross d earlier e (List.mem_cons_of_mem _ later)

def absorb (b : Block) : List Block → List Block
  | [] => [b]
  | c :: rest => if b.stop = c.start then ⟨b.start, c.stop⟩ :: rest else b :: c :: rest

section Absorb

variable {b c : Block} {blocks rest : List Block}

theorem absorb_touching (touches : b.stop = c.start) : absorb b (c :: rest) = ⟨b.start, c.stop⟩ :: rest :=
  if_pos touches

theorem absorb_clear (clear : b.stop ≠ c.start) : absorb b (c :: rest) = b :: c :: rest := if_neg clear

theorem absorb_first (b : Block) (blocks : List Block) (within : ∀ c ∈ blocks, c.start ≤ c.stop) :
    ∃ first rest, absorb b blocks = first :: rest ∧ first.start = b.start ∧ b.stop ≤ first.stop := by
  cases blocks with
  | nil => exact ⟨b, [], rfl, rfl, le_rfl⟩
  | cons c rest =>
      by_cases touches : b.stop = c.start
      · exact ⟨_, rest, absorb_touching touches, rfl, touches ▸ within c List.mem_cons_self⟩
      · exact ⟨b, c :: rest, absorb_clear touches, rfl, le_rfl⟩

theorem mem_absorb {d : Block} (member : d ∈ absorb b blocks) :
    d ∈ b :: blocks ∨ ∃ c ∈ blocks, b.stop = c.start ∧ d = ⟨b.start, c.stop⟩ := by
  cases blocks with
  | nil => exact Or.inl member
  | cons c rest =>
      by_cases touches : b.stop = c.start
      · rw [absorb_touching touches] at member
        rcases List.mem_cons.mp member with rfl | later
        · exact Or.inr ⟨c, List.mem_cons_self, touches, rfl⟩
        · exact Or.inl (List.mem_cons_of_mem _ (List.mem_cons_of_mem _ later))
      · rw [absorb_clear touches] at member
        exact Or.inl member

theorem apart_absorb {d : Block} (nonempty : d.start < d.stop) (apart : ∀ c ∈ b :: blocks, c.Apart d) :
    ∀ c ∈ absorb b blocks, c.Apart d := by
  intro c member
  rcases mem_absorb member with kept | ⟨e, touched, touches, rfl⟩
  · exact apart c kept
  · have first := apart b List.mem_cons_self
    have second := apart e (List.mem_cons_of_mem _ touched)
    simp only [Block.Apart] at first second ⊢
    omega

theorem absorb_holds {d : Block} (ordered : b.start ≤ b.stop) (member : d ∈ blocks) :
    ∃ c ∈ absorb b blocks, c.start ≤ d.start ∧ d.stop ≤ c.stop := by
  cases blocks with
  | nil => exact absurd member List.not_mem_nil
  | cons c rest =>
      by_cases touches : b.stop = c.start
      · rw [absorb_touching touches]
        rcases List.mem_cons.mp member with rfl | later
        · exact ⟨_, List.mem_cons_self, touches ▸ ordered, le_rfl⟩
        · exact ⟨d, List.mem_cons_of_mem _ later, le_rfl, le_rfl⟩
      · rw [absorb_clear touches]
        exact ⟨d, List.mem_cons_of_mem _ member, le_rfl, le_rfl⟩

theorem covers_absorb {address : Nat} (ordered : b.start ≤ b.stop) (within : ∀ c ∈ blocks, c.start ≤ c.stop) :
    Covers (absorb b blocks) address ↔ b.Holds address ∨ Covers blocks address := by
  cases blocks with
  | nil => simp [absorb]
  | cons c rest =>
      by_cases touches : b.stop = c.start
      · have ordered' := within c List.mem_cons_self
        rw [absorb_touching touches, covers_cons, covers_cons, ← or_assoc]
        refine or_congr_left ?_
        simp only [Block.Holds]
        omega
      · rw [absorb_clear touches, covers_cons]

theorem separated_absorb (separated : Separated blocks) (within : ∀ c ∈ blocks, c.start ≤ c.stop)
    (after : ∀ c ∈ blocks, b.stop ≤ c.start) : Separated (absorb b blocks) := by
  cases blocks with
  | nil => exact List.pairwise_singleton _ _
  | cons c rest =>
      obtain ⟨first, others⟩ := List.pairwise_cons.mp separated
      have below := after c List.mem_cons_self
      have ordered := within c List.mem_cons_self
      by_cases touches : b.stop = c.start
      · rw [absorb_touching touches]
        exact List.pairwise_cons.mpr ⟨first, others⟩
      · rw [absorb_clear touches]
        refine List.pairwise_cons.mpr ⟨fun d member => ?_, separated⟩
        rcases List.mem_cons.mp member with rfl | later
        · omega
        · have gap := first d later
          omega

end Absorb

end OsLabs.Blocks
