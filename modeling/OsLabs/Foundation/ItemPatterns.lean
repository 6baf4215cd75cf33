import Mathlib.Data.List.Forall2
import Mathlib.Tactic.Common

/-!
Patterns that are sequences of items over any alphabet: one letter of a class, any number of
letters of a class, or the end of the text. A pattern accepts a text when a prefix of the text is
made of pieces that the items take from left to right.
-/

namespace OsLabs.ItemPatterns

inductive Item (α : Type*) where
  | one (allowed : α → Prop)
  | many (allowed : α → Prop)
  | ending

variable {α : Type*} {allowed : α → Prop} {items : List (Item α)} {text : List α}

def Item.Takes : Item α → List α → Prop
  | .one allowed, piece => ∃ letter, allowed letter ∧ piece = [letter]
  | .many allowed, piece => ∀ letter ∈ piece, allowed letter
  | .ending, piece => piece = []

/-- Nothing of the text is left when the pattern has an `ending`. -/
def Accepts (items : List (Item α)) (text : List α) : Prop :=
  ∃ pieces rest, text = pieces.flatten ++ rest ∧ List.Forall₂ Item.Takes items pieces ∧
    (Item.ending ∈ items → rest = [])

theorem accepts_nil (text : List α) : Accepts [] text :=
  ⟨[], text, rfl, .nil, by simp⟩

theorem accepts_ending : Accepts [.ending] text ↔ text = [] := by
  constructor
  · rintro ⟨pieces, rest, rfl, takes, last⟩
    obtain ⟨piece, others, empty, done, rfl⟩ := List.forall₂_cons_left_iff.mp takes
    rw [List.forall₂_nil_left_iff.mp done, last (by simp), show piece = [] from empty]
    rfl
  · rintro rfl
    exact ⟨[[]], [], rfl, .cons rfl .nil, fun _ => rfl⟩

theorem accepts_cons {item : Item α} (inner : item ≠ .ending) :
    Accepts (item :: items) text ↔
      ∃ piece after, text = piece ++ after ∧ item.Takes piece ∧ Accepts items after := by
  constructor
  · rintro ⟨pieces, rest, rfl, takes, last⟩
    obtain ⟨piece, others, taken, later, rfl⟩ := List.forall₂_cons_left_iff.mp takes
    refine ⟨piece, others.flatten ++ rest, by simp, taken, others, rest, rfl, later, ?_⟩
    intro ends
    exact last (List.mem_cons_of_mem _ ends)
  · rintro ⟨piece, after, rfl, taken, pieces, rest, rfl, later, last⟩
    refine ⟨piece :: pieces, rest, by simp, .cons taken later, ?_⟩
    intro ends
    exact last ((List.mem_cons.mp ends).resolve_left inner.symm)

theorem accepts_one : Accepts (.one allowed :: items) text ↔
    ∃ letter rest, text = letter :: rest ∧ allowed letter ∧ Accepts items rest := by
  rw [accepts_cons (by simp)]
  constructor
  · rintro ⟨piece, after, rfl, ⟨letter, fits, rfl⟩, later⟩
    exact ⟨letter, after, rfl, fits, later⟩
  · rintro ⟨letter, rest, rfl, fits, later⟩
    exact ⟨[letter], rest, rfl, ⟨letter, fits, rfl⟩, later⟩

theorem accepts_many : Accepts (.many allowed :: items) text ↔ Accepts items text ∨
    ∃ letter rest, text = letter :: rest ∧ allowed letter ∧ Accepts (.many allowed :: items) rest := by
  have inner : Item.many allowed ≠ .ending := by simp
  simp only [accepts_cons inner]
  constructor
  · rintro ⟨piece, after, rfl, taken, later⟩
    cases piece with
    | nil => exact Or.inl later
    | cons letter piece =>
        refine Or.inr ⟨letter, piece ++ after, rfl, taken letter (by simp), piece, after, rfl, ?_, later⟩
        intro other member
        exact taken other (List.mem_cons_of_mem _ member)
  · rintro (later | ⟨letter, rest, rfl, fits, piece, after, rfl, taken, later⟩)
    · exact ⟨[], text, rfl, by simp [Item.Takes], later⟩
    · refine ⟨letter :: piece, after, rfl, ?_, later⟩
      intro other member
      rcases List.mem_cons.mp member with rfl | inside
      · exact fits
      · exact taken other inside

end OsLabs.ItemPatterns
