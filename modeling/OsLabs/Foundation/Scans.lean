import Mathlib.Data.List.FinRange
import Mathlib.Order.Fin.Basic
import Mathlib.Tactic.Common

/-!
The two accumulator loops over an array that the programs use: the running
maximum, and the position of the first least entry.
-/

namespace OsLabs.Scans

variable {ι κ : Type*}

def runningMax [LinearOrder κ] (key : ι → κ) : List ι → κ → κ
  | [], best => best
  | index :: rest, best => runningMax key rest (if best < key index then key index else best)

theorem le_runningMax [LinearOrder κ] (key : ι → κ) (indices : List ι) (best : κ) :
    best ≤ runningMax key indices best := by
  induction indices generalizing best with
  | nil => exact le_refl _
  | cons index rest ih =>
      simp only [runningMax]
      split
      · rename_i larger
        exact le_trans (le_of_lt larger) (ih _)
      · exact ih _

theorem key_le_runningMax [LinearOrder κ] (key : ι → κ) (indices : List ι) (best : κ)
    {index : ι} (member : index ∈ indices) : key index ≤ runningMax key indices best := by
  induction indices generalizing best with
  | nil => simp at member
  | cons first rest ih =>
      simp only [runningMax]
      rcases List.mem_cons.mp member with same | later
      · subst first
        split
        · exact le_runningMax key rest _
        · rename_i notLarger
          exact le_trans (le_of_not_gt notLarger) (le_runningMax key rest best)
      · exact ih _ later

def firstMin [LT κ] [DecidableLT κ] (key : ι → κ) : List ι → ι → ι
  | [], best => best
  | index :: rest, best => firstMin key rest (if key index < key best then index else best)

def Precedes [LT ι] [LT κ] (key : ι → κ) (left right : ι) : Prop :=
  key left < key right ∨ key left = key right ∧ left < right

theorem Precedes.trans [LinearOrder ι] [LinearOrder κ] {key : ι → κ} {first second third : ι}
    (left : Precedes key first second) (right : Precedes key second third) :
    Precedes key first third := by
  rcases left with less | ⟨same, before⟩ <;> rcases right with less' | ⟨same', before'⟩
  · exact Or.inl (less.trans less')
  · exact Or.inl (same' ▸ less)
  · exact Or.inl (same ▸ less')
  · exact Or.inr ⟨same.trans same', before.trans before'⟩

theorem Precedes.asymm [LinearOrder ι] [LinearOrder κ] {key : ι → κ} {left right : ι}
    (before : Precedes key left right) : ¬Precedes key right left := by
  intro after
  rcases before.trans after with less | ⟨_, less⟩
  · exact lt_irrefl _ less
  · exact lt_irrefl _ less

theorem chosen_precedes [LinearOrder ι] [LinearOrder κ] (key : ι → κ) {best next index : ι}
    (before : best < next) (candidate : index = best ∨ index = next)
    (different : index ≠ if key next < key best then next else best) :
    Precedes key (if key next < key best then next else best) index := by
  split at different <;> rename_i comparison
  · rw [if_pos comparison, candidate.resolve_right different]
    exact Or.inl comparison
  · rw [if_neg comparison, candidate.resolve_left different]
    rcases lt_or_eq_of_le (le_of_not_gt comparison) with less | same
    · exact Or.inl less
    · exact Or.inr ⟨same, before⟩

theorem firstMin_precedes [LinearOrder ι] [LinearOrder κ] (key : ι → κ) (indices : List ι)
    (best : ι) (increasing : (best :: indices).Pairwise (· < ·)) {index : ι}
    (member : index ∈ best :: indices) (different : index ≠ firstMin key indices best) :
    Precedes key (firstMin key indices best) index := by
  induction indices generalizing best index with
  | nil =>
      simp only [firstMin, List.mem_singleton] at member different
      exact absurd member different
  | cons next rest ih =>
      simp only [firstMin] at different ⊢
      generalize chosenEq : (if key next < key best then next else best) = chosen at different ⊢
      obtain ⟨below, tail⟩ := List.pairwise_cons.mp increasing
      have bestRest : (best :: rest).Pairwise (· < ·) :=
        List.pairwise_cons.mpr ⟨fun i inside => below i (List.mem_cons_of_mem _ inside), tail.of_cons⟩
      have chosenRest : (chosen :: rest).Pairwise (· < ·) := by
        rw [← chosenEq]
        split <;> assumption
      by_cases inTail : index ∈ chosen :: rest
      · exact ih chosen chosenRest inTail different
      · simp only [List.mem_cons, not_or] at member inTail
        have candidate : index = best ∨ index = next := by tauto
        have lost : Precedes key chosen index := by
          rw [← chosenEq]
          exact chosen_precedes key (below next List.mem_cons_self) candidate (chosenEq ▸ inTail.1)
        by_cases kept : chosen = firstMin key rest chosen
        · rwa [← kept]
        · exact (ih chosen chosenRest List.mem_cons_self kept).trans lost

end OsLabs.Scans
