import Mathlib.Data.List.Basic
import OsLabs.Foundation.Scans

/-!
Recency of use. The age of an item is how long ago its last use was; stamps kept
beside the slots of a cache are in order when scanning them for the first least
stamp meets older items before newer ones.
-/

namespace OsLabs.Recency

open OsLabs.Scans

variable {α ι κ : Type*} [DecidableEq α]

def age (history : List α) (item : α) : Nat := history.reverse.idxOf item

theorem age_concat_self (history : List α) (item : α) : age (history ++ [item]) item = 0 := by
  simp [age]

theorem age_concat_of_ne {history : List α} {item other : α} (different : other ≠ item) :
    age (history ++ [item]) other = age history other + 1 := by
  simp only [age, List.reverse_append, List.reverse_cons, List.reverse_nil, List.nil_append,
    List.singleton_append]
  exact List.idxOf_cons_ne _ different.symm

theorem age_injective {history : List α} {item other : α} (used : item ∈ history)
    (same : age history item = age history other) : item = other :=
  (List.idxOf_inj (by simpa using used)).mp same

def InOrder [LT ι] [LT κ] (history : List α) (used : ι → Prop) (slots : ι → α) (stamp : ι → κ) :
    Prop :=
  ∀ older newer, used older → used newer →
    age history (slots newer) < age history (slots older) → Precedes stamp older newer

theorem InOrder.restamp [LinearOrder ι] [LinearOrder κ] {history : List α} {item : α}
    {used used' : ι → Prop} {slots slots' : ι → α} {stamp stamp' : ι → κ}
    (ordered : InOrder history used slots stamp) (target : ι)
    (holds : slots' target = item)
    (others : ∀ i, i ≠ target → used' i → used i ∧ slots' i = slots i ∧ slots i ≠ item)
    (kept : ∀ i j, i ≠ target → j ≠ target → used' i → used' j →
      Precedes stamp i j → Precedes stamp' i j)
    (latest : ∀ i, i ≠ target → used' i → Precedes stamp' i target) :
    InOrder (history ++ [item]) used' slots' stamp' := by
  intro older newer olderUsed newerUsed younger
  by_cases oldest : older = target
  · subst older
    rw [holds, age_concat_self] at younger
    omega
  · by_cases newest : newer = target
    · subst newer
      exact latest older oldest olderUsed
    · obtain ⟨olderBefore, olderSame, olderOther⟩ := others older oldest olderUsed
      obtain ⟨newerBefore, newerSame, newerOther⟩ := others newer newest newerUsed
      rw [olderSame, newerSame, age_concat_of_ne olderOther, age_concat_of_ne newerOther] at younger
      exact kept older newer oldest newest olderUsed newerUsed
        (ordered older newer olderBefore newerBefore (by omega))

theorem InOrder.oldest [LinearOrder ι] [LinearOrder κ] {history : List α} {used : ι → Prop}
    {slots : ι → α} {stamp : ι → κ} {victim other : ι} (ordered : InOrder history used slots stamp)
    (victimUsed : used victim) (otherUsed : used other) (known : slots other ∈ history)
    (different : slots other ≠ slots victim) (first : Precedes stamp victim other) :
    age history (slots other) < age history (slots victim) := by
  rcases Nat.lt_trichotomy (age history (slots other)) (age history (slots victim)) with
    less | same | more
  · exact less
  · exact absurd (age_injective known same) different
  · exact absurd (ordered other victim otherUsed victimUsed more) first.asymm

end OsLabs.Recency
