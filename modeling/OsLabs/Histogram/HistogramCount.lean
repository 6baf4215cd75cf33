import Mathlib.Data.BitVec
import Mathlib.Logic.Function.Basic
import Mathlib.Tactic.Common

/-!
The counting loop of the word-length histogram. An index outside the table and an `int` that
overflows end it with a fault.
-/

namespace OsLabs.Histogram

abbrev Byte := BitVec 8

def maxWordLength : Nat := 26

instance : NeZero maxWordLength := ⟨by decide⟩

def intMax : Nat := 2 ^ 31 - 1

def isSeparator (c : Byte) : Bool := c = 32 || c = 10

inductive Fault where
  | outOfBounds (index : Nat)
  | overflow
deriving DecidableEq

structure Counters where
  lettersPerWord : Fin maxWordLength → Nat
  letters : Nat

def increment (n : Nat) : Except Fault Nat := if n < intMax then .ok (n + 1) else .error .overflow

def count (s : Counters) (c : Byte) : Except Fault Counters :=
  if isSeparator c then
    if s.letters ≤ maxWordLength then
      if inside : s.letters < maxWordLength then do
        let n ← increment (s.lettersPerWord ⟨s.letters, inside⟩)
        .ok ⟨Function.update s.lettersPerWord ⟨s.letters, inside⟩ n, 0⟩
      else .error (.outOfBounds s.letters)
    else .ok { s with letters := 0 }
  else do
    let n ← increment s.letters
    .ok { s with letters := n }

def countWords (input : List Byte) : Except Fault Counters := input.foldlM count ⟨fun _ => 0, 0⟩

def words (input : List Byte) : List (List Byte) := (input.splitOnP isSeparator).filter (· ≠ [])

def ended : Nat → List Byte → List Nat
  | _, [] => []
  | k, c :: input => if isSeparator c then k :: ended 0 input else ended (k + 1) input

def pending : Nat → List Byte → Nat
  | k, [] => k
  | k, c :: input => if isSeparator c then pending 0 input else pending (k + 1) input

theorem splitOnP_lengths (k : Nat) (input : List Byte) :
    ((input.splitOnP isSeparator).map List.length).modifyHead (k + ·) = ended k input ++ [pending k input] := by
  induction input generalizing k with
  | nil => rfl
  | cons c input ih =>
      obtain ⟨first, others, parts⟩ :=
        List.exists_cons_of_ne_nil (List.splitOnP_ne_nil isSeparator input)
      simp only [parts, List.map_cons, List.modifyHead_cons] at ih
      rw [List.splitOnP_cons_eq_if_modifyHead, ended, pending, parts]
      split
      · rw [List.cons_append, ← ih 0]
        simp
      · rw [← ih (k + 1)]
        simp [Nat.add_assoc, Nat.add_comm 1]

theorem increment_ok {n : Nat} (small : n + 1 ≤ intMax) : increment n = .ok (n + 1) := if_pos small

theorem update_succ {size : Nat} (table : Fin size → Nat) (index L : Fin size) :
    Function.update table index (table index + 1) L = table L + [index.val].count L.val := by
  by_cases same : L = index
  · subst same
    simp
  · have differs : ¬index.val = L.val := fun eq => same (Fin.ext eq.symm)
    simp [Function.update_of_ne same, differs]

theorem exists_ended_ge (k : Nat) (input : List Byte) :
    ∃ n ∈ ended k input ++ [pending k input], k ≤ n := by
  induction input generalizing k with
  | nil => exact ⟨k, by simp [pending], le_rfl⟩
  | cons c input ih =>
      rw [ended, pending]
      split
      · exact ⟨k, by simp, le_rfl⟩
      · obtain ⟨n, member, longer⟩ := ih (k + 1)
        exact ⟨n, member, by omega⟩

/-- No counter of the loop overflows, and no stretch that a separator ends has `maxWordLength`
characters. -/
structure Countable (s : Counters) (input : List Byte) : Prop where
  letters : ∀ n ∈ ended s.letters input ++ [pending s.letters input], n ≤ intMax
  inside : ∀ n ∈ ended s.letters input, n ≠ maxWordLength
  counts : ∀ L : Fin maxWordLength,
    s.lettersPerWord L + (ended s.letters input).count L.val ≤ intMax

theorem increment_full {n : Nat} (full : ¬n + 1 ≤ intMax) : increment n = .error .overflow := if_neg full

variable {s : Counters} {input : List Byte} {c : Byte}

theorem countable_letter (separator : ¬isSeparator c = true) :
    Countable s (c :: input) ↔
      s.letters + 1 ≤ intMax ∧ Countable { s with letters := s.letters + 1 } input := by
  have same : ended s.letters (c :: input) = ended (s.letters + 1) input ∧
      pending s.letters (c :: input) = pending (s.letters + 1) input := by
    rw [ended, pending, if_neg separator, if_neg separator]
    exact ⟨rfl, rfl⟩
  constructor
  · rintro ⟨letters, inside, counts⟩
    rw [same.1, same.2] at letters
    rw [same.1] at inside
    simp only [same.1] at counts
    obtain ⟨n, member, longer⟩ := exists_ended_ge (s.letters + 1) input
    exact ⟨longer.trans (letters n member), letters, inside, counts⟩
  · rintro ⟨-, letters, inside, counts⟩
    rw [← same.1, ← same.2] at letters
    rw [← same.1] at inside
    simp only [← same.1] at counts
    exact ⟨letters, inside, counts⟩

theorem countable_separator (table : Fin maxWordLength → Nat) (separator : isSeparator c = true)
    (small : s.letters ≤ intMax)
    (one : ∀ L, table L = s.lettersPerWord L + [s.letters].count L.val) :
    Countable s (c :: input) ↔ s.letters ≠ maxWordLength ∧ Countable ⟨table, 0⟩ input := by
  have same : ended s.letters (c :: input) = s.letters :: ended 0 input ∧
      pending s.letters (c :: input) = pending 0 input := by
    rw [ended, pending, if_pos separator, if_pos separator]
    exact ⟨rfl, rfl⟩
  have total : ∀ L : Fin maxWordLength, table L + (ended 0 input).count L.val =
      s.lettersPerWord L + (s.letters :: ended 0 input).count L.val := by
    intro L
    rw [one, Nat.add_assoc, ← List.count_append, List.singleton_append]
  constructor
  · rintro ⟨letters, inside, counts⟩
    rw [same.1, same.2, List.cons_append] at letters
    rw [same.1] at inside
    refine ⟨inside _ List.mem_cons_self, fun n member => letters n (List.mem_cons_of_mem _ member),
      fun n member => inside n (List.mem_cons_of_mem _ member), ?_⟩
    intro L
    dsimp only
    rw [total, ← same.1]
    exact counts L
  · rintro ⟨differs, letters, inside, counts⟩
    refine ⟨?_, ?_, ?_⟩
    · rw [same.1, same.2, List.cons_append]
      exact List.forall_mem_cons.mpr ⟨small, letters⟩
    · rw [same.1]
      exact List.forall_mem_cons.mpr ⟨differs, inside⟩
    · intro L
      rw [same.1, ← total]
      exact counts L

def Counted (s : Counters) (input : List Byte) (final : Counters) : Prop :=
  ∀ L, final.lettersPerWord L = s.lettersPerWord L + (ended s.letters input).count L.val

theorem count_separator (separator : isSeparator c = true) (differs : s.letters ≠ maxWordLength)
    (room : ∀ L : Fin maxWordLength, s.lettersPerWord L + [s.letters].count L.val ≤ intMax) :
    ∃ table, count s c = .ok ⟨table, 0⟩ ∧
      ∀ L, table L = s.lettersPerWord L + [s.letters].count L.val := by
  rw [count, if_pos separator]
  by_cases inside : s.letters < maxWordLength
  · have enough := room ⟨s.letters, inside⟩
    rw [List.count_singleton_self] at enough
    rw [if_pos (Nat.le_of_lt inside), dif_pos inside, increment_ok enough]
    exact ⟨_, rfl, fun L => update_succ ..⟩
  · rw [if_neg (by omega)]
    refine ⟨_, rfl, ?_⟩
    intro L
    have other : s.letters ≠ L.val := by
      have := L.isLt
      omega
    rw [List.count_cons_of_ne other, List.count_nil, Nat.add_zero]

theorem count_refused (separator : isSeparator c = true)
    (refused : s.letters = maxWordLength ∨
      ∃ L : Fin maxWordLength, ¬s.lettersPerWord L + [s.letters].count L.val ≤ intMax)
    (bounded : ∀ L, s.lettersPerWord L ≤ intMax) : ∃ fault, count s c = .error fault := by
  rw [count, if_pos separator]
  rcases refused with full | ⟨L, full⟩
  · rw [if_pos full.le, dif_neg (by omega)]
    exact ⟨_, rfl⟩
  · have here : s.letters = L.val := by
      by_contra other
      rw [List.count_cons_of_ne other, List.count_nil] at full
      exact full (bounded L)
    have inside : s.letters < maxWordLength := here ▸ L.isLt
    rw [here, List.count_singleton_self] at full
    obtain rfl : L = ⟨s.letters, inside⟩ := Fin.ext here.symm
    rw [if_pos inside.le, dif_pos inside, increment_full full]
    exact ⟨_, rfl⟩

theorem foldlM_count (small : s.letters ≤ intMax) (bounded : ∀ L, s.lettersPerWord L ≤ intMax) :
    (∃ final, input.foldlM count s = .ok final ∧ Counted s input final) ∧ Countable s input ∨
      (∃ fault, input.foldlM count s = .error fault) ∧ ¬Countable s input := by
  induction input generalizing s with
  | nil =>
      refine Or.inl ⟨⟨s, rfl, fun L => rfl⟩, ?_, by simp [ended], bounded⟩
      simpa [ended, pending] using small
  | cons c input ih =>
      rw [List.foldlM_cons]
      by_cases separator : isSeparator c = true
      · by_cases accepted : s.letters ≠ maxWordLength ∧ ∀ L : Fin maxWordLength,
            s.lettersPerWord L + [s.letters].count L.val ≤ intMax
        · obtain ⟨table, counted, one⟩ := count_separator separator accepted.1 accepted.2
          rw [counted, countable_separator table separator small one]
          have fits : ∀ L, table L ≤ intMax := fun L => one L ▸ accepted.2 L
          rcases @ih ⟨table, 0⟩ (Nat.zero_le _) fits with ⟨⟨final, done, total⟩, countable⟩ | ⟨faulty, not⟩
          · refine Or.inl ⟨⟨final, done, ?_⟩, accepted.1, countable⟩
            intro L
            rw [total L, ended, if_pos separator]
            dsimp only
            rw [one L, Nat.add_assoc, ← List.count_append, List.singleton_append]
          · exact Or.inr ⟨faulty, fun both => not both.2⟩
        · rw [Decidable.not_and_iff_not_or_not, not_not, not_forall] at accepted
          obtain ⟨fault, refused⟩ := count_refused separator accepted bounded
          refine Or.inr ⟨⟨fault, by rw [refused]; rfl⟩, ?_⟩
          rintro ⟨-, inside, counts⟩
          rw [ended, if_pos separator] at inside counts
          rcases accepted with full | ⟨L, full⟩
          · exact inside _ List.mem_cons_self full
          · have first : [s.letters].Sublist (s.letters :: ended 0 input) :=
              List.singleton_sublist.mpr List.mem_cons_self
            exact full ((Nat.add_le_add_left (first.count_le L.val) _).trans (counts L))
      · rw [count, if_neg separator, countable_letter separator]
        by_cases room : s.letters + 1 ≤ intMax
        · rw [increment_ok room]
          rcases @ih { s with letters := s.letters + 1 } room bounded with
            ⟨⟨final, done, total⟩, countable⟩ | ⟨faulty, not⟩
          · refine Or.inl ⟨⟨final, done, ?_⟩, room, countable⟩
            intro L
            rw [total L, ended, if_neg separator]
          · exact Or.inr ⟨faulty, fun both => not both.2⟩
        · rw [increment_full room]
          exact Or.inr ⟨⟨_, rfl⟩, fun both => room both.1⟩

theorem lengths_pieces (input : List Byte) :
    (input.splitOnP isSeparator).map List.length = ended 0 input ++ [pending 0 input] := by
  have whole := splitOnP_lengths 0 input
  obtain ⟨first, others, parts⟩ := List.exists_cons_of_ne_nil (List.splitOnP_ne_nil isSeparator input)
  rw [parts, List.map_cons, List.modifyHead_cons, Nat.zero_add] at whole
  rw [parts, List.map_cons, whole]

theorem countP_words (input : List Byte) {L : Nat} (positive : 1 ≤ L) :
    (words input).countP (·.length = L) = (ended 0 input ++ [pending 0 input]).count L := by
  rw [← lengths_pieces, words, List.countP_filter, List.count, List.countP_map]
  apply List.countP_congr
  intro piece member
  simp only [Bool.and_eq_true, decide_eq_true_eq, Function.comp_apply, beq_iff_eq, and_iff_left_iff_imp]
  rintro size rfl
  simp only [List.length_nil] at size
  omega

/-- The table holds the number of words of each length exactly when the loop runs to its end and what
follows the last separator is empty or too long for the table. -/
theorem countWords_table (input : List Byte) :
    (∃ final, countWords input = .ok final ∧ ∀ L : Fin maxWordLength, 1 ≤ L.val →
        final.lettersPerWord L = (words input).countP (·.length = L.val)) ↔
      Countable ⟨fun _ => 0, 0⟩ input ∧ (pending 0 input = 0 ∨ maxWordLength ≤ pending 0 input) := by
  have exactly : ∀ final, Counted ⟨fun _ => 0, 0⟩ input final →
      ((∀ L : Fin maxWordLength, 1 ≤ L.val →
        final.lettersPerWord L = (words input).countP (·.length = L.val)) ↔
          pending 0 input = 0 ∨ maxWordLength ≤ pending 0 input) := by
    intro final total
    have missing : ∀ L : Fin maxWordLength, 1 ≤ L.val →
        (final.lettersPerWord L = (words input).countP (·.length = L.val) ↔ pending 0 input ≠ L.val) := by
      intro L positive
      rw [total L, countP_words input positive, List.count_append, List.count_singleton]
      simp
    constructor
    · intro right
      by_contra word
      push Not at word
      exact (missing ⟨pending 0 input, word.2⟩ (Nat.pos_of_ne_zero word.1)).mp
        (right _ (Nat.pos_of_ne_zero word.1)) rfl
    · intro lost L positive
      refine (missing L positive).mpr ?_
      have := L.isLt
      omega
  rcases @foldlM_count ⟨fun _ => 0, 0⟩ input (Nat.zero_le _) (fun _ => Nat.zero_le _) with
    ⟨⟨final, done, total⟩, countable⟩ | ⟨⟨fault, stopped⟩, not⟩
  · rw [countWords, done]
    simp [countable, exactly final total]
  · rw [countWords, stopped]
    simp [not]

theorem countWords_table_two :
    ∃ final, countWords [97, 32, 98, 99, 10] = .ok final ∧ final.lettersPerWord 1 = 1 ∧
      final.lettersPerWord 2 = 1 := by
  have countable : Countable ⟨fun _ => 0, 0⟩ [97, 32, 98, 99, 10] := ⟨by decide, by decide, by decide⟩
  obtain ⟨final, done, total⟩ := (countWords_table [97, 32, 98, 99, 10]).mpr ⟨countable, by decide⟩
  exact ⟨final, done, total 1 (by decide), total 2 (by decide)⟩

/-- A word at the end of the input is not counted, and a word of 26 characters is counted behind
the table. -/
theorem countWords_loses_last :
    ((countWords [97]).toOption.map fun final => final.lettersPerWord 1) = some 0 ∧
      (words [97]).countP (·.length = 1) = 1 ∧
      ((countWords (List.replicate 26 97 ++ [10])).map fun _ => ()) = .error (.outOfBounds 26) := by
  decide

end OsLabs.Histogram
