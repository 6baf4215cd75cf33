import Mathlib.Data.Fin.Basic
import Mathlib.Tactic.Common

/-!
Positions on a circle of `n` slots: stepping forward from a slot, the forward gap
between two slots, and the search loop that visits the other slots in that order.
-/

namespace OsLabs.Cyclic

variable {n : Nat}

def advance (cursor : Fin n) : Fin n := ⟨(cursor.val + 1) % n, Nat.mod_lt _ cursor.pos⟩

theorem advance_val (cursor : Fin n) : (advance cursor).val = (cursor.val + 1) % n := rfl

def offsetFrom (cursor : Fin n) (offset : Nat) : Fin n :=
  ⟨(cursor.val + offset) % n, Nat.mod_lt _ cursor.pos⟩

theorem offsetFrom_advance (cursor : Fin n) (offset : Nat) :
    offsetFrom (advance cursor) offset = offsetFrom cursor (offset + 1) := by
  apply Fin.ext
  simp only [offsetFrom, advance, Nat.mod_add_mod]
  congr 1
  omega

theorem offsetFrom_spec (cursor : Fin n) {offset : Nat} (bound : offset ≤ n) :
    cursor.val + offset = (offsetFrom cursor offset).val ∨
      cursor.val + offset = (offsetFrom cursor offset).val + n := by
  have below := cursor.isLt
  simp only [offsetFrom]
  by_cases wraps : cursor.val + offset < n
  · rw [Nat.mod_eq_of_lt wraps]
    exact Or.inl rfl
  · rw [Nat.mod_eq_sub_mod (by omega), Nat.mod_eq_of_lt (by omega)]
    omega

theorem offsetFrom_eq_cursor (cursor : Fin n) {offset : Nat} (bound : offset ≤ n) :
    offsetFrom cursor offset = cursor ↔ offset = 0 ∨ offset = n := by
  have reached := offsetFrom_spec cursor bound
  have positive := cursor.pos
  rw [Fin.ext_iff]
  omega

def gap (source target : Fin n) : Nat := (target.val + n - source.val) % n

theorem gap_lt (source target : Fin n) : gap source target < n :=
  Nat.mod_lt _ source.pos

theorem gap_spec (source target : Fin n) :
    source.val + gap source target = target.val ∨ source.val + gap source target = target.val + n := by
  have below := source.isLt
  have inside := target.isLt
  simp only [gap]
  by_cases ahead : source.val ≤ target.val
  · rw [Nat.mod_eq_sub_mod (by omega), Nat.mod_eq_of_lt (by omega)]
    omega
  · rw [Nat.mod_eq_of_lt (by omega)]
    omega

theorem gap_self (source : Fin n) : gap source source = 0 := by
  have bound := gap_lt source source
  have reached := gap_spec source source
  omega

theorem gap_pos {source target : Fin n} (different : target ≠ source) : 0 < gap source target := by
  have inside := target.isLt
  have reached := gap_spec source target
  have apart : target.val ≠ source.val := fun same => different (Fin.ext same)
  omega

theorem offsetFrom_gap (source target : Fin n) : offsetFrom source (gap source target) = target := by
  have inside := target.isLt
  have stop := (offsetFrom source (gap source target)).isLt
  have reached := gap_spec source target
  have stopped := offsetFrom_spec source (gap_lt source target).le
  exact Fin.ext (by omega)

theorem gap_offsetFrom (source : Fin n) {offset : Nat} (bound : offset < n) :
    gap source (offsetFrom source offset) = offset := by
  have reached := gap_spec source (offsetFrom source offset)
  have length := gap_lt source (offsetFrom source offset)
  have stopped := offsetFrom_spec source bound.le
  omega

theorem gap_split {source middle target : Fin n} (onTheWay : gap source middle ≤ gap source target) :
    gap source middle + gap middle target = gap source target := by
  have whole := gap_spec source target
  have first := gap_spec source middle
  have second := gap_spec middle target
  have firstBound := gap_lt source middle
  have secondBound := gap_lt middle target
  have wholeBound := gap_lt source target
  omega

theorem exists_offset (cursor index : Fin n) : ∃ offset : Fin n, offsetFrom cursor offset.val = index :=
  ⟨⟨gap cursor index, gap_lt cursor index⟩, offsetFrom_gap cursor index⟩

/-- The search loop: visit `remaining` slots from `offset` on and stop at the first
one accepted. It answers the last slot visited and the slot accepted, if any. -/
def search (accept : Fin n → Bool) (last : Fin n) : Nat → Nat → Fin n → Fin n × Option (Fin n)
  | 0, _, visited => (visited, none)
  | remaining + 1, offset, _ =>
      if accept (offsetFrom last offset) then (offsetFrom last offset, some (offsetFrom last offset))
      else search accept last remaining (offset + 1) (offsetFrom last offset)

theorem search_some (accept : Fin n → Bool) (last visited chosen : Fin n) (remaining offset : Nat)
    (found : (search accept last remaining offset visited).2 = some chosen) :
    ∃ stop, offset ≤ stop ∧ stop < offset + remaining ∧ offsetFrom last stop = chosen ∧
      accept chosen = true ∧
      ∀ earlier, offset ≤ earlier → earlier < stop → accept (offsetFrom last earlier) = false := by
  induction remaining generalizing offset visited with
  | zero => simp [search] at found
  | succ remaining ih =>
      rw [search] at found
      split at found
      next accepted =>
        simp only [Option.some.injEq] at found
        exact ⟨offset, by omega, by omega, found, found ▸ accepted, by omega⟩
      next rejected =>
        obtain ⟨stop, lower, upper, reached, accepted, before⟩ := ih _ (offset + 1) found
        refine ⟨stop, by omega, by omega, reached, accepted, ?_⟩
        intro earlier above below
        by_cases here : earlier = offset
        · simpa [here] using rejected
        · exact before earlier (by omega) below

theorem search_none (accept : Fin n → Bool) (last visited : Fin n) (remaining offset : Nat)
    (missing : (search accept last remaining offset visited).2 = none) (index : Nat)
    (lower : offset ≤ index) (upper : index < offset + remaining) :
    accept (offsetFrom last index) = false := by
  induction remaining generalizing offset visited with
  | zero => omega
  | succ remaining ih =>
      rw [search] at missing
      split at missing
      next => simp at missing
      next rejected =>
        by_cases here : index = offset
        · simpa [here] using rejected
        · exact ih _ (offset + 1) missing (by omega) (by omega)

def firstAfter (accept : Fin n → Bool) (last : Fin n) : Option (Fin n) :=
  (search accept last (n - 1) 1 last).2

theorem firstAfter_some {accept : Fin n → Bool} {last chosen : Fin n}
    (found : firstAfter accept last = some chosen) :
    accept chosen = true ∧ chosen ≠ last ∧
      ∀ other, other ≠ last → accept other = true → gap last chosen ≤ gap last other := by
  obtain ⟨stop, lower, upper, reached, accepted, before⟩ := search_some _ _ _ _ _ _ found
  have length : gap last chosen = stop := by rw [← reached, gap_offsetFrom last (by omega)]
  refine ⟨accepted, ?_, ?_⟩
  · intro same
    rw [same, gap_self] at length
    omega
  · intro other different otherAccepted
    by_contra shorter
    have rejected := before (gap last other) (gap_pos different) (by omega)
    rw [offsetFrom_gap, otherAccepted] at rejected
    contradiction

theorem firstAfter_none {accept : Fin n → Bool} {last other : Fin n}
    (missing : firstAfter accept last = none) (different : other ≠ last) : accept other = false := by
  have positive := gap_pos different
  have bound := gap_lt last other
  have rejected := search_none _ _ _ _ _ missing (gap last other) positive (by omega)
  rwa [offsetFrom_gap] at rejected

/-- The next slot chosen after `last`, when `waiting` is acceptable, stays on the way
from `start` to `waiting`: it cannot pass `waiting`, nor come back to `start`. -/
theorem firstAfter_onTheWay {accept : Fin n → Bool} {start last chosen waiting : Fin n}
    (found : firstAfter accept last = some chosen) (accepted : accept waiting = true)
    (onTheWay : gap start last < gap start waiting) (passed : chosen ≠ waiting) :
    gap start chosen < gap start waiting ∧ chosen ≠ start := by
  obtain ⟨_, moved, first⟩ := firstAfter_some found
  have apart : waiting ≠ last := by
    intro same
    rw [same] at onTheWay
    omega
  have total := gap_split onTheWay.le
  have remaining := gap_split (first waiting apart accepted)
  have ahead := gap_pos (Ne.symm passed)
  have progress := gap_pos moved
  have here := gap_spec start last
  have there := gap_spec start chosen
  have step := gap_spec last chosen
  have bound := gap_lt start waiting
  have hereBound := gap_lt start chosen
  have sum : gap start chosen = gap start last + gap last chosen := by omega
  refine ⟨by omega, ?_⟩
  intro same
  have returned : gap start chosen = 0 := by rw [same, gap_self]
  omega

end OsLabs.Cyclic
