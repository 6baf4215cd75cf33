import Mathlib.Data.List.Nodup
import Mathlib.Tactic.Common

/-!
Finite maps kept in a row of slots, each with an entry or empty. A key is looked up from the front. An entry is put
into the first empty slot, or behind the last one, and removed by emptying its slot.
-/

namespace OsLabs.SlotMap

variable {κ ν : Type*} {slots before after : List (Option (κ × ν))} {key other : κ} {value : ν}

def keys (slots : List (Option (κ × ν))) : List κ := slots.filterMap fun slot => slot.map Prod.fst

def Distinct (slots : List (Option (κ × ν))) : Prop := (keys slots).Nodup

def firstFree (slots : List (Option (κ × ν))) : Nat := slots.findIdx Option.isNone

/-- The slots with the one at an index replaced, or one more behind the last. -/
def put (slots : List (Option (κ × ν))) (index : Nat) (slot : Option (κ × ν)) : List (Option (κ × ν)) :=
  slots.take index ++ slot :: slots.drop (index + 1)

@[simp] theorem keys_append (before after : List (Option (κ × ν))) : keys (before ++ after) = keys before ++ keys after :=
  List.filterMap_append

@[simp] theorem keys_cons_none (after : List (Option (κ × ν))) : keys (none :: after) = keys after := rfl

@[simp] theorem keys_cons_some (entry : κ × ν) (after : List (Option (κ × ν))) :
    keys (some entry :: after) = entry.1 :: keys after := rfl

theorem distinct_empty (distinct : Distinct (before ++ some (key, value) :: after)) :
    Distinct (before ++ none :: after) := by
  rw [Distinct, keys_append, keys_cons_some, List.nodup_middle] at distinct
  rw [Distinct, keys_append, keys_cons_none]
  exact (List.nodup_cons.mp distinct).2

theorem around_firstFree (slots : List (Option (κ × ν))) :
    slots = slots.take (firstFree slots) ++ none :: slots.drop (firstFree slots + 1) ∨
      slots = slots.take (firstFree slots) ∧ slots.drop (firstFree slots + 1) = [] := by
  by_cases inside : firstFree slots < slots.length
  · left
    have free : slots[firstFree slots] = none := Option.isNone_iff_eq_none.mp (List.findIdx_getElem (w := inside))
    rw [← free, ← List.drop_eq_getElem_cons, List.take_append_drop]
  · exact Or.inr ⟨(List.take_of_length_le (by omega)).symm, List.drop_of_length_le (by omega)⟩

theorem keys_around (slots : List (Option (κ × ν))) :
    keys (slots.take (firstFree slots) ++ slots.drop (firstFree slots + 1)) = keys slots := by
  rcases around_firstFree slots with free | ⟨whole, rest⟩
  · conv_rhs => rw [free, keys_append, keys_cons_none]
    rw [keys_append]
  · rw [rest, List.append_nil, ← whole]

theorem around_entry {index : Nat} (held : slots[index]? = some (some (key, value))) :
    slots = slots.take index ++ some (key, value) :: slots.drop (index + 1) := by
  obtain ⟨inside, entry⟩ := List.getElem?_eq_some_iff.mp held
  rw [← entry, ← List.drop_eq_getElem_cons, List.take_append_drop]

theorem distinct_clear {index : Nat} (distinct : Distinct slots) (held : slots[index]? = some (some (key, value))) :
    Distinct (put slots index none) := by
  rw [around_entry held] at distinct
  exact distinct_empty distinct

section Lookup

variable [DecidableEq κ]

def entryFor (key : κ) (slot : Option (κ × ν)) : Option ν :=
  slot.bind fun entry => if entry.1 = key then some entry.2 else none

def lookup (slots : List (Option (κ × ν))) (key : κ) : Option ν := slots.findSome? (entryFor key)

def position (slots : List (Option (κ × ν))) (key : κ) : Nat := slots.findIdx fun slot => (entryFor key slot).isSome

@[simp] theorem entryFor_none (key : κ) : entryFor key (none : Option (κ × ν)) = none := rfl

theorem entryFor_some (key other : κ) (value : ν) :
    entryFor other (some (key, value)) = if other = key then some value else none := by
  rw [entryFor, Option.bind_some]
  by_cases same : other = key
  · rw [if_pos same, if_pos same.symm]
  · rw [if_neg same, if_neg (Ne.symm same)]

theorem lookup_append (before after : List (Option (κ × ν))) (key : κ) :
    lookup (before ++ after) key = (lookup before key).or (lookup after key) := List.findSome?_append

theorem lookup_cons (slot : Option (κ × ν)) (after : List (Option (κ × ν))) (key : κ) :
    lookup (slot :: after) key = (entryFor key slot).or (lookup after key) := by
  rw [lookup, List.findSome?_cons]
  cases entryFor key slot <;> rfl

theorem lookup_eq_none_iff : lookup slots key = none ↔ key ∉ keys slots := by
  induction slots with
  | nil => exact iff_of_true rfl List.not_mem_nil
  | cons slot rest ih =>
      rw [lookup_cons, Option.or_eq_none_iff, ih]
      cases slot with
      | none => simp
      | some entry =>
          obtain ⟨first, value⟩ := entry
          rw [keys_cons_some, List.mem_cons, not_or, entryFor_some]
          refine and_congr_left' ?_
          by_cases same : key = first
          · simp [same]
          · simp [same]

theorem lookup_skip (before after : List (Option (κ × ν))) (key : κ) :
    lookup (before ++ none :: after) key = lookup (before ++ after) key := by
  rw [lookup_append, lookup_cons, entryFor_none, Option.none_or, lookup_append]

theorem lookup_fill (absent : lookup (before ++ after) key = none) (value : ν) (other : κ) :
    lookup (before ++ some (key, value) :: after) other =
      if other = key then some value else lookup (before ++ after) other := by
  rw [lookup_append, Option.or_eq_none_iff] at absent
  rw [lookup_append, lookup_cons, entryFor_some, lookup_append]
  by_cases same : other = key
  · rw [if_pos same, if_pos same, same, absent.1, Option.none_or, Option.some_or]
  · rw [if_neg same, if_neg same, Option.none_or]

theorem distinct_fill (distinct : Distinct (before ++ after)) (absent : lookup (before ++ after) key = none) (value : ν) :
    Distinct (before ++ some (key, value) :: after) := by
  rw [lookup_eq_none_iff, keys_append] at absent
  rw [Distinct, keys_append] at distinct
  rw [Distinct, keys_append, keys_cons_some, List.nodup_middle]
  exact List.nodup_cons.mpr ⟨absent, distinct⟩

theorem absent_of_distinct (distinct : Distinct (before ++ some (key, value) :: after)) :
    lookup (before ++ after) key = none := by
  rw [Distinct, keys_append, keys_cons_some, List.nodup_middle] at distinct
  rw [lookup_eq_none_iff, keys_append]
  exact (List.nodup_cons.mp distinct).1

theorem lookup_empty (distinct : Distinct (before ++ some (key, value) :: after)) (other : κ) :
    lookup (before ++ none :: after) other =
      if other = key then none else lookup (before ++ some (key, value) :: after) other := by
  have absent := absent_of_distinct distinct
  rw [lookup_skip, lookup_fill absent]
  by_cases same : other = key
  · rw [if_pos same, same, absent]
  · rw [if_neg same, if_neg same]

theorem lookup_around (slots : List (Option (κ × ν))) (key : κ) :
    lookup (slots.take (firstFree slots) ++ slots.drop (firstFree slots + 1)) key = lookup slots key := by
  rcases around_firstFree slots with free | ⟨whole, rest⟩
  · conv_rhs => rw [free, lookup_skip]
  · rw [rest, List.append_nil, ← whole]

theorem lookup_put (absent : lookup slots key = none) (value : ν) (other : κ) :
    lookup (put slots (firstFree slots) (some (key, value))) other =
      if other = key then some value else lookup slots other := by
  rw [← lookup_around] at absent
  rw [put, lookup_fill absent, lookup_around]

theorem distinct_put (distinct : Distinct slots) (absent : lookup slots key = none) (value : ν) :
    Distinct (put slots (firstFree slots) (some (key, value))) := by
  rw [← lookup_around] at absent
  rw [Distinct, ← keys_around] at distinct
  exact distinct_fill distinct absent value

theorem entryFor_eq_some {slot : Option (κ × ν)} (found : entryFor key slot = some value) : slot = some (key, value) := by
  cases slot with
  | none => cases found
  | some entry =>
      obtain ⟨first, second⟩ := entry
      rw [entryFor_some] at found
      by_cases same : key = first
      · rw [if_pos same, Option.some.injEq] at found
        rw [same, found]
      · rw [if_neg same] at found
        cases found

theorem getElem?_position (found : lookup slots key = some value) :
    slots[position slots key]? = some (some (key, value)) := by
  induction slots with
  | nil => cases found
  | cons slot rest ih =>
      rw [lookup_cons] at found
      rw [position, List.findIdx_cons]
      cases here : entryFor key slot with
      | none =>
          rw [here, Option.none_or] at found
          exact ih found
      | some first =>
          rw [here, Option.some_or, Option.some.injEq] at found
          rw [Option.isSome_some, cond_true, List.getElem?_cons_zero, entryFor_eq_some here, found]

theorem lookup_clear {index : Nat} (distinct : Distinct slots) (held : slots[index]? = some (some (key, value)))
    (other : κ) : lookup (put slots index none) other = if other = key then none else lookup slots other := by
  have parts := around_entry held
  rw [parts] at distinct
  rw [put, lookup_empty distinct, ← parts]

end Lookup

end OsLabs.SlotMap
