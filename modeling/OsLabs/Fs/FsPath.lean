import Mathlib.Data.List.DropRight
import Mathlib.Data.List.TakeWhile
import OsLabs.Fs.FsDirMap

/-!
Paths: `skipelem` and `namex` of `fs.c`. A path is the list of its characters before the zero. Looking a path up is a
fold of lookups in directories over its components, and the only reference it adds is to the inode it returns.
-/

namespace OsLabs.Fs

open Function OsLabs.ByteField OsLabs.Outcomes OsLabs.SlotMap

def slash : BitVec 8 := 47

def rootino : Nat := 1

def skipelem (path : List (BitVec 8)) (name : Chars) : Option (List (BitVec 8) × Chars) :=
  let path := path.dropWhile (· == slash)
  if path = [] then none
  else
    let elem := path.takeWhile (· != slash)
    let path := path.dropWhile (· != slash)
    let name :=
      if dirsiz ≤ elem.length then blit name 0 (elem.take dirsiz)
      else update (blit name 0 elem) elem.length 0
    some (path.dropWhile (· == slash), name)

section Components

variable {path rest elem tail : List (BitVec 8)} {name name' : Chars}

/-- The non-empty pieces of a path between slashes, cut to the length of a name. -/
def components (path : List (BitVec 8)) : List (List (BitVec 8)) :=
  ((path.splitOn slash).filter (· ≠ [])).map (List.take dirsiz)

theorem components_slash (path : List (BitVec 8)) : components (slash :: path) = components path := by
  rw [components, List.splitOn_cons_eq_if_modifyHead, if_pos (beq_self_eq_true slash)]
  rfl

theorem components_dropWhile (path : List (BitVec 8)) : components (path.dropWhile (· == slash)) = components path := by
  induction path with
  | nil => rfl
  | cons c cs ih =>
      by_cases skipped : c = slash
      · rw [List.dropWhile_cons_of_pos (by simpa using skipped), ih, skipped, components_slash]
      · rw [List.dropWhile_cons_of_neg (by simpa using skipped)]

theorem components_elem (some : elem ≠ []) (inside : slash ∉ elem) (tail : List (BitVec 8)) :
    components (elem ++ slash :: tail) = elem.take dirsiz :: components tail := by
  rw [components, List.splitOn_append_cons_self_of_not_mem inside, List.filter_cons_of_pos (by simpa using some),
    List.map_cons, components]

theorem components_last (some : elem ≠ []) (inside : slash ∉ elem) : components elem = [elem.take dirsiz] := by
  rw [components, List.splitOn_eq_singleton inside, List.filter_cons_of_pos (by simpa using some)]
  rfl

theorem skipelem_cases (path : List (BitVec 8)) (name : Chars) :
    skipelem path name = none ∧ path.dropWhile (· == slash) = [] ∨
      ∃ elem tail, skipelem path name = some (tail.dropWhile (· == slash),
          if dirsiz ≤ elem.length then blit name 0 (elem.take dirsiz)
          else update (blit name 0 elem) elem.length 0) ∧
        path.dropWhile (· == slash) = elem ++ tail ∧ elem ≠ [] ∧ slash ∉ elem ∧
        (tail = [] ∨ ∃ after, tail = slash :: after) := by
  rw [skipelem]
  dsimp only
  by_cases ended : path.dropWhile (· == slash) = []
  · exact Or.inl ⟨if_pos ended, ended⟩
  · have first : ((path.dropWhile (· == slash)).head ended == slash) = false := List.head_dropWhile_not _ ended
    refine Or.inr ⟨_, _, if_neg ended, List.takeWhile_append_dropWhile.symm, ?_, fun inside => ?_, ?_⟩
    · rw [Ne, List.takeWhile_eq_nil_iff]
      intro none
      have other := none (List.length_pos_iff.mpr ended)
      rw [List.head_eq_getElem] at first
      simp [bne, first] at other
    · have other := List.mem_takeWhile_imp inside
      exact absurd other (by decide)
    · by_cases last : (path.dropWhile (· == slash)).dropWhile (· != slash) = []
      · exact Or.inl last
      · have stop := List.head_dropWhile_not (· != slash) last
        have head := List.cons_head_tail last
        rw [show (List.dropWhile _ _).head last = slash by simpa using stop] at head
        exact Or.inr ⟨_, head.symm⟩

theorem components_parts (parts : path.dropWhile (· == slash) = elem ++ tail) (used : elem ≠ []) (inside : slash ∉ elem)
    (after : tail = [] ∨ ∃ after, tail = slash :: after) : components path = elem.take dirsiz :: components tail := by
  rw [← components_dropWhile, parts]
  obtain rfl | ⟨after, rfl⟩ := after
  · rw [List.append_nil, components_last used inside]
    rfl
  · rw [components_elem used inside, components_slash]

theorem components_eq_nil : components path = [] ↔ path.dropWhile (· == slash) = [] := by
  constructor
  · intro none
    obtain ⟨-, ended⟩ | ⟨elem, tail, -, parts, used, inside, after⟩ := skipelem_cases path fun _ => 0
    · exact ended
    · rw [components_parts parts used inside after] at none
      cases none
  · intro ended
    rw [← components_dropWhile, ended]
    rfl

theorem text_eq_self {chars : List (BitVec 8)} (ended : 0 ∉ chars) : text chars = chars := by
  rw [text, List.takeWhile_eq_self_iff]
  intro c member
  exact decide_eq_true fun zero => ended (zero ▸ member)

theorem text_append_zero {chars : List (BitVec 8)} (ended : 0 ∉ chars) (more : List (BitVec 8)) :
    text (chars ++ 0 :: more) = chars := by
  rw [text, List.takeWhile_append_of_pos, List.takeWhile_cons_of_neg (by decide), List.append_nil]
  intro c member
  exact decide_eq_true fun zero => ended (zero ▸ member)

theorem nameKey_elem (name : Chars) (ended : 0 ∉ elem) :
    nameKey (if dirsiz ≤ elem.length then blit name 0 (elem.take dirsiz)
      else update (blit name 0 elem) elem.length 0) = elem.take dirsiz := by
  by_cases long : dirsiz ≤ elem.length
  · have size : (elem.take dirsiz).length = dirsiz := List.length_take_of_le long
    have stored := slice_blit name 0 (elem.take dirsiz)
    rw [size] at stored
    rw [if_pos long, nameKey, stored, text_eq_self fun inside => ended (List.mem_of_mem_take inside)]
  · have front : slice (update (blit name 0 elem) elem.length 0) 0 elem.length = elem := by
      refine Eq.trans (slice_congr fun index _ inside => ?_) (slice_blit name 0 elem)
      exact update_of_ne (by omega) _ _
    obtain ⟨left, room⟩ : ∃ left, dirsiz = elem.length + (left + 1) := ⟨dirsiz - elem.length - 1, by omega⟩
    rw [if_neg long, nameKey, room, slice_add, front, Nat.zero_add, slice_succ, update_self,
      text_append_zero ended, List.take_of_length_le (by omega)]

theorem skipelem_none (taken : skipelem path name = none) : components path = [] := by
  obtain ⟨-, ended⟩ | ⟨elem, tail, some, -⟩ := skipelem_cases path name
  · exact components_eq_nil.mpr ended
  · rw [some] at taken
    cases taken

theorem skipelem_some (ended : 0 ∉ path) (taken : skipelem path name = some (rest, name')) :
    components path = nameKey name' :: components rest ∧ 0 ∉ rest ∧ (rest = [] ↔ components rest = []) := by
  obtain ⟨none, -⟩ | ⟨elem, tail, some, parts, used, inside, after⟩ := skipelem_cases path name
  · rw [none] at taken
    cases taken
  · rw [some, Option.some.injEq, Prod.mk.injEq] at taken
    obtain ⟨rfl, rfl⟩ := taken
    have none : 0 ∉ elem ++ tail := parts ▸ fun zero => ended ((List.dropWhile_sublist _).mem zero)
    rw [List.mem_append, not_or] at none
    refine ⟨?_, fun zero => none.2 ((List.dropWhile_sublist _).mem zero), ?_⟩
    · rw [components_parts parts used inside after, nameKey_elem name none.1, components_dropWhile]
    · rw [components_eq_nil, List.dropWhile_idempotent]

end Components

theorem skipelem_shorter {path rest : List (BitVec 8)} {name name' : Chars}
    (taken : skipelem path name = some (rest, name')) : rest.length < path.length := by
  have first := (List.dropWhile_sublist (l := path) (· == slash)).length_le
  obtain ⟨none, -⟩ | ⟨elem, tail, some, parts, used, -⟩ := skipelem_cases path name
  · rw [none] at taken
    cases taken
  · rw [some, Option.some.injEq, Prod.mk.injEq] at taken
    have last := (List.dropWhile_sublist (l := tail) (· == slash)).length_le
    have positive := List.length_pos_iff.mpr used
    rw [parts, List.length_append] at first
    rw [← taken.1]
    omega

namespace Mount

variable (sb : Layout)

def namexLoop (parent : Bool) (s : Mount) (ip : Fin ninode) (path : List (BitVec 8)) (name : Chars) :
    Except DirFailure (Option (Fin ninode) × Chars × Mount) :=
  match _taken : skipelem path name with
  | none =>
      if parent then do
        let s ← (s.iput sb ip).mapError .fs
        return (none, name, s)
      else return (some ip, name, s)
  | some (rest, name) => do
      let s ← (s.ilock sb ip).mapError .fs
      if (s.icache ip).copy.type ≠ tDir then
        let s ← (s.iput sb ip).mapError .fs
        return (none, name, s)
      else if parent ∧ rest = [] then return (some ip, name, s)
      else
        let (next, s) ← s.dirlookup sb ip name
        match next with
        | none =>
            let s ← (s.iput sb ip).mapError .fs
            return (none, name, s)
        | some (_, next) =>
            let s ← (s.iput sb ip).mapError .fs
            namexLoop parent s next rest name
termination_by path.length
decreasing_by exact skipelem_shorter _taken

/-- `namex` in a process with the current directory `cwd`. -/
def namex (s : Mount) (cwd : Fin ninode) (path : List (BitVec 8)) (parent : Bool) (name : Chars) :
    Except DirFailure (Option (Fin ninode) × Chars × Mount) :=
  if path.head? = some slash then do
    let (ip, s) ← (s.iget rootino).mapError .fs
    s.namexLoop sb parent ip path name
  else (s.idup cwd).namexLoop sb parent cwd path name

end Mount

end OsLabs.Fs
