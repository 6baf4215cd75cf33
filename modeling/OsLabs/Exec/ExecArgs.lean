import Mathlib.Tactic.Abel
import OsLabs.Exec.ExecLoad

/-!
The arguments of `exec`. Strings and `ustack` are written downwards into the stack page, so later writes stay below
earlier ones; the first write that does not fit begins in the guard page and is refused.
-/

namespace OsLabs.Exec

open Function ByteField Holdings Outcomes Vm

variable {k : Kernel} {m m' m₀ : Mem} {s : Space} {guard o : Nat} {f : Frame} {buf : List Byte}

section Page

structure StackPage (s : Space) (guard : Nat) (f : Frame) : Prop where
  stack : s.userAt (guard + 1) = some f
  hidden : s.userAt guard = none
  table : (s.table (pdx guard)).isSome
  low : (guard + 2) * pgsize < kernbase

theorem Loaded.stackPage {sz : Nat} (loaded : Loaded k m₀ m s sz guard) :
    ∃ f, StackPage s guard f ∧ f ∈ s.frames := by
  have low := loaded.image.filled.lt_kernbase loaded.sane
  have user : guard + 1 < userPages := by
    simp only [userPages, kernbase, pgsize] at *
    omega
  have present (v : Nat) (below : v < guard + 2) (inside : v < userPages) : ∃ pte, s.lookup v = some pte :=
    Option.isSome_iff_exists.mp ((loaded.image.filled v inside).mpr (by rw [pages_mul]; exact below))
  obtain ⟨p, here⟩ := present (guard + 1) (by omega) user
  obtain ⟨q, there⟩ := present guard (by omega) (by omega)
  have shown := loaded.image.users _ user p here
  have hidden := loaded.image.users guard (by omega) q there
  refine ⟨p.frame, ⟨?_, ?_, table_of_lookup there, low⟩, Sane.frame_mem user here⟩
  · rw [Space.userAt, here, Option.bind_some, shown]
    simp
  · rw [Space.userAt, there, Option.bind_some, hidden]
    simp

theorem copyout_stack (page : StackPage s guard f) (some : buf ≠ []) (fits : o + buf.length ≤ pgsize) :
    copyout m s ((guard + 1) * pgsize + o) buf = .ok (m.write f o buf, true) := by
  have length := List.length_pos_of_ne_nil some
  have number : ((guard + 1) * pgsize + o) / pgsize = guard + 1 := by
    simp only [pgsize] at *
    omega
  have offset : ((guard + 1) * pgsize + o) % pgsize = o := by
    simp only [pgsize] at *
    omega
  have all : chunk ((guard + 1) * pgsize + o) buf = buf.length := by
    rw [chunk, offset]
    omega
  rw [copyout, show buf.length = buf.length - 1 + 1 by omega,
    copyoutLoop_user some (by rw [number]; exact page.stack), all, offset, List.drop_length, List.take_length,
    copyoutLoop]
  rfl

theorem copyout_guard {va : Nat} (page : StackPage s guard f) (some : buf ≠ []) (low : guard * pgsize ≤ va)
    (high : va < (guard + 1) * pgsize) : copyout m s va buf = .ok (m, false) := by
  have length := List.length_pos_of_ne_nil some
  have number : va / pgsize = guard := by
    simp only [pgsize] at *
    omega
  rw [copyout, show buf.length = buf.length - 1 + 1 by omega]
  refine copyoutLoop_refused some ?_ ?_
  · rw [number]
    exact page.table
  · rw [number]
    exact page.hidden

end Page

section Push

def room (arg : List Byte) : Nat := (arg.length + 1 + 3) / 4 * 4

def stringRoom (argv : List (List Byte)) : Nat := (argv.map room).sum

theorem minus_fits {n : Nat} (low : (guard + 2) * pgsize < kernbase) (top : o ≤ pgsize) (fits : n ≤ o) :
    minus ((guard + 1) * pgsize + o) n = (guard + 1) * pgsize + (o - n) := by
  simp only [minus, kernbase, uintRange, pgsize] at *
  omega

theorem minus_below {n : Nat} (low : (guard + 2) * pgsize < kernbase) (small : n ≤ pgsize) (spills : o < n) :
    guard * pgsize ≤ minus ((guard + 1) * pgsize + o) n ∧ minus ((guard + 1) * pgsize + o) n < (guard + 1) * pgsize := by
  simp only [minus, kernbase, uintRange, pgsize] at *
  omega

def StringsAt (bytes : Bytes) (low high : Nat) : List (List Byte) → List Nat → Prop :=
  List.Forall₂ fun arg x => low ≤ x ∧ x + arg.length + 1 ≤ high ∧ slice bytes x (arg.length + 1) = arg ++ [0]

structure Pushes (f : Frame) (guard : Nat) (m : Mem) (argv : List (List Byte)) (o : Nat) (pointers : List Nat)
    (r : Mem × Option (Nat × List Nat)) : Prop where
  free : r.1.free = m.free
  others : ∀ g, g ≠ f → r.1.data g = m.data g
  above : ∀ x, o ≤ x → r.1.data f x = m.data f x
  answer : (r.2 = none ∧ o < stringRoom argv) ∨ stringRoom argv ≤ o ∧ ∃ offsets : List Nat,
    r.2 = some ((guard + 1) * pgsize + (o - stringRoom argv), pointers ++ offsets.map ((guard + 1) * pgsize + ·)) ∧
    StringsAt (r.1.data f) (o - stringRoom argv) o argv offsets

theorem stringRoom_cons (arg : List Byte) (rest : List (List Byte)) :
    stringRoom (arg :: rest) = room arg + stringRoom rest := by
  rw [stringRoom, List.map_cons, List.sum_cons, stringRoom]

theorem pushArgs_spec (page : StackPage s guard f) (argv : List (List Byte)) (pointers : List Nat) (top : o ≤ pgsize)
    (aligned : o % 4 = 0) (short : ∀ arg ∈ argv, arg.length < pgsize) (few : pointers.length + argv.length < maxarg) :
    Meets (fun _ => False) (Pushes f guard m argv o pointers)
      (pushArgs s argv ((guard + 1) * pgsize + o) pointers m) := by
  induction argv generalizing o pointers m with
  | nil =>
      refine ⟨rfl, fun _ _ => rfl, fun _ _ => rfl, Or.inr ⟨Nat.zero_le _, [], ?_, .nil⟩⟩
      rw [List.map_nil, List.append_nil, show stringRoom [] = 0 from rfl, Nat.sub_zero]
  | cons arg rest ih =>
      have size : arg.length < pgsize := short arg List.mem_cons_self
      have filled : arg ++ [0] ≠ [] := List.append_ne_nil_of_right_ne_nil _ (List.cons_ne_nil _ _)
      have length : (arg ++ [0]).length = arg.length + 1 := List.length_append
      rw [List.length_cons] at few
      rw [pushArgs, if_neg (by omega)]
      dsimp only
      by_cases fits : arg.length + 1 ≤ o
      · have next : minus ((guard + 1) * pgsize + o) (arg.length + 1) / 4 * 4 =
            (guard + 1) * pgsize + (o - room arg) := by
          rw [minus_fits page.low top fits, room]
          simp only [pgsize] at *
          omega
        have inside : room arg ≤ o := by
          rw [room]
          omega
        have covers : arg.length + 1 ≤ room arg := by
          rw [room]
          omega
        have even : (o - room arg) % 4 = 0 := by
          rw [room] at *
          omega
        have written (x : Nat) : (m.write f (o - room arg) (arg ++ [0])).data f x =
            blit (m.data f) (o - room arg) (arg ++ [0]) x := congrFun (update_self ..) x
        rw [next, copyout_stack page filled (by rw [length]; omega), ok_bind]
        dsimp only
        rw [if_pos rfl]
        refine (ih (pointers ++ [(guard + 1) * pgsize + (o - room arg)]) (by omega) even
          (fun a member => short a (List.mem_cons_of_mem _ member)) ?_).imp fun r pushes => ?_
        · rw [List.length_append, List.length_singleton]
          omega
        refine ⟨pushes.free, fun g differs => ?_, fun x high => ?_, ?_⟩
        · rw [pushes.others g differs]
          exact update_of_ne differs _ _
        · rw [pushes.above x (by omega), written, blit_outside _ _ _ (by rw [length]; omega)]
        · rw [stringRoom_cons]
          rcases pushes.answer with ⟨none, spills⟩ | ⟨enough, offsets, some, strings⟩
          · exact Or.inl ⟨none, by omega⟩
          · refine Or.inr ⟨by omega, (o - room arg) :: offsets, ?_, ?_⟩
            · rw [some, List.map_cons, List.append_assoc, List.singleton_append, Nat.sub_sub]
            · refine .cons ⟨by omega, by omega, ?_⟩ (strings.imp fun a x at' => ⟨?_, ?_, at'.2.2⟩)
              · rw [← slice_blit (m.data f) (o - room arg) (arg ++ [0]), length]
                refine slice_congr fun x low _ => ?_
                rw [pushes.above x low, written]
              · have low := at'.1
                omega
              · have high := at'.2.1
                omega
      · have below := minus_below page.low (show arg.length + 1 ≤ pgsize by omega) (Nat.not_le.mp fits)
        have refused : copyout m s (minus ((guard + 1) * pgsize + o) (arg.length + 1) / 4 * 4) (arg ++ [0]) =
            .ok (m, false) := by
          refine copyout_guard page filled ?_ ?_
          · simp only [pgsize] at *
            omega
          · simp only [pgsize] at *
            omega
        have spills : o < stringRoom (arg :: rest) := by
          rw [stringRoom_cons, room]
          omega
        rw [refused, ok_bind]
        exact ⟨rfl, fun _ _ => rfl, fun _ _ => rfl, Or.inl ⟨rfl, spills⟩⟩

end Push

section Read

def fetch (m : Mem) (s : Space) : Nat → Nat → Option (List Byte)
  | _, 0 => some []
  | va, n + 1 => (s.userAt (va / pgsize)).bind fun f => (fetch m s (va + 1) n).map (m.data f (va % pgsize) :: ·)

def word (m : Mem) (s : Space) (va : Nat) : Option Nat := (fetch m s va 4).map combine

theorem fetch_stack (page : StackPage s guard f) (n : Nat) (fits : o + n ≤ pgsize) :
    fetch m s ((guard + 1) * pgsize + o) n = some (slice (m.data f) o n) := by
  induction n generalizing o with
  | zero => rfl
  | succ n ih =>
      have number : ((guard + 1) * pgsize + o) / pgsize = guard + 1 := by
        simp only [pgsize] at *
        omega
      have offset : ((guard + 1) * pgsize + o) % pgsize = o := by
        simp only [pgsize] at *
        omega
      rw [fetch, number, page.stack, Option.bind_some, offset, Nat.add_assoc, ih (by omega), Option.map_some, slice,
        slice, List.range'_succ, List.map_cons]

theorem word_stack (page : StackPage s guard f) (fits : o + 4 ≤ pgsize) :
    word m s ((guard + 1) * pgsize + o) = some (load 4 (m.data f) o) := by
  rw [word, fetch_stack page 4 fits, Option.map_some, load]

theorem fetch_congr (same : ∀ v f, s.userAt v = some f → m'.data f = m.data f) (va n : Nat) :
    fetch m' s va n = fetch m s va n := by
  induction n generalizing va with
  | zero => rfl
  | succ n ih =>
      rw [fetch, fetch, ih]
      cases user : s.userAt (va / pgsize) with
      | none => rfl
      | some f => rw [Option.bind_some, Option.bind_some, same _ f user]

/-- What a new image finds on its stack: a return address, `argc`, a pointer to the pointers to the strings and a 0,
and the strings, all of it in the last page. -/
structure Passed (m : Mem) (s : Space) (esp sz : Nat) (argv : List (List Byte)) : Prop where
  page : sz % pgsize = 0 ∧ sz - pgsize ≤ esp
  ret : word m s esp = some 0xffffffff
  argc : word m s (esp + 4) = some argv.length
  array : ∃ array, word m s (esp + 8) = some array ∧ esp ≤ array ∧ array + 4 * (argv.length + 1) ≤ sz ∧
    word m s (array + 4 * argv.length) = some 0 ∧
    ∀ i arg, argv[i]? = some arg → ∃ ptr, word m s (array + 4 * i) = some ptr ∧ esp ≤ ptr ∧
      ptr + arg.length + 1 ≤ sz ∧ fetch m s ptr (arg.length + 1) = some (arg ++ [0])

theorem Passed.congr {esp sz : Nat} {argv : List (List Byte)} (passed : Passed m s esp sz argv)
    (same : ∀ v f, s.userAt v = some f → m'.data f = m.data f) : Passed m' s esp sz argv := by
  have fetched := fetch_congr same
  have words (va : Nat) : word m' s va = word m s va := by rw [word, word, fetched]
  obtain ⟨page, ret, argc, array, pointer, low, high, zero, strings⟩ := passed
  refine ⟨page, by rw [words, ret], by rw [words, argc], array, by rw [words, pointer], low, high,
    by rw [words, zero], fun i arg found => ?_⟩
  obtain ⟨ptr, here, rest⟩ := strings i arg found
  exact ⟨ptr, by rw [words, here], by rw [fetched]; exact rest⟩

def blockRoom (argv : List (List Byte)) : Nat := stringRoom argv + 4 * (argv.length + 4)

theorem length_words (values : List Nat) : (words values).length = 4 * values.length := by
  rw [words, List.length_flatMap]
  simp [Nat.mul_comm]

theorem length_ustack (sp : Nat) (pointers : List Nat) : (ustack sp pointers).length = pointers.length + 4 := by
  simp [ustack]

theorem word_ustack {t sp j value : Nat} {pointers : List Nat} (page : StackPage s guard f)
    (fits : t + 4 * (pointers.length + 4) ≤ pgsize) (found : (ustack sp pointers)[j]? = some value)
    (small : value < 256 ^ 4) :
    word (m.write f t (words (ustack sp pointers))) s ((guard + 1) * pgsize + (t + 4 * j)) = some value := by
  obtain ⟨bound, value⟩ := List.getElem?_eq_some_iff.mp found
  have inside : j < pointers.length + 4 := by rw [← length_ustack sp pointers]; exact bound
  have bytes : (m.write f t (words (ustack sp pointers))).data f = storeAll 4 (m.data f) t (ustack sp pointers) := by
    rw [← blit_flatMap_split]
    exact update_self ..
  rw [word_stack page (by omega), bytes, load_storeAll 4 _ _ bound, value, Nat.mod_eq_of_lt small]

theorem ustack_pointer (sp : Nat) {pointers : List Nat} {i ptr : Nat} (found : pointers[i]? = some ptr) :
    (ustack sp pointers)[3 + i]? = some ptr := by
  obtain ⟨bound, -⟩ := List.getElem?_eq_some_iff.mp found
  rw [ustack, List.append_assoc, List.getElem?_append_right (by simp), List.getElem?_append_left (by simpa using bound)]
  simpa using found

theorem ustack_end (sp : Nat) (pointers : List Nat) : (ustack sp pointers)[3 + pointers.length]? = some 0 := by
  rw [ustack, List.append_assoc, List.getElem?_append_right (by simp), List.getElem?_append_right (by simp)]
  simp

theorem stack_lt {x : Nat} (low : (guard + 2) * pgsize < kernbase) (below : x ≤ pgsize) :
    (guard + 1) * pgsize + x < 256 ^ 4 := by
  have bound : kernbase ≤ 256 ^ 4 := by decide
  have total : (guard + 2) * pgsize = (guard + 1) * pgsize + pgsize := Nat.succ_mul ..
  omega

theorem passed_of_write {argv : List (List Byte)} {offsets pointers : List Nat} {t : Nat} (page : StackPage s guard f)
    (strings : StringsAt (m.data f) o pgsize argv offsets) (top : o ≤ pgsize) (start : t + 4 * (argv.length + 4) = o)
    (same : pointers = offsets.map ((guard + 1) * pgsize + ·)) :
    Passed (m.write f t (words (ustack ((guard + 1) * pgsize + o) pointers))) s ((guard + 1) * pgsize + t)
      ((guard + 2) * pgsize) argv := by
  have count : pointers.length = argv.length := by rw [same, List.length_map, strings.length_eq]
  have low := page.low
  have total : (guard + 2) * pgsize = (guard + 1) * pgsize + pgsize := Nat.succ_mul ..
  have small {x : Nat} (below : x ≤ pgsize) := stack_lt low below
  have found {j value : Nat} (here : (ustack ((guard + 1) * pgsize + o) pointers)[j]? = some value)
      (bound : value < 256 ^ 4) :
      word (m.write f t (words (ustack ((guard + 1) * pgsize + o) pointers))) s ((guard + 1) * pgsize + (t + 4 * j)) =
        some value := word_ustack page (by omega) here bound
  have argvp : minus ((guard + 1) * pgsize + o) ((pointers.length + 1) * 4) = (guard + 1) * pgsize + (t + 4 * 3) := by
    rw [minus_fits low top (by omega)]
    omega
  refine ⟨⟨Nat.mul_mod_left _ _, by omega⟩, found (j := 0) rfl (by decide), ?_, (guard + 1) * pgsize + (t + 4 * 3), ?_,
    by omega, by omega, ?_, fun i arg inside => ?_⟩
  · rw [Nat.add_assoc, ← count]
    exact found (j := 1) rfl (by rw [count]; simp only [pgsize] at top; omega)
  · rw [Nat.add_assoc]
    refine found (j := 2) ?_ (small (by omega))
    rw [← argvp]
    rfl
  · rw [show (guard + 1) * pgsize + (t + 4 * 3) + 4 * argv.length =
      (guard + 1) * pgsize + (t + 4 * (3 + pointers.length)) by omega]
    exact found (ustack_end _ _) (by decide)
  · obtain ⟨bound, rfl⟩ := List.getElem?_eq_some_iff.mp inside
    have second : i < offsets.length := by rw [← strings.length_eq]; exact bound
    obtain ⟨above, below, string⟩ := (List.forall₂_iff_get.mp strings).2 i bound second
    simp only [List.get_eq_getElem] at above below string
    refine ⟨(guard + 1) * pgsize + offsets[i], ?_, by omega, by omega, ?_⟩
    · rw [show (guard + 1) * pgsize + (t + 4 * 3) + 4 * i = (guard + 1) * pgsize + (t + 4 * (3 + i)) by omega]
      refine found (ustack_pointer _ ?_) (small (by omega))
      rw [same, List.getElem?_map, List.getElem?_eq_getElem second, Option.map_some]
    · rw [fetch_stack page _ (by omega), ← string]
      have bytes : (m.write f t (words (ustack ((guard + 1) * pgsize + o) pointers))).data f =
          blit (m.data f) t (words (ustack ((guard + 1) * pgsize + o) pointers)) := update_self ..
      rw [bytes, slice_blit_apart _ _ (Or.inr ?_)]
      rw [length_words, length_ustack]
      omega

theorem pushStack_spec {argv : List (List Byte)} (page : StackPage s guard f) (few : argv.length < maxarg)
    (short : ∀ arg ∈ argv, arg.length < pgsize) :
    Meets (fun _ => False)
      (fun r => r.1.free = m.free ∧ (∀ g, g ≠ f → r.1.data g = m.data g) ∧
        (r.2 = none ∧ pgsize < blockRoom argv ∨
          ∃ esp, r.2 = some esp ∧ blockRoom argv ≤ pgsize ∧ Passed r.1 s esp ((guard + 2) * pgsize) argv))
      (pushStack m s ((guard + 2) * pgsize) argv) := by
  have total : (guard + 2) * pgsize = (guard + 1) * pgsize + pgsize := Nat.succ_mul ..
  have pushed := pushArgs_spec (m := m) page argv [] (le_refl pgsize) (by decide) short (by simpa using few)
  rw [pushStack, total]
  refine pushed.bind ?_
  rintro ⟨m', -⟩ ⟨free, others, -, ⟨rfl, spills⟩ | ⟨enough, offsets, rfl, strings⟩⟩
  · exact ⟨free, others, Or.inl ⟨rfl, lt_of_lt_of_le spills (Nat.le_add_right _ _)⟩⟩
  · have count : (offsets.map ((guard + 1) * pgsize + ·)).length = argv.length := by
      rw [List.length_map, strings.length_eq]
    have some : words (ustack ((guard + 1) * pgsize + (pgsize - stringRoom argv))
        (offsets.map ((guard + 1) * pgsize + ·))) ≠ [] := by
      refine List.ne_nil_of_length_pos ?_
      rw [length_words, length_ustack]
      omega
    dsimp only
    rw [List.nil_append, count]
    by_cases fits : (3 + argv.length + 1) * 4 ≤ pgsize - stringRoom argv
    · have room : blockRoom argv ≤ pgsize := by
        rw [blockRoom]
        omega
      rw [minus_fits page.low (Nat.sub_le _ _) fits, copyout_stack page some ?_]
      · refine ⟨free, fun g differs => ?_, Or.inr ⟨_, rfl, room, ?_⟩⟩
        · rw [← others g differs]
          exact update_of_ne differs _ _
        · rw [← total]
          exact passed_of_write page strings (Nat.sub_le _ _) (by omega) rfl
      · rw [length_words, length_ustack, count]
        omega
    · have few' : (3 + argv.length + 1) * 4 ≤ pgsize := by
        simp only [maxarg, pgsize] at few ⊢
        omega
      obtain ⟨low, high⟩ := minus_below page.low few' (Nat.not_le.mp fits)
      rw [copyout_guard page some low high]
      refine ⟨free, others, Or.inl ⟨rfl, ?_⟩⟩
      rw [blockRoom]
      omega

end Read

section Exec

variable {pool extra : Multiset Frame} {e : Files} {p : Proc} {argv : List (List Byte)}

theorem Loaded.guarded {sz : Nat} (loaded : Loaded k m₀ m s sz guard) : Guarded s :=
  loaded.sane.guarded loaded.image.kernel

def ExecEnds (k : Kernel) (pool extra : Multiset Frame) (e : Files) (m : Mem) (p : Proc)
    (passed : Mem → Space → Nat → Nat → Prop) (r : Files × Mem × Proc × Int) : Prop :=
  (∃ m', r = (e, m', p, -1) ∧ Released m m') ∨
    ∃ m' p' guard, r = (e, m', p', 0) ∧ p'.sz = (guard + 2) * pgsize ∧ Image p'.space guard ∧
      Sane k pool extra m' p'.space ∧ passed m' p'.space p'.esp p'.sz

theorem exec_commits {file : List Byte} {s : Space} {value : Nat × Nat} {esp : Nat} {m'' : Mem}
    (sane : Sane k pool extra m p.space) (path : List Byte)
    (loads : loadImage k e.holding m file = .ok (e, false, .next m' s value))
    (stack : pushStack m' s value.1 argv = .ok (m'', some esp)) (pushed : Loaded k m m'' s value.1 guard) :
    ∃ m₃, exec k e m p path (some file) argv =
        .ok (e, m₃, ⟨s, value.1, value.2, esp, (lastName path).take 15⟩, 0) ∧
      Sane k pool extra m₃ s ∧ ∀ v f, s.userAt v = some f → m₃.data f = m''.data f := by
  have old : Sane k pool (extra + s.frames) m'' p.space := by
    refine ⟨?_, sane.nodup, sane.valid⟩
    have total := pushed.sane.total
    rw [add_zero] at total
    rw [← sane.total, ← total]
    abel
  obtain ⟨m₃, freed, total, same⟩ := (freevm_spec old).returns
  refine ⟨m₃, ?_, ⟨?_, sane.nodup, sane.valid⟩, fun v f user => same f fun inside => ?_⟩
  · rw [exec, ilock_holding, ok_bind, loads, ok_bind]
    dsimp only
    rw [stack, ok_bind]
    dsimp only
    rw [freed]
    rfl
  · rw [← total, add_assoc]
  · have member := pushed.sane.mem_frames (pushed.guarded.mem_frames user)
    exact sane.not_free inside (Multiset.mem_coe.mp member)

theorem Loaded.write {sz : Nat} (loaded : Loaded k m₀ m s sz guard) (free : m'.free = m.free)
    (data : ∀ g, g ∉ s.frames → m'.data g = m.data g) : Loaded k m₀ m' s sz guard :=
  ⟨loaded.sane.of_free free, loaded.size, loaded.image, fun g outside => (data g outside).trans (loaded.data g outside)⟩

theorem exec_spec (allowed : Failure → Prop) (passed : Mem → Space → Nat → Nat → Prop)
    (sane : Sane k pool extra m p.space) (unlocked : e.locked = false) (path : List Byte) (program : Option (List Byte))
    (pushes : ∀ m' s sz guard, Loaded k m m' s sz guard →
      Meets allowed
        (fun r => r.1.free = m'.free ∧ (∀ g, g ∉ s.frames → r.1.data g = m'.data g) ∧
          ∀ esp, r.2 = some esp → passed r.1 s esp sz)
        (pushStack m' s sz argv))
    (congr : ∀ m' m'' s esp sz, passed m' s esp sz → (∀ v f, s.userAt v = some f → m''.data f = m'.data f) →
      passed m'' s esp sz) :
    Meets allowed (ExecEnds k pool extra e m p passed) (exec k e m p path program argv) := by
  have nodup := sane.nodup
  rw [← sane.total, Multiset.nodup_add, Multiset.nodup_add] at nodup
  have valid (f : Frame) (free : f ∈ m.free) := sane.valid f (sane.mem_free free)
  cases program with
  | none => exact Or.inl ⟨m, rfl, List.Perm.refl _, fun _ _ => rfl⟩
  | some file =>
      obtain ⟨⟨e', held, outcome⟩, loads, same, good⟩ :=
        (loadImage_spec unlocked (Multiset.coe_nodup.mp nodup.1.1) valid file).returns
      dsimp only at same good
      subst same
      cases outcome with
      | bad m' pgdir =>
          rw [exec, ilock_holding, ok_bind, loads, ok_bind]
          refine (bad_spec unlocked held good).sure.bind ?_
          rintro ⟨e'', m''⟩ ⟨rfl, released⟩
          exact Or.inl ⟨m'', rfl, released⟩
      | next m' s value =>
          obtain ⟨rfl, guard, loaded⟩ := good
          have pushed := pushes m' s value.1 guard loaded
          cases stack : pushStack m' s value.1 argv with
          | error failure =>
              rw [stack] at pushed
              rw [exec, ilock_holding, ok_bind, loads, ok_bind]
              dsimp only
              rw [stack]
              exact pushed
          | ok r =>
              obtain ⟨m'', esp⟩ := r
              rw [stack] at pushed
              obtain ⟨free, data, known⟩ := pushed
              have image := loaded.write free data
              cases esp with
              | none =>
                  rw [exec, ilock_holding, ok_bind, loads, ok_bind]
                  dsimp only
                  rw [stack, ok_bind]
                  refine (bad_spec unlocked false image.taken).sure.bind ?_
                  rintro ⟨e'', m₃⟩ ⟨rfl, released⟩
                  exact Or.inl ⟨m₃, rfl, released⟩
              | some esp =>
                  obtain ⟨m₃, returns, sane', same⟩ := exec_commits sane path loads stack image
                  rw [returns]
                  exact Or.inr ⟨m₃, _, guard, rfl, image.size, image.image, sane',
                    congr m'' m₃ s esp value.1 (known esp rfl) same⟩

theorem Loaded.pushStack {sz : Nat} (loaded : Loaded k m₀ m s sz guard) (few : argv.length < maxarg)
    (short : ∀ arg ∈ argv, arg.length < pgsize) :
    Meets (fun _ => False)
      (fun r => r.1.free = m.free ∧ (∀ g, g ∉ s.frames → r.1.data g = m.data g) ∧
        (r.2 = none ∧ pgsize < blockRoom argv ∨
          ∃ esp, r.2 = some esp ∧ blockRoom argv ≤ pgsize ∧ Passed r.1 s esp sz argv))
      (pushStack m s sz argv) := by
  obtain ⟨f, page, inside⟩ := loaded.stackPage
  rw [loaded.size]
  refine (pushStack_spec page few short).imp fun r post => ⟨post.1, fun g outside => post.2.1 g ?_, post.2.2⟩
  rintro rfl
  exact outside inside

theorem pushArgs_frame {sz sp : Nat} {pointers : List Nat} (loaded : Loaded k m₀ m s sz guard) :
    Meets (fun failure => failure = .fault)
      (fun r => r.1.free = m.free ∧ ∀ g, g ∉ s.frames → r.1.data g = m.data g) (pushArgs s argv sp pointers m) := by
  induction argv generalizing sp pointers m with
  | nil => exact ⟨rfl, fun _ _ => rfl⟩
  | cons arg rest ih =>
      rw [pushArgs]
      by_cases many : maxarg ≤ pointers.length
      · rw [if_pos many]
        exact ⟨rfl, fun _ _ => rfl⟩
      · rw [if_neg many]
        refine (copyout_frame loaded.guarded _ _).bind ?_
        rintro ⟨m', done⟩ ⟨free, data⟩
        cases done with
        | false => exact ⟨free, data⟩
        | true =>
            refine (ih (loaded.write free data)).imp fun r post => ⟨post.1.trans free, fun g outside => ?_⟩
            rw [post.2 g outside, data g outside]

theorem pushStack_frame {sz : Nat} (loaded : Loaded k m₀ m s sz guard) :
    Meets (fun failure => failure = .fault)
      (fun r => r.1.free = m.free ∧ ∀ g, g ∉ s.frames → r.1.data g = m.data g) (pushStack m s sz argv) := by
  rw [Exec.pushStack]
  refine (pushArgs_frame loaded).bind ?_
  rintro ⟨m', pushed⟩ ⟨free, data⟩
  cases pushed with
  | none => exact ⟨free, data⟩
  | some value =>
      refine (copyout_frame loaded.guarded _ _).bind ?_
      rintro ⟨m'', done⟩ ⟨free', data'⟩
      exact ⟨free'.trans free, fun g outside => (data' g outside).trans (data g outside)⟩

theorem exec_ends (sane : Sane k pool extra m p.space) (unlocked : e.locked = false) (path : List Byte)
    (program : Option (List Byte)) (argv : List (List Byte)) :
    Meets (fun failure => failure = .fault) (ExecEnds k pool extra e m p fun _ _ _ _ => True)
      (exec k e m p path program argv) :=
  exec_spec _ _ sane unlocked path program
    (fun _ _ _ _ loaded => (pushStack_frame loaded).imp fun _ post => ⟨post.1, post.2, fun _ _ => trivial⟩)
    fun _ _ _ _ _ _ _ => trivial

/-- `exec` passes its arguments as they are, all of them in the stack page, and returns -1 if they do not fit there. -/
theorem exec_passes_args (sane : Sane k pool extra m p.space) (unlocked : e.locked = false) (path : List Byte)
    (program : Option (List Byte)) (few : argv.length < maxarg) (short : ∀ arg ∈ argv, arg.length < pgsize) :
    ∃ m' p' r, exec k e m p path program argv = .ok (e, m', p', r) ∧
      (r = -1 ∨ r = 0 ∧ blockRoom argv ≤ pgsize ∧ Passed m' p'.space p'.esp p'.sz argv) := by
  have spec := exec_spec (fun _ => False) (fun m s esp sz => blockRoom argv ≤ pgsize ∧ Passed m s esp sz argv) sane
    unlocked path program
    (fun m' s sz guard loaded => (loaded.pushStack few short).imp fun r post =>
      ⟨post.1, post.2.1, fun esp found => ?_⟩)
    fun m' m'' s esp sz known same => ⟨known.1, known.2.congr same⟩
  · obtain ⟨⟨e', m', p', r⟩, returns, ends⟩ := spec.returns
    rcases ends with ⟨m₁, same, -⟩ | ⟨m₁, p₁, guard, same, -, -, -, room, passed⟩
    · obtain ⟨rfl, rfl, rfl, rfl⟩ : e' = e ∧ m' = m₁ ∧ p' = p ∧ r = -1 := by simpa using same
      exact ⟨m', p', -1, returns, Or.inl rfl⟩
    · obtain ⟨rfl, rfl, rfl, rfl⟩ : e' = e ∧ m' = m₁ ∧ p' = p₁ ∧ r = 0 := by simpa using same
      exact ⟨m', p', 0, returns, Or.inr ⟨rfl, room, passed⟩⟩
  · rcases post.2.2 with ⟨none, -⟩ | ⟨other, same, room, passed⟩
    · rw [none] at found
      exact absurd found nofun
    · obtain rfl := Option.some.inj (found.symm.trans same)
      exact ⟨room, passed⟩

end Exec

section Runs

variable {pool extra : Multiset Frame} {e : Files} {p : Proc} {argv : List (List Byte)} {file bytes : List Byte}

theorem loadImage_lucky (unlocked : e.locked = false) (nodup : m.free.Nodup) (valid : ∀ f ∈ m.free, k.Valid f)
    (header : readAll file 0 Elfhdr.size = some bytes) (magic : (Elfhdr.read bytes).magic = elfMagic)
    (noSegment : (Elfhdr.read bytes).phnum = 0) (luck : m.luck = []) (enough : userEntries + 5 ≤ m.free.length) :
    ∃ m' s value, loadImage k e.holding m file = .ok (e, false, .next m' s value) ∧ Loaded k m m' s value.1 0 := by
  obtain ⟨m', s, returns, setUp⟩ := setupkvm_lucky nodup valid luck (by omega)
  have loads : loadProgram k m file = .ok (.next m' s (0, (Elfhdr.read bytes).entry)) := by
    rw [loadProgram, header]
    dsimp only
    rw [if_neg (not_not.mpr magic), returns, ok_bind]
    dsimp only
    rw [noSegment, loadSegments]
    rfl
  have left := setUp.length_free
  obtain ⟨outcome, stack, good, lucky⟩ := (allocStack_spec (Loading.start setUp)).returns
  obtain ⟨m'', s', size, rfl⟩ := lucky (setUp.luck luck) (by omega) (by decide)
  obtain ⟨e', put, done⟩ := iunlockput_holding unlocked
  refine ⟨m'', s', (size, (Elfhdr.read bytes).entry), ?_, good⟩
  rw [loadImage, loads, ok_bind]
  dsimp only
  rw [put, ok_bind, done, stack]
  rfl

theorem exec_runs (sane : Sane k pool extra m p.space) (unlocked : e.locked = false) (path : List Byte)
    (header : readAll file 0 Elfhdr.size = some bytes) (magic : (Elfhdr.read bytes).magic = elfMagic)
    (noSegment : (Elfhdr.read bytes).phnum = 0) (luck : m.luck = []) (enough : userEntries + 5 ≤ m.free.length)
    (few : argv.length < maxarg) (short : ∀ arg ∈ argv, arg.length < pgsize) (fits : blockRoom argv ≤ pgsize) :
    ∃ m' p', exec k e m p path (some file) argv = .ok (e, m', p', 0) ∧ p'.sz = 2 * pgsize := by
  have nodup := sane.nodup
  rw [← sane.total, Multiset.nodup_add, Multiset.nodup_add] at nodup
  obtain ⟨m', s, value, loads, loaded⟩ := loadImage_lucky unlocked (Multiset.coe_nodup.mp nodup.1.1)
    (fun f free => sane.valid f (sane.mem_free free)) header magic noSegment luck enough
  obtain ⟨⟨m'', -⟩, stack, free, data, ⟨-, spills⟩ | ⟨esp, rfl, -, -⟩⟩ := (loaded.pushStack few short).returns
  · omega
  · obtain ⟨m₃, returns, -⟩ := exec_commits sane path loads stack (loaded.write free data)
    exact ⟨m₃, _, returns, loaded.size.trans (by rw [Nat.zero_add])⟩

def emptyProgram : List Byte := [0x7F, 0x45, 0x4C, 0x46] ++ List.replicate 48 0

theorem emptyProgram_runs : ∃ m' p',
    exec smallKernel ⟨0, 0, false⟩ plenty ⟨onePage, 4096, 0, 4096, []⟩ [101] (some emptyProgram) [[101], [104, 105]] =
      .ok (⟨0, 0, false⟩, m', p', 0) ∧ p'.sz = 2 * pgsize :=
  exec_runs (p := ⟨onePage, 4096, 0, 4096, []⟩) plenty_sane rfl [101]
    (show readAll emptyProgram 0 Elfhdr.size = some emptyProgram by decide) (by decide) (by decide) rfl
    (by rw [plenty, List.length_range']; decide) (by decide) (by decide) (by decide)

theorem exec_passes_args_echo : ∃ m' p',
    exec smallKernel ⟨0, 0, false⟩ plenty ⟨onePage, 4096, 0, 4096, []⟩ [101] (some emptyProgram) [[101], [104, 105]] =
      .ok (⟨0, 0, false⟩, m', p', 0) ∧ Passed m' p'.space p'.esp p'.sz [[101], [104, 105]] := by
  obtain ⟨m', p', returns, -⟩ := emptyProgram_runs
  obtain ⟨m₁, p₁, r, result, known⟩ := exec_passes_args (p := ⟨onePage, 4096, 0, 4096, []⟩) (e := ⟨0, 0, false⟩)
    plenty_sane rfl [101] (some emptyProgram) (show [[101], [104, 105]].length < maxarg by decide) (by decide)
  rw [returns] at result
  obtain ⟨rfl, rfl, rfl⟩ : m' = m₁ ∧ p' = p₁ ∧ 0 = r := by simpa using result
  rcases known with impossible | ⟨-, -, passed⟩
  · exact absurd impossible (by decide)
  · exact ⟨m', p', returns, passed⟩

end Runs

end OsLabs.Exec
