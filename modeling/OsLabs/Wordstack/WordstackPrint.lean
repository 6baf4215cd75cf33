import Mathlib.Data.List.TakeWhile
import OsLabs.Wordstack.WordstackLifo

/-!
The commands one at a time, with what `-r` and `-p` print. A row keeps the padding of its history: zeros until a
`-r` has emptied it, and spaces from then on. `-r` prints a word up to the first zero. `-p` begins one row above
the last word, and with a full stack that row is behind the array.
-/

namespace OsLabs.Wordstack

open OsLabs.FlatArray OsLabs.Runs

inductive Request where
  | w (palabra : List Char)
  | r
  | p
deriving DecidableEq, Repr

def alone : Nat → Shared Unit → Pc → Option (Shared Unit × Pc)
  | 0, s, pc => some (s, pc)
  | count + 1, s, pc => (program () s pc).bind fun moved => alone count moved.1 moved.2

/-- What `%s` prints of `word`, which has a zero behind its last character. -/
def text (word : List Char) : List Char := word.takeWhile (· ≠ Char.ofNat 0)

/-- The rows of the loop of `-p`, from `free` down to 0. -/
def printRows (free : Int) : List Int := (List.range (free + 1).toNat).reverse.map Int.ofNat

namespace Shared

def rowsRead (s : Shared Unit) : List Int := if s.items = 0 then [] else printRows s.free

/-- A command from its start to its end, with the words or rows that it prints. -/
def serve (s : Shared Unit) : Request → Option (Shared Unit × List (List Char))
  | .w palabra => (alone 7 s (Command.w palabra).start).map fun ended => (ended.1, [])
  | .r => (alone 8 s Command.r.start).bind fun ended =>
      match ended.2 with
      | .popDone word => some (ended.1, [text word])
      | _ => none
  | .p => some (s, s.rowsRead.map (readRow s.heap))

def served (s : Shared Unit) (request : Request) : Option (Shared Unit) := (s.serve request).map Prod.fst

end Shared

/-- The stack that the commands stand for, its top first, and the rows that a `-r` has emptied. -/
structure Past where
  words : List (List Char)
  emptied : Nat → Bool

namespace Past

def fresh : Past := ⟨[], fun _ => false⟩

def next (past : Past) : Request → Past
  | .w palabra => { past with words := palabra :: past.words }
  | .r => ⟨past.words.tail, Function.update past.emptied (past.words.length - 1) true⟩
  | .p => past

def step (past : Past) (request : Request) : Option Past := some (past.next request)

def after (requests : List Request) : Past := requests.foldl next fresh

theorem run_step (requests : List Request) (past : Past) : run step past requests = some (requests.foldl next past) := by
  induction requests generalizing past with
  | nil => rfl
  | cons request rest ih => rw [run_cons, step, Option.bind_some, ih, List.foldl_cons]

end Past

def Plain (palabra : List Char) : Prop := 0 < palabra.length ∧ palabra.length < maxWord ∧ ∀ c ∈ palabra, ¬Blank c

instance : DecidablePred Blank := fun _ => inferInstanceAs (Decidable (_ ∨ _))

instance : DecidablePred Plain := fun palabra =>
  have : Decidable (∀ c ∈ palabra, ¬Blank c) := List.decidableBAll _ palabra
  inferInstanceAs (Decidable (_ ∧ _ ∧ _))

/-- At most `ITEMS` words, and a `-r` only when there is one. -/
def Past.Allows (past : Past) : Request → Prop
  | .w palabra => Plain palabra ∧ past.words.length < maxItems
  | .r => past.words ≠ []
  | .p => True

instance (past : Past) : DecidablePred past.Allows
  | .w _ => inferInstanceAs (Decidable (_ ∧ _))
  | .r => inferInstanceAs (Decidable (_ ≠ _))
  | .p => inferInstanceAs (Decidable True)

def Allowed (requests : List Request) : Prop := Along Past.step (fun _ => Past.Allows) Past.fresh requests

def padding (recycled : Bool) : Char := if recycled then ' ' else Char.ofNat 0

def padded (recycled : Bool) (word : List Char) : List Char :=
  word ++ List.replicate (maxWord - word.length) (padding recycled)

theorem blank_padding (recycled : Bool) : Blank (padding recycled) := by
  cases recycled
  · exact Or.inr rfl
  · exact Or.inl rfl

structure Keeps (s : Shared Unit) (past : Past) : Prop where
  free : s.free = past.words.length
  items : s.items = past.words.length
  unlocked : s.mutex = none
  full : s.full = past.words.length
  empty : s.empty + past.words.length = maxItems
  plain : ∀ word ∈ past.words, Plain word
  rows : ∀ row < maxItems, readRow s.heap row = padded (past.emptied row) ((past.words.reverse[row]?).getD [])

section Steps

variable {s : Shared Unit} {past : Past}

theorem readRow_const (c : Char) (row : Int) : readRow (fun _ => c) row = List.replicate maxWord c := by
  rw [List.eq_replicate_iff]
  refine ⟨length_readFrom _ _ _, fun d member => ?_⟩
  obtain ⟨index, same⟩ := eq_of_mem_readFrom member
  exact same

theorem keeps_created : Keeps created Past.fresh where
  free := rfl
  items := rfl
  unlocked := rfl
  full := rfl
  empty := rfl
  plain := fun _ member => absurd member (by simp [Past.fresh])
  rows := fun row _ => by
    rw [created, readRow_const]
    rfl

theorem readRow_push (heap : Int → Char) (row : Int) {palabra : List Char} {recycled : Bool}
    (fits : palabra.length ≤ maxWord) (blank : readRow heap row = padded recycled []) :
    readRow (writeFrom heap (rowStart row) palabra) row = padded recycled palabra := by
  have split := readFrom_writeFrom heap (rowStart row) palabra (maxWord - palabra.length)
  rw [Nat.add_sub_cancel' fits] at split
  have whole := readFrom_append heap (rowStart row) palabra.length (maxWord - palabra.length)
  rw [Nat.add_sub_cancel' fits] at whole
  rw [readRow, split, padded]
  refine congrArg (palabra ++ ·) (List.eq_replicate_iff.mpr ⟨length_readFrom _ _ _, fun c member => ?_⟩)
  rw [readRow, whole, padded, List.nil_append] at blank
  exact List.eq_of_mem_replicate (blank ▸ List.mem_append_right _ member)

theorem readRow_pop (heap : Int → Char) (row : Int) :
    readRow (writeFrom heap (rowStart row) (List.replicate maxWord ' ')) row = padded true [] := by
  have whole := readFrom_writeFrom heap (rowStart row) (List.replicate maxWord ' ') 0
  rw [List.length_replicate, Nat.add_zero] at whole
  rw [readRow, whole, readFrom, List.append_nil]
  rfl

theorem serve_w (keeps : Keeps s past) {palabra : List Char} (room : past.words.length < maxItems) :
    s.serve (.w palabra) = some
      ({ s with
          heap := writeFrom s.heap (rowStart s.free) palabra
          log := s.log ++ [.push s.free palabra]
          items := s.items + 1, free := s.free + 1, empty := s.empty - 1, full := s.full + 1 }, []) := by
  have waits : 0 < s.empty := by
    have empty := keeps.empty
    omega
  simp [Shared.serve, alone, Command.start, program, Shared.semWaitEmpty, waits, Shared.mutexLock, keeps.unlocked,
    Shared.copyIn]

theorem serve_r (keeps : Keeps s past) {word : List Char} {rest : List (List Char)}
    (top : past.words = word :: rest) :
    s.serve .r = some
      ({ s with
          heap := writeFrom s.heap (rowStart rest.length) (List.replicate maxWord ' ')
          log := s.log ++ [.pop rest.length (readRow s.heap rest.length)]
          items := s.items - 1, free := s.free - 1, empty := s.empty + 1, full := s.full - 1 },
        [text (readRow s.heap rest.length)]) := by
  have free : s.free = rest.length + 1 := by
    rw [keeps.free, top, List.length_cons]
    rfl
  have waits : 0 < s.full := by
    rw [keeps.full, top, List.length_cons]
    exact Nat.succ_pos _
  have row : wordIndexOf s.free = rest.length := by
    rw [wordIndexOf, free]
    split <;> omega
  simp [Shared.serve, alone, Command.start, program, Shared.semWaitFull, waits, Shared.mutexLock, keeps.unlocked,
    Shared.copyOut, takeFrom_eq, row, readRow]

theorem getElem?_reverse_cons (word : List Char) (words : List (List Char)) (row : Nat) :
    ((word :: words).reverse[row]?).getD [] = if row = words.length then word else (words.reverse[row]?).getD [] := by
  rw [List.reverse_cons, List.getElem?_append, List.length_reverse]
  split
  next below => rw [if_neg (by omega)]
  next above =>
    split
    next top => simp [top]
    next other =>
      rw [List.getElem?_eq_none (by simp; omega), List.getElem?_eq_none (by simp; omega)]

theorem getElem?_reverse_top (words : List (List Char)) : (words.reverse[words.length]?).getD [] = [] := by
  rw [List.getElem?_eq_none (by simp), Option.getD_none]

theorem Keeps.push (keeps : Keeps s past) {palabra : List Char} (plain : Plain palabra)
    (room : past.words.length < maxItems) :
    ∃ next, s.serve (.w palabra) = some (next, []) ∧ Keeps next (past.next (.w palabra)) := by
  refine ⟨_, serve_w keeps room, ?_⟩
  have fits := plain.2.1.le
  refine ⟨?_, ?_, keeps.unlocked, ?_, ?_, ?_, fun row inside => ?_⟩
  · simp [Past.next, keeps.free]
  · simp [Past.next, keeps.items]
  · simp [Past.next, keeps.full]
  · have empty := keeps.empty
    simp only [Past.next, List.length_cons]
    omega
  · simpa [Past.next, plain] using keeps.plain
  · have before := keeps.rows row inside
    dsimp only [Past.next]
    rw [getElem?_reverse_cons, keeps.free]
    by_cases here : row = past.words.length
    · rw [if_pos here, here]
      rw [here, getElem?_reverse_top] at before
      exact readRow_push s.heap _ fits before
    · rw [if_neg here, readRow_write_other _ _ _ (by simpa using here) fits, before]

theorem Keeps.pop (keeps : Keeps s past) {word : List Char} {rest : List (List Char)} (top : past.words = word :: rest) :
    ∃ next, s.serve .r = some (next, [text (padded (past.emptied rest.length) word)]) ∧
      Keeps next (past.next .r) := by
  have short : rest.length < maxItems := by
    have empty := keeps.empty
    rw [top, List.length_cons] at empty
    omega
  have shown := keeps.rows rest.length short
  rw [top, getElem?_reverse_cons, if_pos rfl] at shown
  refine ⟨_, (serve_r keeps top).trans (by rw [shown]), ?_⟩
  refine ⟨?_, ?_, keeps.unlocked, ?_, ?_, ?_, fun row inside => ?_⟩
  · simp [Past.next, keeps.free, top]
  · simp [Past.next, keeps.items, top]
  · simp [Past.next, keeps.full, top]
  · have empty := keeps.empty
    simp only [Past.next, top, List.length_cons, List.tail_cons] at empty ⊢
    omega
  · intro other member
    rw [Past.next, top, List.tail_cons] at member
    exact keeps.plain other (top ▸ List.mem_cons_of_mem _ member)
  · have before := keeps.rows row inside
    rw [top, getElem?_reverse_cons] at before
    dsimp only [Past.next]
    rw [top, List.tail_cons, List.length_cons, Nat.add_sub_cancel]
    by_cases here : row = rest.length
    · rw [here, Function.update_self, getElem?_reverse_top, readRow_pop]
    · rw [if_neg here] at before
      rw [Function.update_of_ne here, readRow_write_other _ _ _ (by simpa using here) (by simp), before]

theorem Keeps.step (keeps : Keeps s past) {request : Request} (allows : past.Allows request) :
    ∃ next, s.served request = some next ∧ Keeps next (past.next request) := by
  cases request with
  | w palabra =>
      obtain ⟨next, served, kept⟩ := keeps.push allows.1 allows.2
      exact ⟨next, by rw [Shared.served, served, Option.map_some], kept⟩
  | r =>
      obtain ⟨word, rest, top⟩ := List.exists_cons_of_ne_nil allows
      obtain ⟨next, served, kept⟩ := keeps.pop top
      exact ⟨next, by rw [Shared.served, served, Option.map_some], kept⟩
  | p => exact ⟨s, rfl, keeps⟩

theorem Keeps.run {requests : List Request} (allowed : Allowed requests) :
    ∃ s, Runs.run Shared.served created requests = some s ∧ Keeps s (Past.after requests) := by
  induction requests using List.reverseRecOn with
  | nil => exact ⟨created, rfl, keeps_created⟩
  | append_singleton requests request ih =>
      obtain ⟨s, reached, keeps⟩ := ih allowed.of_append
      obtain ⟨next, served, kept⟩ := keeps.step (allowed.last (Past.run_step requests Past.fresh))
      refine ⟨next, run_concat_eq_some.mpr ⟨s, reached, served⟩, ?_⟩
      rw [Past.after, List.foldl_concat]
      exact kept

end Steps

/-- What one sees of the printed lines: their characters that are not blank, and no empty lines. -/
def visible (lines : List (List Char)) : List (List Char) :=
  (lines.map (List.filter (¬Blank ·))).filter (· ≠ [])

section Printed

variable {s : Shared Unit} {past : Past} {word : List Char}

theorem filter_padded (recycled : Bool) (unblank : ∀ c ∈ word, ¬Blank c) :
    (padded recycled word).filter (¬Blank ·) = word := by
  rw [padded, List.filter_append, List.filter_eq_self.mpr (by simpa using unblank),
    List.filter_eq_nil_iff.mpr, List.append_nil]
  intro c member
  rw [List.eq_of_mem_replicate member]
  simpa using blank_padding recycled

theorem visible_line {line : List Char} (seen : line.filter (¬Blank ·) = word) (plain : Plain word) :
    visible [line] = [word] := by
  rw [visible, List.map_singleton, seen, List.filter_cons_of_pos (by simpa using List.ne_nil_of_length_pos plain.1),
    List.filter_nil]

theorem text_padded (recycled : Bool) (plain : Plain word) :
    text (padded recycled word) = if recycled then padded true word else word := by
  have solid : ∀ c ∈ word, c ≠ Char.ofNat 0 := fun c member zero => plain.2.2 c member (Or.inr zero)
  cases recycled with
  | true =>
      rw [if_pos rfl, text, List.takeWhile_eq_self_iff]
      intro c member
      rcases List.mem_append.mp member with inside | behind
      · simpa using solid c inside
      · rw [List.eq_of_mem_replicate behind]
        decide
  | false =>
      rw [if_neg Bool.false_ne_true, text, padded, List.takeWhile_append_of_pos (by simpa using solid)]
      obtain ⟨count, more⟩ := Nat.exists_eq_add_of_lt plain.2.1
      rw [show maxWord - word.length = count + 1 by omega, List.replicate_succ, List.takeWhile_cons_of_neg (by decide),
        List.append_nil]

theorem padded_ne (plain : Plain word) : padded true word ≠ word := by
  intro same
  have lengths := congrArg List.length same
  rw [padded, List.length_append, List.length_replicate] at lengths
  have short := plain.2.1
  omega

theorem printRows_length (count : Nat) : printRows count = (count : Int) :: (List.range count).reverse.map Int.ofNat := by
  rw [printRows, show ((count : Int) + 1).toNat = count + 1 by omega, List.range_succ, List.reverse_append]
  rfl

theorem words_of_rows (words : List (List Char)) :
    (List.range words.length).reverse.map (fun row => (words.reverse[row]?).getD []) = words := by
  induction words with
  | nil => rfl
  | cons word rest ih =>
      rw [List.length_cons, List.range_succ, List.reverse_append, List.reverse_singleton, List.singleton_append,
        List.map_cons, getElem?_reverse_cons, if_pos rfl]
      refine congrArg (word :: ·) (Eq.trans (List.map_congr_left fun row member => ?_) ih)
      rw [List.mem_reverse, List.mem_range] at member
      rw [getElem?_reverse_cons, if_neg member.ne]

theorem Keeps.printed (keeps : Keeps s past) (stored : past.words ≠ []) :
    s.rowsRead.map (readRow s.heap) = readRow s.heap past.words.length ::
      (List.range past.words.length).reverse.map fun row =>
        padded (past.emptied row) ((past.words.reverse[row]?).getD []) := by
  have some : s.items ≠ 0 := by
    have positive := List.length_pos_iff.mpr stored
    rw [keeps.items]
    omega
  rw [Shared.rowsRead, if_neg some, keeps.free, printRows_length, List.map_cons, List.map_map]
  refine congrArg (_ :: ·) (List.map_congr_left fun row member => ?_)
  rw [List.mem_reverse, List.mem_range] at member
  have empty := keeps.empty
  exact keeps.rows row (by omega)

theorem Keeps.rowsRead_inside (keeps : Keeps s past) :
    (∀ row ∈ s.rowsRead, 0 ≤ row ∧ row < maxItems) ↔ past.words.length < maxItems := by
  rw [Shared.rowsRead, keeps.items, keeps.free]
  by_cases none : past.words.length = 0
  · rw [none]
    exact iff_of_true (by simp) (by decide)
  rw [if_neg (by omega), printRows_length]
  constructor
  · intro inside
    have first := (inside _ List.mem_cons_self).2
    omega
  · intro short row member
    rcases List.mem_cons.mp member with rfl | later
    · omega
    · obtain ⟨below, inside, rfl⟩ := List.mem_map.mp later
      rw [List.mem_reverse, List.mem_range] at inside
      simp only [Int.ofNat_eq_natCast]
      omega

theorem Keeps.visible_rows (keeps : Keeps s past) (short : past.words.length < maxItems) :
    visible (s.rowsRead.map (readRow s.heap)) = past.words := by
  by_cases stored : past.words = []
  · rw [Shared.rowsRead, keeps.items, stored, List.length_nil, if_pos (by simp)]
    rfl
  have unblank (row : Nat) : ∀ c ∈ (past.words.reverse[row]?).getD [], ¬Blank c := by
    cases found : past.words.reverse[row]? with
    | none => simp
    | some word =>
        have member := List.mem_reverse.mp (List.mem_of_getElem? found)
        exact (keeps.plain word member).2.2
  have above := keeps.rows past.words.length short
  rw [getElem?_reverse_top] at above
  have seen : ((List.range past.words.length).reverse.map fun row =>
      padded (past.emptied row) ((past.words.reverse[row]?).getD [])).map (List.filter (¬Blank ·)) = past.words := by
    rw [List.map_map]
    exact (List.map_congr_left fun row _ => filter_padded _ (unblank row)).trans (words_of_rows _)
  rw [visible, keeps.printed stored, List.map_cons, above, filter_padded _ (by simp), seen,
    List.filter_cons_of_neg (by simp), List.filter_eq_self]
  intro word member
  simpa using List.ne_nil_of_length_pos (keeps.plain word member).1

end Printed

/-- After any commands that the stack has room and words for, `-r` prints the last word, and prints it without
blanks behind it exactly when no `-r` has emptied its row before. `-p` prints the words and nothing else exactly
when there are none, reads only rows of the array exactly when the stack is not full, and shows then, apart from
blanks, the words from top to bottom. -/
theorem stack_printed (requests : List Request) (allowed : Allowed requests) :
    ∃ s, run Shared.served created requests = some s ∧
      (∀ word rest, (Past.after requests).words = word :: rest →
        ∃ next shown, s.serve .r = some (next, [shown]) ∧ visible [shown] = [word] ∧
          (shown = word ↔ (Past.after requests).emptied rest.length = false)) ∧
      ∃ shown, s.serve .p = some (s, shown) ∧
        (shown = (Past.after requests).words ↔ (Past.after requests).words = []) ∧
        ((∀ row ∈ s.rowsRead, 0 ≤ row ∧ row < maxItems) ↔ (Past.after requests).words.length < maxItems) ∧
        ((Past.after requests).words.length < maxItems → visible shown = (Past.after requests).words) := by
  obtain ⟨s, reached, keeps⟩ := Keeps.run allowed
  refine ⟨s, reached, fun word rest top => ?_, _, rfl, ?_, keeps.rowsRead_inside, keeps.visible_rows⟩
  · have plain : Plain word := keeps.plain word (top ▸ List.mem_cons_self)
    obtain ⟨next, served, -⟩ := keeps.pop top
    refine ⟨next, _, served, ?_, ?_⟩
    · rw [text_padded _ plain]
      cases (Past.after requests).emptied rest.length with
      | false => exact visible_line (List.filter_eq_self.mpr (by simpa using plain.2.2)) plain
      | true => exact visible_line (filter_padded true plain.2.2) plain
    · rw [text_padded _ plain]
      cases (Past.after requests).emptied rest.length with
      | false => simp
      | true => simpa using padded_ne plain
  · by_cases stored : (Past.after requests).words = []
    · rw [stored]
      refine iff_of_true ?_ rfl
      rw [Shared.rowsRead, keeps.items, stored, List.length_nil, if_pos (by simp), List.map_nil]
    · refine iff_of_false (fun same => ?_) stored
      have lengths := congrArg List.length same
      rw [keeps.printed stored, List.length_cons, List.length_map, List.length_reverse, List.length_range] at lengths
      omega

def twoWords : List Request := [.w ['h', 'o', 'l', 'a'], .w ['s', 'o']]

theorem stack_printed_two : ∃ s, run Shared.served created twoWords = some s ∧
    (∃ next, s.serve .r = some (next, [['s', 'o']])) ∧
    ∃ shown, s.serve .p = some (s, shown) ∧ visible shown = [['s', 'o'], ['h', 'o', 'l', 'a']] := by
  obtain ⟨s, reached, removes, shown, prints, -, -, seen⟩ :=
    stack_printed twoWords (alongCheck_sound _ _ _ _ (by decide))
  obtain ⟨next, removed, served, -, exactly⟩ := removes ['s', 'o'] [['h', 'o', 'l', 'a']] rfl
  obtain rfl := exactly.mpr rfl
  exact ⟨s, reached, ⟨next, served⟩, shown, prints, seen (by decide)⟩

def fullStack : List Request := [.w ['a'], .r, .w ['b'], .w ['c'], .w ['d']]

/-- The first row is used twice. With three words `-p` reads a fourth row; the word of the first row then comes out
with 49 spaces. -/
theorem full_stack_printed_wrong : ∃ s last next, run Shared.served created fullStack = some s ∧
    s.rowsRead = [3, 2, 1, 0] ∧ run Shared.served s [.r, .r] = some last ∧
    last.serve .r = some (next, ['b' :: List.replicate 49 ' ']) := by
  let s := (run Shared.served created fullStack).get (by decide +kernel)
  let last := (run Shared.served s [.r, .r]).get (by decide +kernel)
  have shown : (last.serve .r).map Prod.snd = some ['b' :: List.replicate 49 ' '] := by decide +kernel
  obtain ⟨⟨next, _⟩, served, rfl⟩ := Option.map_eq_some_iff.mp shown
  exact ⟨s, last, next, (Option.some_get _).symm, by decide +kernel, (Option.some_get _).symm, served⟩

end OsLabs.Wordstack
