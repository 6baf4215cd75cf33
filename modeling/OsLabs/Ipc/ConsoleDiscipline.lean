import OsLabs.Ipc.ConsoleCore

/-!
The ring of the console shows the text: the unread committed bytes are before `w` and the line that is edited
is between `w` and `e`. So `Console` refines `Session`, also where the indices wrap.
-/

namespace OsLabs.Ipc

open Function Runs

variable {P : Type*}

namespace Text

variable {t : Text}

theorem unread_take (t : Text) (count : Nat) : { t with taken := t.taken + count }.unread = t.unread.drop count := by
  simp [unread, List.drop_drop]

theorem unread_commit (started : t.taken ≤ t.committed.length) (more : List Byte) :
    { t with committed := t.committed ++ more, tail := [] }.unread = t.unread ++ more := by
  simp [unread, List.drop_append_of_le_length started]

def Extends (t later : Text) : Prop := t.committed <+: later.committed ∧ later.taken = t.taken

theorem accept_extends (t : Text) (c : Byte) : t.Extends (t.accept c) := by
  rw [accept]
  split
  · dsimp only
    split
    · exact ⟨List.prefix_append _ _, rfl⟩
    · exact ⟨List.prefix_refl _, rfl⟩
  · exact ⟨List.prefix_refl _, rfl⟩

theorem key_extends (t : Text) (c : Byte) : t.Extends (t.key c) := by
  rw [key]
  split
  · exact ⟨List.prefix_refl _, rfl⟩
  split
  · exact ⟨List.prefix_refl _, rfl⟩
  split
  · exact ⟨List.prefix_refl _, rfl⟩
  split
  · exact ⟨List.prefix_refl _, rfl⟩
  exact t.accept_extends _

theorem keys_extends (t : Text) (typed : List Byte) : t.Extends (typed.foldl key t) := by
  induction typed generalizing t with
  | nil => exact ⟨List.prefix_refl _, rfl⟩
  | cons c rest ih =>
      obtain ⟨grows, same⟩ := t.key_extends c
      obtain ⟨grows', same'⟩ := ih (t.key c)
      exact ⟨grows.trans grows', same'.trans same⟩

def read (t : Text) : List Byte := t.committed.take t.taken

theorem Extends.read {later : Text} (grows : t.Extends later) (started : t.taken ≤ t.committed.length) :
    later.read = t.read := by
  obtain ⟨⟨more, same⟩, taken⟩ := grows
  rw [Text.read, ← same, taken, List.take_append_of_le_length started, Text.read]

theorem read_take (t : Text) (count : Nat) :
    { t with taken := t.taken + count }.read = t.read ++ t.unread.take count := List.take_add

end Text

structure Shows (input : Input) (t : Text) : Prop where
  started : t.taken ≤ t.committed.length
  written : input.w = input.r + BitVec.ofNat 32 t.unread.length
  edited : input.e = input.r + BitVec.ofNat 32 (t.unread.length + t.tail.length)
  ring : RingBuffer.contents (by decide) input.buf input.r (t.unread.length + t.tail.length) = t.unread ++ t.tail
  room : t.unread.length + t.tail.length ≤ inputBuf
  plain : newline ∉ t.tail

namespace Shows

variable {input : Input} {t : Text}

theorem range {count : Nat} (bound : count ≤ inputBuf) : count < 2 ^ 32 :=
  bound.trans_lt (by decide)

theorem count_written (shows : Shows input t) : (input.w - input.r).toNat = t.unread.length := by
  rw [shows.written, RingBuffer.toNat_add_sub (range (by have := shows.room; omega))]

theorem count_edited (shows : Shows input t) : (input.e - input.r).toNat = t.unread.length + t.tail.length := by
  rw [shows.edited, RingBuffer.toNat_add_sub (range shows.room)]

theorem count_tail (shows : Shows input t) : (input.e - input.w).toNat = t.tail.length := by
  rw [shows.edited, BitVec.ofNat_add, ← BitVec.add_assoc, ← shows.written,
    RingBuffer.toNat_add_sub (range (by have := shows.room; omega))]

theorem edited_eq_iff (shows : Shows input t) {count : Nat} (bound : count ≤ inputBuf) :
    input.e = input.r + BitVec.ofNat 32 count ↔ t.unread.length + t.tail.length = count := by
  rw [shows.edited, RingBuffer.add_ofNat_inj (range shows.room) (range bound)]

theorem tail_empty_iff (shows : Shows input t) : input.e = input.w ↔ t.tail = [] := by
  rw [shows.written, shows.edited_eq_iff (by have := shows.room; omega), Nat.add_eq_left,
    List.length_eq_zero_iff]

theorem unread_empty_iff (shows : Shows input t) : input.r = input.w ↔ t.unread = [] := by
  have zero : input.r = input.r + BitVec.ofNat 32 0 := by simp
  rw [shows.written]
  nth_rewrite 1 [zero]
  rw [RingBuffer.add_ofNat_inj (by decide) (range (by have := shows.room; omega)), eq_comm,
    List.length_eq_zero_iff]

theorem erase_last (shows : Shows input t) {front : List Byte} {c : Byte} (ends : t.tail = front ++ [c]) :
    input.buf (inputIndex (input.e - 1)) = c ∧ Shows { input with e := input.e - 1 } { t with tail := front } := by
  obtain ⟨started, written, edited, ring, room, plain⟩ := shows
  rw [ends, List.length_append, List.length_singleton, ← Nat.add_assoc] at edited room
  have back : input.e - 1 = input.r + BitVec.ofNat 32 (t.unread.length + front.length) := by
    rw [edited, RingBuffer.add_succ_sub_one]
  have split : RingBuffer.contents (by decide) input.buf input.r (t.unread.length + front.length) ++
      [input.buf (inputIndex (input.e - 1))] = (t.unread ++ front) ++ [c] := by
    rw [ends, List.length_append, List.length_singleton, ← Nat.add_assoc, RingBuffer.contents_concat,
      ← back, ← List.append_assoc] at ring
    exact ring
  obtain ⟨before, last⟩ := List.append_inj' split rfl
  refine ⟨(List.cons.inj last).1, started, written, back, before, Nat.le_of_succ_le room, fun inside => plain ?_⟩
  rw [ends]
  exact List.mem_append_left _ inside

theorem killLine (shows : Shows input t) {fuel : Nat} (all : t.tail.length = fuel) :
    Shows (Input.killLine fuel input) { t with tail := [] } := by
  induction fuel generalizing input t with
  | zero =>
      have empty := List.length_eq_zero_iff.mp all
      rw [Input.killLine, ← empty]
      exact shows
  | succ fuel ih =>
      obtain ⟨front, c, ends⟩ := List.eq_nil_or_concat' t.tail |>.resolve_left (by rintro none; simp [none] at all)
      obtain ⟨last, erased⟩ := shows.erase_last ends
      have other : c ≠ newline := by
        rintro rfl
        exact shows.plain (by simp [ends])
      have more : input.e ≠ input.w := fun same => by simp [shows.tail_empty_iff.mp same] at ends
      rw [Input.killLine, if_pos ⟨more, last ▸ other⟩]
      exact ih (t := { t with tail := front }) erased (by simpa [ends] using all)

theorem accept (shows : Shows input t) {c : Byte} (some : c ≠ 0)
    (text : c ≠ control 'P' ∧ c ≠ control 'U' ∧ ¬ (c = control 'H' ∨ c = 0x7f)) :
    Shows (input.consoleintr c).1 (t.accept (if c = BitVec.ofNat 8 '\r'.toNat then newline else c)) := by
  obtain ⟨started, written, edited, ring, room, plain⟩ := id shows
  rw [Input.consoleintr, if_neg text.1, if_neg text.2.1, if_neg text.2.2]
  have fits : input.e - input.r < BitVec.ofNat 32 inputBuf ↔ t.unread.length + t.tail.length < inputBuf := by
    rw [BitVec.lt_def, shows.count_edited]
    rfl
  by_cases free : t.unread.length + t.tail.length < inputBuf
  · rw [if_pos ⟨some, fits.mpr free⟩, Text.accept, if_pos free]
    generalize (if c = BitVec.ofNat 8 '\r'.toNat then newline else c) = stored
    have stores : RingBuffer.contents (by decide) (update input.buf (inputIndex input.e) stored) input.r
        (t.unread.length + t.tail.length + 1) = t.unread ++ (t.tail ++ [stored]) := by
      rw [edited, ← List.append_assoc, ← ring]
      exact RingBuffer.contents_update (by decide) free stored
    have next : input.e + 1 = input.r + BitVec.ofNat 32 (t.unread.length + t.tail.length + 1) := by
      rw [edited, RingBuffer.add_succ]
    have full : input.e + 1 = input.r + BitVec.ofNat 32 inputBuf ↔
        t.unread.length + (t.tail ++ [stored]).length = inputBuf := by
      rw [next, RingBuffer.add_ofNat_inj (range free) (by decide), List.length_append, List.length_singleton]
      exact Iff.rfl
    have length : (t.tail ++ [stored]).length = t.tail.length + 1 := by simp
    dsimp only
    by_cases commits : stored = newline ∨ stored = control 'D' ∨
        t.unread.length + (t.tail ++ [stored]).length = inputBuf
    · rw [if_pos (by rwa [full]), if_pos commits]
      have unread := Text.unread_commit started (t.tail ++ [stored])
      refine ⟨?_, ?_, ?_, ?_, ?_, by simp⟩
      · simp only [List.length_append]
        omega
      · rw [unread, List.length_append, length]
        exact next
      · rw [unread, List.length_append, length]
        exact next
      · rw [unread, List.length_append, length, List.append_nil]
        exact stores
      · rw [unread, List.length_append, length]
        exact free
    · rw [if_neg (by rwa [full]), if_neg commits]
      refine ⟨started, written, ?_, ?_, ?_, ?_⟩
      · simp only [length]
        exact next
      · simp only [length]
        exact stores
      · simp only [length]
        exact free
      · simp only [List.mem_append, List.mem_singleton, not_or]
        exact ⟨plain, fun same => commits (Or.inl same.symm)⟩
  · rw [if_neg fun both => free (fits.mp both.2), Text.accept, if_neg free]
    exact shows

theorem key (shows : Shows input t) (c : Byte) : Shows (input.consoleintr c).1 (t.key c) := by
  rw [Text.key]
  by_cases list : c = control 'P'
  · rw [Input.consoleintr, if_pos list, if_pos list]
    exact shows
  by_cases kill : c = control 'U'
  · rw [Input.consoleintr, if_neg list, if_neg list, if_pos kill, if_pos kill]
    exact shows.killLine shows.count_tail.symm
  by_cases back : c = control 'H' ∨ c = 0x7f
  · rw [Input.consoleintr, if_neg list, if_neg list, if_neg kill, if_neg kill, if_pos back, if_pos back]
    rcases List.eq_nil_or_concat' t.tail with none | ⟨front, last, ends⟩
    · rw [if_neg fun other => other (shows.tail_empty_iff.mpr none), none, List.dropLast_nil, ← none]
      exact shows
    · rw [if_pos fun same => by simp [shows.tail_empty_iff.mp same] at ends, ends, List.dropLast_concat]
      exact (shows.erase_last ends).2
  rw [if_neg list, if_neg kill, if_neg back]
  by_cases zero : c = 0
  · rw [if_pos zero, Input.consoleintr, if_neg list, if_neg kill, if_neg back, if_neg fun both => both.1 zero]
    exact shows
  · rw [if_neg zero]
    exact shows.accept zero ⟨list, kill, back⟩

theorem keys (shows : Shows input t) (typed : List Byte) :
    Shows (typed.foldl (fun input c => (input.consoleintr c).1) input) (typed.foldl Text.key t) := by
  induction typed generalizing input t with
  | nil => exact shows
  | cons c rest ih => exact ih (shows.key c)

theorem take (shows : Shows input t) {c : Byte} {rest : List Byte} (begins : t.unread = c :: rest) :
    input.buf (inputIndex input.r) = c ∧
      Shows { input with r := input.r + 1 } { t with taken := t.taken + 1 } := by
  obtain ⟨started, written, edited, ring, room, plain⟩ := shows
  have unread : { t with taken := t.taken + 1 }.unread = rest := by rw [Text.unread_take, begins, List.drop_one, List.tail_cons]
  have inside : t.taken < t.committed.length := by
    by_contra past
    rw [Text.unread, List.drop_eq_nil_of_le (not_lt.mp past)] at begins
    simp at begins
  rw [begins, List.length_cons, Nat.add_right_comm] at edited ring room
  rw [begins, List.length_cons, RingBuffer.succ_add] at written
  rw [RingBuffer.succ_add] at edited
  rw [RingBuffer.contents_succ, List.cons_append] at ring
  obtain ⟨first, others⟩ := List.cons.inj ring
  refine ⟨first, inside, ?_, ?_, ?_, ?_, plain⟩
  · rw [unread]
    exact written
  · rw [unread]
    exact edited
  · rw [unread]
    exact others
  · rw [unread]
    exact Nat.le_of_succ_le room

theorem readLoop (shows : Shows input t) (killed : Bool) {n target : Nat} (dst : List Byte)
    (fair : n + dst.length = target) :
    (readLoop killed target n input dst).2 = (reads killed target n t.unread dst).2 ∧
      Shows (Ipc.readLoop killed target n input dst).1
        { t with taken := t.taken + (reads killed target n t.unread dst).1 } := by
  induction n generalizing input t dst with
  | zero => exact ⟨rfl, shows⟩
  | succ n ih =>
      cases begins : t.unread with
      | nil =>
          rw [Ipc.readLoop, if_pos (shows.unread_empty_iff.mpr begins)]
          exact ⟨rfl, shows⟩
      | cons c rest =>
          obtain ⟨first, taken⟩ := shows.take begins
          have more : input.r ≠ input.w := fun same => by simp [shows.unread_empty_iff.mp same] at begins
          have after : { t with taken := t.taken + 1 }.unread = rest := by
            rw [Text.unread_take, begins, List.drop_one, List.tail_cons]
          rw [Ipc.readLoop, if_neg more, first, reads]
          dsimp only
          by_cases eof : c = control 'D'
          · rw [if_pos eof, if_pos eof]
            have value : (target : Int) - (n + 1 : Nat) = dst.length := by omega
            by_cases none : dst = []
            · have last : ¬ n + 1 < target := by simp [none] at fair; omega
              rw [if_neg last, if_pos none, value]
              exact ⟨rfl, taken⟩
            · have early : n + 1 < target := by have := List.length_pos_iff.mpr none; omega
              have same : { input with r := input.r + 1 - 1 } = input := by rw [BitVec.add_sub_cancel]
              rw [if_pos early, if_neg none, value, same]
              exact ⟨rfl, shows⟩
          · rw [if_neg eof, if_neg eof]
            by_cases line : c = newline
            · have value : (target : Int) - n = (dst.length + 1 : Nat) := by omega
              rw [if_pos line, if_pos line, value]
              exact ⟨rfl, taken⟩
            · rw [if_neg line, if_neg line]
              obtain ⟨reader, later⟩ := ih taken (dst ++ [c]) (by simp; omega)
              rw [after] at reader later
              refine ⟨reader, ?_⟩
              rw [Nat.add_assoc, Nat.add_comm 1] at later
              exact later

end Shows

def Reader.Fair : Reader → Prop
  | .waiting n target dst => n + dst.length = target
  | _ => True

theorem reads_spec (killed : Bool) {n target : Nat} (dst unread : List Byte)
    (fair : n + dst.length = target) :
    (reads killed target n unread dst).1 ≤ unread.length ∧ (reads killed target n unread dst).2.Fair ∧
      (reads killed target n unread dst).2.dst =
        dst ++ (unread.take (reads killed target n unread dst).1).filter (· ≠ control 'D') := by
  induction n generalizing unread dst with
  | zero => simp [reads, Reader.Fair, Reader.dst]
  | succ n ih =>
      cases unread with
      | nil =>
          cases killed
          · exact ⟨le_rfl, fair, (List.append_nil dst).symm⟩
          · exact ⟨le_rfl, trivial, (List.append_nil dst).symm⟩
      | cons c rest =>
          rw [reads]
          by_cases eof : c = control 'D'
          · rw [if_pos eof]
            refine ⟨?_, trivial, ?_⟩
            · split <;> simp
            · split <;> simp [Reader.dst, eof]
          · rw [if_neg eof]
            by_cases line : c = newline
            · rw [if_pos line]
              refine ⟨by simp, trivial, ?_⟩
              simp [Reader.dst, eof]
            · rw [if_neg line]
              obtain ⟨bound, fairly, stored⟩ := ih (dst ++ [c]) rest (by simp; omega)
              refine ⟨by simpa using bound, fairly, ?_⟩
              rw [stored, List.take_succ_cons, List.filter_cons_of_pos (by simpa using eof), List.append_assoc]
              rfl

structure Matches (c : Console P) (s : Session P) : Prop where
  shows : Shows c.input s.text
  readers : c.reader = s.reader
  fair : ∀ p, (s.reader p).Fair
  handed : c.handed = s.text.read.filter (· ≠ control 'D')

theorem matches_start : Matches (Console.start : Console P) Session.start :=
  ⟨⟨le_rfl, rfl, rfl, rfl, Nat.zero_le _, by simp [Session.start]⟩, rfl, fun _ => trivial, rfl⟩

namespace Matches

variable [DecidableEq P] {c c' : Console P} {s : Session P}

theorem update_fair (holds : Matches c s) (p : P) {reader : Reader} (fair : reader.Fair) (q : P) :
    (update s.reader p reader q).Fair := by
  by_cases same : q = p
  · rwa [same, update_self]
  · rw [update_of_ne same]
    exact holds.fair q

theorem turn (holds : Matches c s) {p : P} {killed : Bool} {reader : Reader} (here : s.reader p = reader)
    (stepped : c.turn p killed reader = some c') : ∃ s', s.turn p killed reader = some s' ∧ Matches c' s' := by
  cases reader with
  | idle => simp [Console.turn] at stepped
  | returned value dst => simp [Console.turn] at stepped
  | waiting n target dst =>
      have fair : n + dst.length = target := by simpa [Reader.Fair, here] using holds.fair p
      obtain ⟨same, shows⟩ := holds.shows.readLoop killed dst fair
      obtain ⟨-, fairly, stored⟩ := reads_spec killed dst s.text.unread fair
      simp only [Console.turn, Option.some.injEq] at stepped
      subst stepped
      refine ⟨_, rfl, shows, ?_, holds.update_fair p fairly, ?_⟩
      · rw [holds.readers, same]
      · dsimp only
        rw [same, stored, List.drop_left, holds.handed, Text.read_take, List.filter_append]

theorem step (holds : Matches c s) {event : ConsoleEvent P} (stepped : c.step event = some c') :
    ∃ s', s.step event = some s' ∧ Matches c' s' := by
  cases event with
  | keys typed =>
      simp only [Console.step, Option.some.injEq] at stepped
      subst stepped
      refine ⟨_, rfl, holds.shows.keys typed, holds.readers, holds.fair, ?_⟩
      rw [(s.text.keys_extends typed).read holds.shows.started]
      exact holds.handed
  | read p n =>
      have fair : (Reader.start n).Fair := Nat.add_zero _
      have started : ∃ s', s.step (.read p n) = some s' ∧
          s' = { s with reader := update s.reader p (.start n) } ∧
          c' = { c with reader := update c.reader p (.start n) } := by
        simp only [Console.step, holds.readers] at stepped
        simp only [Session.step]
        cases here : s.reader p with
        | waiting => simp [here] at stepped
        | idle | returned =>
            rw [here] at stepped
            exact ⟨_, rfl, rfl, by rw [← Option.some.inj stepped, holds.readers]⟩
      obtain ⟨s', moved, rfl, rfl⟩ := started
      exact ⟨_, moved, holds.shows, by rw [holds.readers], holds.update_fair p fair, holds.handed⟩
  | turn p killed =>
      rw [Console.step, holds.readers] at stepped
      exact holds.turn rfl stepped

end Matches

def Input.committed (input : Input) : List Byte :=
  RingBuffer.contents (by decide) input.buf input.r (input.w - input.r).toNat

theorem Shows.committed {input : Input} {t : Text} (shows : Shows input t) : input.committed = t.unread := by
  have prefixes : input.committed = (RingBuffer.contents (by decide) input.buf input.r
      (t.unread.length + t.tail.length)).take t.unread.length := by
    rw [Input.committed, shows.count_written, RingBuffer.take_contents (Nat.le_add_right _ _)]
  rw [prefixes, shows.ring, List.take_left]

variable [DecidableEq P]

/-- In every run of keys and readers the readers get what the session gives them, the indices stay in order
within `INPUT_BUF`, the ring holds every committed byte that has not been read, and the bytes handed out are
those read from the committed text, without the `^D`s. -/
theorem console_line_discipline {events : List (ConsoleEvent P)} {c : Console P}
    (reached : run Console.step Console.start events = some c) :
    ∃ s, run Session.step Session.start events = some s ∧ c.reader = s.reader ∧
      (c.input.w - c.input.r).toNat ≤ (c.input.e - c.input.r).toNat ∧
      (c.input.e - c.input.r).toNat ≤ inputBuf ∧
      c.input.committed = s.text.committed.drop s.text.taken ∧
      c.handed = (s.text.committed.take s.text.taken).filter (· ≠ control 'D') := by
  have simulated : ∃ s, run Session.step Session.start events = some s ∧ Matches c s := by
    refine run_invariant (fun history c => ∃ s, run Session.step Session.start history = some s ∧ Matches c s)
      ⟨Session.start, rfl, matches_start⟩ ?_ events c reached
    rintro history before event after ⟨s, arrived, holds⟩ stepped
    obtain ⟨s', moved, holds'⟩ := holds.step stepped
    exact ⟨s', run_concat_eq_some.mpr ⟨s, arrived, moved⟩, holds'⟩
  obtain ⟨s, arrived, holds⟩ := simulated
  refine ⟨s, arrived, holds.readers, ?_, ?_, holds.shows.committed, holds.handed⟩
  · rw [holds.shows.count_written, holds.shows.count_edited]
    exact Nat.le_add_right _ _
  · rw [holds.shows.count_edited]
    exact holds.shows.room

/-- A user types `ab`, erases the `b`, types `c`, a newline and `d`, and ends the input; three reads follow. -/
def typesAndReads : List (ConsoleEvent Unit) :=
  [.read () 10, .turn () false, .keys [97, 98, 8, 99], .turn () false, .keys [13, 100, 4], .turn () false,
    .read () 10, .turn () false, .read () 10, .turn () false]

theorem console_line_discipline_typed : ∃ c : Console Unit,
    run Console.step Console.start typesAndReads = some c ∧ c.handed = [97, 99, newline, 100] ∧
      c.reader () = .returned 0 [] ∧ (c.input.e - c.input.r).toNat ≤ inputBuf := by
  have values : (run Console.step Console.start typesAndReads).map
      (fun c : Console Unit => (c.handed, c.reader ())) = some ([97, 99, newline, 100], .returned 0 []) := by
    decide +kernel
  obtain ⟨c, reached, both⟩ := Option.map_eq_some_iff.mp values
  obtain ⟨handed, reader⟩ := Prod.mk.inj both
  obtain ⟨-, -, -, -, bound, -⟩ := console_line_discipline reached
  exact ⟨c, reached, handed, reader, bound⟩

end OsLabs.Ipc
