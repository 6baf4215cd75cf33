import OsLabs.Wordstack.WordstackBounds

/-!
The stack discipline. A `-r` reads `free` before it waits for a word and takes the
mutex. Every word comes out of the topmost occupied row, and none is lost or returned
twice, exactly when `free` has not changed in between; a stack that was empty and has
got one word is the only exception.
-/

namespace OsLabs.Wordstack

open Function OsLabs.FlatArray OsLabs.Interleaving

def Op.apply (rows : Int → Option (List Char)) : Op → Int → Option (List Char)
  | .push row word => update rows row (some word)
  | .pop row _ => update rows row none

def occupied (log : List Op) : Int → Option (List Char) := log.foldl Op.apply fun _ => none

def Blank (c : Char) : Prop := c = ' ' ∨ c = Char.ofNat 0

def Shows (row word : List Char) : Prop := ∃ padding, row = word ++ padding ∧ ∀ c ∈ padding, Blank c

/-- A word goes above every occupied row, and comes out of the topmost one. -/
def Op.OnTop (rows : Int → Option (List Char)) : Op → Prop
  | .push row _ => ∀ other, rows other ≠ none → other < row
  | .pop row taken => (∃ word, rows row = some word ∧ Shows taken word) ∧
      ∀ other, rows other ≠ none → other ≤ row

def Lifo (log : List Op) : Prop :=
  ∀ before op after, log = before ++ op :: after → op.OnTop (occupied before)

def Command.Fits : Command → Prop
  | .w palabra => palabra.length ≤ maxWord
  | .r => True

instance : DecidablePred Command.Fits
  | .w _ => inferInstanceAs (Decidable (_ ≤ _))
  | .r => inferInstanceAs (Decidable True)

/-- A `-r` copies its row while `free` is what it read, or it read an empty stack and there
is one word. -/
def FreeAsRead {ι : Type*} (s : State ι) (i : ι) : Prop :=
  match s.place i with
  | .popCopy read _ => read = s.shared.free ∨ read = 0 ∧ s.shared.free = 1
  | _ => True

instance {ι : Type*} (s : State ι) : DecidablePred (FreeAsRead s) := fun i => by
  unfold FreeAsRead
  split <;> infer_instance

/-- Every critical section so far was on top, and the words that have not been returned
are, whole, in the rows under `free`. -/
structure Stacked {ι : Type*} (s : State ι) : Prop where
  lifo : Lifo s.shared.log
  shows : ∀ row word, occupied s.shared.log row = some word →
    Shows (readRow s.shared.heap row) word
  inUse : s.shared.mutex = none →
    ∀ row : Int, occupied s.shared.log row ≠ none ↔ 0 ≤ row ∧ row < s.shared.free

theorem occupied_concat (log : List Op) (op : Op) :
    occupied (log ++ [op]) = op.apply (occupied log) := by
  rw [occupied, List.foldl_concat]
  rfl

theorem lifo_concat {log : List Op} {op : Op} :
    Lifo (log ++ [op]) ↔ Lifo log ∧ op.OnTop (occupied log) := by
  constructor
  · intro lifo
    refine ⟨?_, lifo log op [] rfl⟩
    intro before current after split
    exact lifo before current (after ++ [op]) (by simp [split])
  · rintro ⟨lifo, onTop⟩ before current after split
    rcases Runs.split_concat split with ⟨same, here⟩ | ⟨shorter, earlier⟩
    · subst same here
      exact onTop
    · exact lifo before current shorter earlier

section Rows

variable (heap : Int → Char) (row other : Int)

theorem readRow_write_other {values : List Char} (different : other ≠ row)
    (fits : values.length ≤ maxWord) :
    readRow (writeFrom heap (rowStart row) values) other = readRow heap other := by
  apply readFrom_congr
  intro index lower upper
  apply writeFrom_outside
  simp only [rowStart, maxWord] at *
  omega

theorem shows_write {word : List Char} (fits : word.length ≤ maxWord)
    (blank : ∀ c ∈ readRow heap row, Blank c) :
    Shows (readRow (writeFrom heap (rowStart row) word) row) word := by
  refine ⟨readFrom heap (rowStart row + word.length) (maxWord - word.length), ?_, ?_⟩
  · have split := readFrom_writeFrom heap (rowStart row) word (maxWord - word.length)
    rwa [Nat.add_sub_cancel' fits] at split
  · intro c member
    apply blank
    rw [readRow, ← Nat.add_sub_cancel' fits, readFrom_append]
    exact List.mem_append_right _ member

theorem blank_take : ∀ c ∈ readRow (writeFrom heap (rowStart row) (List.replicate maxWord ' ')) row,
    Blank c := by
  intro c member
  have whole := readFrom_writeFrom heap (rowStart row) (List.replicate maxWord ' ') 0
  rw [List.length_replicate, Nat.add_zero] at whole
  rw [readRow, whole, readFrom, List.append_nil] at member
  exact Or.inl (List.eq_of_mem_replicate member)

end Rows

structure RowsHold (rows : Int → Option (List Char)) (heap : Int → Char) : Prop where
  shows : ∀ row word, rows row = some word → Shows (readRow heap row) word
  blank : ∀ row : Int, 0 ≤ row → row < maxItems → rows row = none →
    ∀ c ∈ readRow heap row, Blank c

theorem RowsHold.write {rows : Int → Option (List Char)} {heap : Int → Char}
    (hold : RowsHold rows heap) (target : Int) {values : List Char} {content : Option (List Char)}
    (fits : values.length ≤ maxWord)
    (shown : ∀ word, content = some word →
      Shows (readRow (writeFrom heap (rowStart target) values) target) word)
    (cleared : content = none →
      ∀ c ∈ readRow (writeFrom heap (rowStart target) values) target, Blank c) :
    RowsHold (update rows target content) (writeFrom heap (rowStart target) values) := by
  constructor
  · intro row word found
    by_cases here : row = target
    · subst here
      rw [update_self] at found
      exact shown word found
    · rw [update_of_ne here] at found
      rw [readRow_write_other _ _ _ here fits]
      exact hold.shows row word found
  · intro row lower upper empty
    by_cases here : row = target
    · subst here
      rw [update_self] at empty
      exact cleared empty
    · rw [update_of_ne here] at empty
      rw [readRow_write_other _ _ _ here fits]
      exact hold.blank row lower upper empty

def Pc.rowsLead : Pc → Int
  | .pushItems | .pushFree => 1
  | .popItems _ | .popFree _ => -1
  | _ => 0

def Pc.palabra : Pc → Option (List Char)
  | .pushWait word | .pushLock word | .pushCopy word => some word
  | _ => none

theorem rowsLead_noncritical {pc : Pc} (outside : pc.critical = false) : pc.rowsLead = 0 := by
  cases pc <;> simp_all [Pc.critical, Pc.rowsLead]

section Steps

variable {ι : Type*} {i : ι} {s next : Shared ι} {pc pc' : Pc}

theorem quiet_step (moved : program i s pc = some (next, pc'))
    (pushing : ∀ word, pc ≠ .pushCopy word) (popping : ∀ read wordIndex, pc ≠ .popCopy read wordIndex) :
    next.log = s.log ∧ next.heap = s.heap ∧ next.free + pc'.rowsLead = s.free + pc.rowsLead := by
  cases program_moves moved <;> simp_all [Pc.rowsLead, Int.sub_eq_add_neg]

theorem log_step (moved : program i s pc = some (next, pc')) :
    next.log = s.log ∨ ∃ op, next.log = s.log ++ [op] := by
  cases program_moves moved
  case pushCopy => exact Or.inr ⟨_, rfl⟩
  case popCopy => exact Or.inr ⟨_, rfl⟩
  all_goals exact Or.inl rfl

variable [DecidableEq ι]

theorem run_palabra {commands : ι → Command} {schedule : List ι} {s : State ι}
    (reached : Runs.run step (initial commands) schedule = some s) (i : ι) {word : List Char}
    (short : ∀ i, (commands i).Fits) (carries : (s.place i).palabra = some word) : word.length ≤ maxWord := by
  refine run_places (fun pc => ∀ word, pc.palabra = some word → word.length ≤ maxWord) ?_ ?_ reached
    i word carries
  · intro i word carries
    have fits := short i
    cases command : commands i with
    | w palabra =>
        simp only [initial, command, Command.start, Pc.palabra, Option.some.injEq] at carries
        rw [command] at fits
        exact carries ▸ fits
    | r => simp [initial, command, Command.start, Pc.palabra] at carries
  · intro history state mover shared pc _ moved kept word carries
    cases pcEq : state.place mover <;> rw [pcEq] at moved kept <;> cases program_moves moved <;>
      simp only [Pc.palabra, Option.some.injEq, reduceCtorEq, forall_eq'] at carries kept
    all_goals exact carries ▸ kept

end Steps

variable {ι : Type*} [Fintype ι]

structure Tidy (s : State ι) : Prop where
  inUse : ∀ row : Int, occupied s.shared.log row ≠ none ↔
    0 ≤ row ∧ row < s.shared.free + tally Pc.rowsLead s.place
  hold : RowsHold (occupied s.shared.log) s.shared.heap
  lifo : Lifo s.shared.log

variable {s : State ι} {mover : ι}

theorem initial_tidy (commands : ι → Command) : Tidy (initial commands) := by
  have start : tally Pc.rowsLead (initial commands).place = 0 :=
    tally_eq_zero fun i => start_weightless (fun _ => rfl) rfl (commands i)
  refine ⟨?_, ⟨?_, ?_⟩, ?_⟩
  · intro row
    rw [start]
    simp only [initial, created, occupied, List.foldl_nil, ne_eq, not_true, false_iff]
    omega
  · intro row word found
    simp [initial, created, occupied] at found
  · intro row _ _ _ c member
    obtain ⟨_, same⟩ := eq_of_mem_readFrom member
    exact Or.inr same
  · intro before op after split
    simp [initial, created] at split

theorem rowsLead_of_critical (mover : ι) (guarded : Guarded s)
    (inside : (s.place mover).critical = true) :
    tally Pc.rowsLead s.place = (s.place mover).rowsLead := by
  refine tally_eq_single mover fun j different => rowsLead_noncritical ?_
  have holder := (guarded mover).mp inside
  have other := guarded j
  rw [holder] at other
  simpa [Ne.symm different] using other

theorem Tidy.inUse_copying (tidy : Tidy s) (mover : ι) (guarded : Guarded s)
    (inside : (s.place mover).critical = true) (level : (s.place mover).rowsLead = 0) (row : Int) :
    occupied s.shared.log row ≠ none ↔ 0 ≤ row ∧ row < s.shared.free := by
  rw [tidy.inUse, rowsLead_of_critical mover guarded inside, level, Int.add_zero]

theorem Tidy.inUse_pushCopy (tidy : Tidy s) (guarded : Guarded s) {word : List Char}
    (copying : s.place mover = .pushCopy word) (row : Int) :
    occupied s.shared.log row ≠ none ↔ 0 ≤ row ∧ row < s.shared.free :=
  tidy.inUse_copying mover guarded (by simp [copying, Pc.critical])
    (by simp [copying, Pc.rowsLead]) row

theorem Tidy.inUse_popCopy (tidy : Tidy s) (guarded : Guarded s) {read wordIndex : Int}
    (copying : s.place mover = .popCopy read wordIndex) (row : Int) :
    occupied s.shared.log row ≠ none ↔ 0 ≤ row ∧ row < s.shared.free :=
  tidy.inUse_copying mover guarded (by simp [copying, Pc.critical])
    (by simp [copying, Pc.rowsLead]) row

theorem Counted.free_pos_popCopy (counted : Counted s) {read wordIndex : Int}
    (copying : s.place mover = .popCopy read wordIndex) : 0 < s.shared.free :=
  counted.free_pos (i := mover) (by simp [copying, Pc.fullDebt])

theorem Tidy.top_of_onTop (tidy : Tidy s) (counted : Counted s) (guarded : Guarded s)
    {read wordIndex : Int} {taken : List Char} (copying : s.place mover = .popCopy read wordIndex)
    (onTop : (Op.pop wordIndex taken).OnTop (occupied s.shared.log)) :
    wordIndex = s.shared.free - 1 := by
  obtain ⟨⟨word, stored, _⟩, above⟩ := onTop
  have inUse := tidy.inUse_popCopy guarded copying
  have positive := counted.free_pos_popCopy copying
  have under := (inUse wordIndex).mp (by simp [stored])
  have highest := above (s.shared.free - 1) ((inUse _).mpr (by omega))
  omega

variable [DecidableEq ι]

theorem rowsLead_moved (mover : ι) (guarded : Guarded s) (inside : (s.place mover).critical = true)
    (level : (s.place mover).rowsLead = 0) (pc : Pc) :
    tally Pc.rowsLead (update s.place mover pc) = pc.rowsLead := by
  rw [tally_update, rowsLead_of_critical mover guarded inside, level]
  omega

theorem tidy_pushCopy (tidy : Tidy s) (counted : Counted s) (guarded : Guarded s)
    {word : List Char} (copying : s.place mover = .pushCopy word) (short : word.length ≤ maxWord) :
    Tidy ⟨s.shared.copyIn word, update s.place mover .pushItems⟩ := by
  have bounds := counted.free_bounds
  have room := counted.free_lt (i := mover) (by simp [copying, Pc.emptyDebt])
  have after := rowsLead_moved mover guarded (by simp [copying, Pc.critical])
    (by simp [copying, Pc.rowsLead]) .pushItems
  have inUse := tidy.inUse_pushCopy guarded copying
  have unused : occupied s.shared.log s.shared.free = none := by
    by_contra used
    have under := (inUse _).mp used
    omega
  refine ⟨?_, ?_, ?_⟩
  · intro row
    simp only [Shared.copyIn, occupied_concat, Op.apply, after, Pc.rowsLead]
    by_cases here : row = s.shared.free
    · subst here
      simp only [update_self, ne_eq, reduceCtorEq, not_false_eq_true, true_iff]
      omega
    · rw [update_of_ne here, inUse]
      omega
  · simp only [Shared.copyIn, occupied_concat, Op.apply]
    refine tidy.hold.write s.shared.free short ?_ (by simp)
    intro found stored
    rw [← Option.some.inj stored]
    exact shows_write _ _ short (tidy.hold.blank _ bounds.1 room unused)
  · refine lifo_concat.mpr ⟨tidy.lifo, ?_⟩
    intro other used
    have under := (inUse other).mp used
    omega

theorem tidy_popCopy (tidy : Tidy s) (counted : Counted s) (guarded : Guarded s)
    {read wordIndex : Int} (copying : s.place mover = .popCopy read wordIndex)
    (top : wordIndex = s.shared.free - 1) :
    Tidy ⟨(s.shared.copyOut wordIndex).2,
      update s.place mover (.popItems (s.shared.copyOut wordIndex).1)⟩ := by
  have positive := counted.free_pos_popCopy copying
  have after := rowsLead_moved mover guarded (by simp [copying, Pc.critical])
    (by simp [copying, Pc.rowsLead]) (.popItems (s.shared.copyOut wordIndex).1)
  have inUse := tidy.inUse_popCopy guarded copying
  obtain ⟨word, stored⟩ := Option.ne_none_iff_exists'.mp ((inUse wordIndex).mpr (by omega))
  refine ⟨?_, ?_, ?_⟩
  · intro row
    rw [after]
    simp only [Shared.copyOut, takeFrom_eq, occupied_concat, Op.apply, Pc.rowsLead]
    by_cases here : row = wordIndex
    · subst here
      simp only [update_self, ne_eq, not_true, false_iff]
      omega
    · rw [update_of_ne here, inUse]
      omega
  · simp only [Shared.copyOut, takeFrom_eq, occupied_concat, Op.apply]
    exact tidy.hold.write wordIndex (by simp) (by simp) (fun _ => blank_take _ _)
  · simp only [Shared.copyOut, takeFrom_eq]
    refine lifo_concat.mpr ⟨tidy.lifo, ⟨word, stored, tidy.hold.shows wordIndex word stored⟩, ?_⟩
    intro other used
    have under := (inUse other).mp used
    omega

theorem tidy_step {next : State ι} (tidy : Tidy s) (counted : Counted s) (guarded : Guarded s)
    (short : ∀ word, (s.place mover).palabra = some word → word.length ≤ maxWord)
    (top : ∀ read wordIndex, s.place mover = .popCopy read wordIndex →
      wordIndex = s.shared.free - 1)
    (stepped : step s mover = some next) : Tidy next := by
  obtain ⟨shared, pc, moved, same⟩ := act_eq_some.mp stepped
  subst same
  by_cases pushing : ∃ word, s.place mover = .pushCopy word
  · obtain ⟨word, copying⟩ := pushing
    rw [copying] at moved short
    cases program_moves moved
    exact tidy_pushCopy tidy counted guarded copying (short word rfl)
  by_cases popping : ∃ read wordIndex, s.place mover = .popCopy read wordIndex
  · obtain ⟨read, wordIndex, copying⟩ := popping
    rw [copying] at moved
    cases program_moves moved
    exact tidy_popCopy tidy counted guarded copying (top read wordIndex copying)
  · obtain ⟨log, heap, rows⟩ := quiet_step moved (fun word here => pushing ⟨word, here⟩)
      (fun read wordIndex here => popping ⟨read, wordIndex, here⟩)
    refine ⟨?_, ?_, ?_⟩
    · intro row
      simp only [log, tidy.inUse, tally_update]
      omega
    · rw [log, heap]
      exact tidy.hold
    · rw [log]
      exact tidy.lifo

theorem wordIndexOf_top {read free : Int} (positive : 0 < free) :
    wordIndexOf read = free - 1 ↔ read = free ∨ read = 0 ∧ free = 1 := by
  rw [wordIndexOf]
  split <;> omega

section Runs

variable {commands : ι → Command} {schedule : List ι}

theorem freeAsRead_iff (reached : Runs.run step (initial commands) schedule = some s) (i : ι) :
    FreeAsRead s i ↔
      ∀ read wordIndex, s.place i = .popCopy read wordIndex → wordIndex = s.shared.free - 1 := by
  rw [FreeAsRead]
  split
  next read wordIndex copying =>
    have same := (run_reading reached i (by rw [copying]; rfl)).2.2
    have positive := (run_counted reached).free_pos_popCopy copying
    rw [← wordIndexOf_top positive, ← same]
    constructor
    · intro top read' wordIndex' copying'
      simp only [copying, Pc.popCopy.injEq] at copying'
      rw [← copying'.2]
      exact top
    · intro top
      exact top read wordIndex copying
  next other =>
    constructor
    · intro _ read wordIndex copying
      exact absurd copying (other read wordIndex)
    · intro _
      trivial

theorem run_tidy (short : ∀ i, (commands i).Fits)
    (asRead : Runs.Along step (fun _ => FreeAsRead) (initial commands) schedule)
    (reached : Runs.run step (initial commands) schedule = some s) : Tidy s := by
  refine Runs.run_invariant_reached (fun _ s => Tidy s) (initial_tidy commands) ?_ schedule s asRead
    reached
  intro history state mover next before tidy asRead stepped
  exact tidy_step tidy (run_counted before) (run_guarded before)
    (fun word => run_palabra before mover short) ((freeAsRead_iff before mover).mp asRead) stepped

theorem run_freeAsRead (short : ∀ i, (commands i).Fits)
    (reached : Runs.run step (initial commands) schedule = some s) (lifo : Lifo s.shared.log) :
    Runs.Along step (fun _ => FreeAsRead) (initial commands) schedule := by
  induction schedule using List.reverseRecOn generalizing s with
  | nil =>
      intro before i after state split _
      simp at split
  | append_singleton history mover ih =>
      obtain ⟨last, before, stepped⟩ := Runs.run_concat_eq_some.mp reached
      obtain ⟨shared, pc, moved, same⟩ := act_eq_some.mp stepped
      subst same
      have earlier : Lifo last.shared.log := by
        rcases log_step moved with kept | ⟨op, added⟩
        · exact kept ▸ lifo
        · exact (lifo_concat.mp (added ▸ lifo)).1
      have along := ih before earlier
      refine along.concat ?_
      intro state arrived
      obtain rfl : last = state := Option.some.inj (before.symm.trans arrived)
      refine (freeAsRead_iff before mover).mpr ?_
      intro read wordIndex copying
      rw [copying] at moved
      cases program_moves moved
      exact (run_tidy short along before).top_of_onTop (run_counted before)
        (run_guarded before) copying (lifo_concat.mp lifo).2

end Runs

/-- With words that fit a row, a run keeps the stack exactly when each `-r` copies its row
while `free` is what it read, or it read 0 and `free` is 1. -/
theorem stacked_iff_free_as_read (commands : ι → Command) (schedule : List ι) (s : State ι)
    (short : ∀ i, (commands i).Fits)
    (reached : Runs.run step (initial commands) schedule = some s) :
    Stacked s ↔ Runs.Along step (fun _ => FreeAsRead) (initial commands) schedule := by
  constructor
  · intro stacked
    exact run_freeAsRead short reached stacked.lifo
  · intro asRead
    have tidy := run_tidy short asRead reached
    refine ⟨tidy.lifo, tidy.hold.shows, ?_⟩
    intro unlocked row
    have outside := (run_guarded reached).noncritical unlocked
    have settled := tally_eq_zero fun i => rowsLead_noncritical (outside i)
    rw [tidy.inUse, settled, Int.add_zero]

def sampleCommands : Fin 4 → Command
  | 0 => .w ['a']
  | 1 => .w ['b']
  | 2 => .r
  | 3 => .w ['c']

theorem stacked_iff_free_as_read_example :
    ∃ s, Runs.run step (initial sampleCommands)
        (List.replicate 7 0 ++ List.replicate 7 1 ++ List.replicate 8 2) = some s ∧
      Stacked s ∧ s.place 2 = .popDone ('b' :: List.replicate 49 (Char.ofNat 0)) := by
  let schedule : List (Fin 4) := List.replicate 7 0 ++ List.replicate 7 1 ++ List.replicate 8 2
  let s := (Runs.run step (initial sampleCommands) schedule).get (by decide +kernel)
  have reached : Runs.run step (initial sampleCommands) schedule = some s :=
    (Option.some_get _).symm
  have asRead : Runs.Along step (fun _ => FreeAsRead) (initial sampleCommands) schedule :=
    Runs.alongCheck_sound _ _ _ _ (by decide +kernel)
  exact ⟨s, reached,
    (stacked_iff_free_as_read sampleCommands schedule s (by decide) reached).mpr asRead,
    by decide +kernel⟩

/-- A `-r` reads `free` when the stack holds `a`; a `-w` adds `b`; the `-r` then takes
`a` from under it, and the next `-w` writes over `b`. -/
theorem stale_row_loses_word :
    ∃ s, Runs.run step (initial sampleCommands)
        (List.replicate 7 0 ++ [2] ++ List.replicate 7 1 ++ List.replicate 7 2 ++
          List.replicate 7 3) = some s ∧
      s.place 2 = .popDone ('a' :: List.replicate 49 (Char.ofNat 0)) ∧
      ¬Stacked s ∧ ∀ row, occupied s.shared.log row ≠ some ['b'] := by
  let schedule : List (Fin 4) := List.replicate 7 0 ++ [2] ++ List.replicate 7 1 ++
    List.replicate 7 2 ++ List.replicate 7 3
  let s := (Runs.run step (initial sampleCommands) schedule).get (by decide +kernel)
  have log : s.shared.log = [.push 0 ['a'], .push 1 ['b'],
      .pop 0 ('a' :: List.replicate 49 (Char.ofNat 0)), .push 1 ['c']] := by decide +kernel
  refine ⟨s, (Option.some_get _).symm, by decide +kernel, ?_, ?_⟩
  · intro stacked
    have taken := stacked.lifo [.push 0 ['a'], .push 1 ['b']] _ [.push 1 ['c']] log
    have below := taken.2 1 (by simp [occupied, Op.apply])
    exact absurd below (by decide)
  · intro row found
    rw [log] at found
    simp only [occupied, List.foldl_cons, List.foldl_nil, Op.apply, update_apply] at found
    split_ifs at found
    simp_all

end OsLabs.Wordstack
