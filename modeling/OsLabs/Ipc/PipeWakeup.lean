import OsLabs.Ipc.PipeFifo

/-!
Wakeups of the pipe: who sleeps on `nread` or `nwrite` has to wait, or the process that changed the pipe is
about to wake it. This fails where `pipewrite` finds its process killed and returns without `wakeup`.
-/

namespace OsLabs.Ipc

open Function (update update_of_ne update_self)
open Proc Runs

variable {C L K : Type*}

def Pipe.blocks (p : Pipe) : Key → Bool
  | .nread => p.empty && p.writeopen
  | .nwrite => p.full && p.readopen
  | .inputR | .ticks => true

def Place.owes : Key → Place → Bool
  | .nread, .writeLoop _ _ | .nread, .writeTest _ _ _ | .nread, .writeWake _ _ _ | .nread, .writeStore _ _ _
  | .nread, .writeDone _ | .nread, .closeWake true => true
  | .nwrite, .readCopy _ _ | .nwrite, .readTake _ _ | .nwrite, .readDone _ | .nwrite, .closeWake false => true
  | _, _ => false

theorem owes_pipe {k : Key} {place : Place} (owes : place.owes k = true) : k = .nread ∨ k = .nwrite := by
  cases k <;> simp [Place.owes] at owes ⊢

theorem owes_lock {k : Key} {place : Place} (owes : place.owes k = true) :
    (place.lock : Option (Lock ⊕ L)) = some (.inl .pipe) := by
  cases k <;> cases place <;> first | rfl | simp [Place.owes] at owes

theorem rests_pipe {k : Key} {place : Place} (pipe : k = .nread ∨ k = .nwrite)
    (rests : (place.rests : Option (Key ⊕ K)) = some (.inl k)) :
    (place.lock : Option (Lock ⊕ L)) = some (.inl .pipe) ∧ place.uses = some (decide (k = .nwrite)) := by
  cases place with
  | writeLoop n bytes =>
      cases bytes with
      | nil => simp [Place.rests] at rests
      | cons =>
          simp only [Place.rests, Option.some.injEq, Sum.inl.injEq] at rests
          subst rests
          exact ⟨rfl, rfl⟩
  | readWait n =>
      simp only [Place.rests, Option.some.injEq, Sum.inl.injEq] at rests
      subst rests
      exact ⟨rfl, rfl⟩
  | consWait | tickLoop =>
      simp only [Place.rests, Option.some.injEq, Sum.inl.injEq] at rests
      subst rests
      simp at pipe
  | _ => simp [Place.rests] at rests

/-- A killed writer does not find the pipe full while the read end is open. -/
def Place.spares (d : Data) (killed : Bool) : Place → Bool
  | .writeTest _ _ _ => !killed || !d.pipe.readopen
  | _ => true

def Fair (d : Data) (k : Key) (command : Command (Lock ⊕ L) (Key ⊕ K) Data Place) : Prop :=
  (after d command).1.pipe.blocks k = true ∨
  (after d command).2.owes k = true ∧ ∀ chan l place, command ≠ .sleep chan l place

section Code

variable {d : Data} {killed : Bool} {key : Option Byte} {place : Place} {k : Key}
  {command : Command (Lock ⊕ L) (Key ⊕ K) Data Place}

theorem fair_of_blocks (given : next d killed key place = some command) (knows : place.knows d.pipe = true)
    (blocks : d.pipe.blocks k = true) : Fair d k command := by
  cases place with
  | writeStore n byte rest =>
      obtain rfl := Option.some.inj given
      cases k with
      | nread => exact Or.inr ⟨rfl, by simp⟩
      | nwrite => simp_all [Place.knows, Pipe.blocks]
      | inputR | ticks => exact Or.inl rfl
  | readTake i n =>
      obtain rfl := Option.some.inj given
      cases k with
      | nread => simp_all [Place.knows, Pipe.blocks]
      | nwrite => exact Or.inr ⟨rfl, by simp⟩
      | inputR | ticks => exact Or.inl rfl
  | closeSet writable =>
      obtain rfl := Option.some.inj given
      cases k with
      | nread =>
          cases writable with
          | true => exact Or.inr ⟨rfl, by simp⟩
          | false => exact Or.inl blocks
      | nwrite =>
          cases writable with
          | true => exact Or.inl blocks
          | false => exact Or.inr ⟨rfl, by simp⟩
      | inputR | ticks => exact Or.inl rfl
  | _ =>
      have pipes := next_pipes given
      refine Or.inl ?_
      generalize (after d command).1 = d' at pipes
      cases pipes
      exact blocks

theorem fair_of_owes (given : next d killed key place = some command) (spares : place.spares d killed = true)
    (owes : place.owes k = true) :
    Fair d k command ∨ (∃ place, command = .wakeup (.addr (.inl k)) place) ∨
      k = .nread ∧ d.pipe.readopen = false := by
  cases k with
  | nread =>
      cases place with
      | writeLoop n bytes =>
          refine Or.inl (Or.inr ?_)
          cases bytes with
          | nil =>
              obtain rfl := Option.some.inj given
              exact ⟨rfl, by simp⟩
          | cons byte rest =>
              obtain rfl := Option.some.inj given
              refine ⟨?_, by simp⟩
              simp only [after]
              split <;> rfl
      | writeTest n byte rest =>
          obtain rfl := Option.some.inj given
          by_cases shut : d.pipe.readopen = false
          · exact Or.inr (Or.inr ⟨rfl, shut⟩)
          · refine Or.inl (Or.inr ⟨?_, by simp⟩)
            have lives : killed = false := by simpa [Place.spares, shut] using spares
            simp [after, shut, lives, Place.owes]
      | writeStore n byte rest =>
          obtain rfl := Option.some.inj given
          exact Or.inl (Or.inr ⟨rfl, by simp⟩)
      | writeWake | writeDone =>
          obtain rfl := Option.some.inj given
          exact Or.inr (Or.inl ⟨_, rfl⟩)
      | closeWake writable =>
          cases writable with
          | true =>
              obtain rfl := Option.some.inj given
              exact Or.inr (Or.inl ⟨_, rfl⟩)
          | false => simp [Place.owes] at owes
      | _ => simp [Place.owes] at owes
  | nwrite =>
      cases place with
      | readCopy i n =>
          obtain rfl := Option.some.inj given
          refine Or.inl (Or.inr ⟨?_, by simp⟩)
          simp only [after]
          split <;> rfl
      | readTake i n =>
          obtain rfl := Option.some.inj given
          exact Or.inl (Or.inr ⟨rfl, by simp⟩)
      | readDone i =>
          obtain rfl := Option.some.inj given
          exact Or.inr (Or.inl ⟨_, rfl⟩)
      | closeWake writable =>
          cases writable with
          | true => simp [Place.owes] at owes
          | false =>
              obtain rfl := Option.some.inj given
              exact Or.inr (Or.inl ⟨_, rfl⟩)
      | _ => simp [Place.owes] at owes
  | inputR | ticks => exact Or.inl (Or.inl rfl)

theorem blocks_of_sleep {l : Lock ⊕ L} {place' : Place}
    (given : next d killed key place = some (.sleep (.addr (.inl k)) l place' : Command _ (Key ⊕ K) _ _))
    (knows : place.knows d.pipe = true) : d.pipe.blocks k = true := by
  cases place with
  | writeSleep | readSleep =>
      simp only [next, Option.some.injEq, Command.sleep.injEq, Chan.addr.injEq, Sum.inl.injEq] at given
      obtain ⟨rfl, -⟩ := given
      exact knows
  | consSleep | tickSleep =>
      simp only [next, Option.some.injEq, Command.sleep.injEq, Chan.addr.injEq, Sum.inl.injEq] at given
      obtain ⟨rfl, -⟩ := given
      rfl
  | writeLoop n bytes => cases bytes <;> simp [next] at given
  | consTake n target =>
      simp only [next] at given
      split at given
      · split at given <;> simp at given
      · simp at given
  | keyLoop => cases key <;> simp [next] at given
  | _ => simp [next] at given

end Code

section Run

variable [DecidableEq C] {bsp c : C} {w w' : World C (Lock ⊕ L) (Key ⊕ K) Data Place}

def Justified (w : World C (Lock ⊕ L) (Key ⊕ K) Data Place) : Prop :=
  ∀ q k, Waits w.machine q (.addr (.inl k)) →
    w.data.pipe.blocks k = true ∨ ∃ p, w.machine.pc p = .user ∧ (w.place p).owes k = true

theorem Sound.waiter (sound : Sound bsp w) {q : Slot} {k : Key} (pipe : k = .nread ∨ k = .nwrite)
    (waits : Waits w.machine q (.addr (.inl k))) :
    ((w.place q).lock : Option (Lock ⊕ L)) = some (.inl .pipe) ∧ 0 < w.data.ends (decide (k = .nwrite)) q := by
  obtain ⟨lock, uses⟩ := rests_pipe (L := L) pipe (sound.owned.asks rfl waits)
  exact ⟨lock, sound.ends.uses uses⟩

theorem blocks_or_pipe (p : Pipe) (k : Key) : p.blocks k = true ∨ k = .nread ∨ k = .nwrite := by
  cases k <;> simp [Pipe.blocks]

theorem Justified.call (justified : Justified w) (sound : Sound bsp w) {p : Slot} {call : Call} {d : Data}
    {place : Place} (outside : w.place p = .out) (given : enter w.data p call = some (d, place)) :
    Justified { w with data := d, place := update w.place p place } := by
  intro q k waits
  rcases blocks_or_pipe d.pipe k with blocks | pipe
  · exact Or.inl blocks
  · have allocated := sound.ends.allocated_of_end (sound.waiter pipe waits).2
    have same : d.pipe = w.data.pipe := by
      cases call <;> simp only [enter] at given
      case pipe => simp [allocated] at given
      case consoleread | sleep => exact (congrArg Data.pipe (Prod.mk.inj (Option.some.inj given)).1).symm
      all_goals
        split at given
        · exact (congrArg Data.pipe (Prod.mk.inj (Option.some.inj given)).1).symm
        · simp at given
    rcases justified q k waits with blocks | ⟨p', user, owes⟩
    · exact Or.inl (same ▸ blocks)
    · refine Or.inr ⟨p', user, ?_⟩
      have apart : p' ≠ p := by
        rintro rfl
        rw [outside] at owes
        cases k <;> simp [Place.owes] at owes
      dsimp only
      rwa [update_of_ne apart]

variable [DecidableEq L] [DecidableEq K]

theorem Justified.process (justified : Justified w) (sound : Sound bsp w) (told : Told w) {input : Option Byte}
    {p : Slot} {command : Command (Lock ⊕ L) (Key ⊕ K) Data Place} {m : Machine C (Lock ⊕ L) (Key ⊕ K)}
    {d : Data} {place : Place} (runs : w.machine.proc c = some p) (user : w.machine.pc p = .user)
    (spares : (w.place p).spares w.data (w.machine.killed p) = true)
    (given : next w.data (w.machine.killed p) input (w.place p) = some command)
    (ran : Ran w.machine w.data c command m d place) :
    Justified { w with machine := m, data := d, place := update w.place p place } := by
  intro q k waits
  have same := after_of_ran ran
  have beside := ran.outside
  have goes : Fair w.data k command → d.pipe.blocks k = true ∨
      ∃ p', m.pc p' = .user ∧ (update w.place p place p').owes k = true := by
    rintro (blocks | ⟨owes, awake⟩)
    · rw [same] at blocks
      exact Or.inl blocks
    · rw [same] at owes
      refine Or.inr ⟨p, ?_, by rwa [update_self]⟩
      cases ran with
      | sleep => exact absurd rfl (awake _ _ _)
      | _ => exact user
  rcases ran.waits waits with before | ⟨on, l, calls⟩
  · rcases justified q k before with blocks | ⟨p', user', owes⟩
    · exact goes (fair_of_blocks given (told.knows p) blocks)
    · have lock' := owes_lock (L := L) owes
      by_cases self : p' = p
      · subst self
        rcases fair_of_owes given spares owes with fair | ⟨place', wakes⟩ | ⟨rfl, shut⟩
        · exact goes fair
        · subst wakes
          refine absurd waits ?_
          cases ran with
          | wakeup unlocked =>
              exact sound.owned.wakes user lock' unlocked rfl fun rests => (rests_pipe (owes_pipe owes) rests).1
        · have isOpen := sound.ends.open_of_end (sound.waiter (Or.inl rfl) before).2
          simp [Pipe.isOpen, shut] at isOpen
      · refine Or.inr ⟨p', ?_, ?_⟩
        · dsimp only
          rw [beside.pc p' fun there => self (Option.some.inj (there.symm.trans runs)), user']
        · dsimp only
          rwa [update_of_ne self]
  · obtain rfl := Option.some.inj (runs.symm.trans on)
    subst calls
    have data : d = w.data := (congrArg Prod.fst same).symm
    exact Or.inl (data ▸ blocks_of_sleep given (told.knows p))

variable [Fintype L]

def spared (w : World C (Lock ⊕ L) (Key ⊕ K) Data Place)
    (event : C × Event (Lock ⊕ L) (Key ⊕ K) (Option Byte) Call Interrupt) : Bool :=
  match event.2, w.machine.proc event.1 with
  | .code _, some p => (w.place p).spares w.data (w.machine.killed p)
  | _, _ => true

theorem Justified.step (justified : Justified w) (sound : Sound bsp w) (told : Told w)
    {event : C × Event (Lock ⊕ L) (Key ⊕ K) (Option Byte) Call Interrupt} (spares : spared w event = true)
    (stepped : w.step (ipc bsp) event = some w') : Justified w' := by
  obtain ⟨c, event⟩ := event
  cases acts_of_step stepped with
  | @kernel action m idle foreign stays leaves went =>
      have pipe : (w.forked (ipc bsp) c action).pipe = w.data.pipe := by
        rcases forked_cases (ipc bsp) w c action with same | ⟨p, np, -, -, forked⟩
        · rw [same]
        · rw [forked]
          rfl
      intro q k waits
      rcases justified q k (sound.owned.waits_kernel foreign went rfl waits) with blocks | ⟨p, user, owes⟩
      · exact Or.inl (pipe ▸ blocks)
      · have lock := owes_lock (L := L) owes
        have inside : w.place p ≠ .out := by
          intro outside
          simp [outside, Place.lock] at lock
        obtain ⟨-, -, user', -⟩ := sound.owned.running_kernel stays went inside (sound.owned.running user lock)
        exact Or.inr ⟨p, user', owes⟩
  | call idle runs user outside given => exact justified.call sound outside given
  | interrupt idle open' unlocked given => exact justified
  | @process input p command m data place idle runs user given ran kept =>
      refine justified.process sound told runs user ?_ given ran
      simpa [spared, runs] using spares
  | @handler input command m data place busy given awake ran kept =>
      have same := after_of_ran ran
      obtain ⟨-, input', ticks', data'⟩ := device_next (sound.device c) given
      rw [same] at data'
      have pipe : data.pipe = w.data.pipe := Eq.trans (congrArg Data.pipe data') rfl
      have pcs : m.pc = w.machine.pc := by
        cases ran with
        | sleep => exact absurd rfl (awake _ _ _)
        | _ => rfl
      intro q k waits
      rcases ran.waits waits with before | ⟨-, l, calls⟩
      · rcases justified q k before with blocks | ⟨p, user, owes⟩
        · exact Or.inl (pipe ▸ blocks)
        · exact Or.inr ⟨p, by dsimp only; rw [pcs, user], owes⟩
      · exact absurd calls (awake _ _ _)

omit [DecidableEq L] [DecidableEq K] [Fintype L] in
theorem justified_start (d : Data) :
    Justified (World.start (ipc bsp) d : World C (Lock ⊕ L) (Key ⊕ K) Data Place) := by
  intro q k waits
  have owned : Owned (ipc bsp) (World.start (ipc bsp) d : World C (Lock ⊕ L) (Key ⊕ K) Data Place) := owned_start d
  have rests := owned.asks rfl waits
  simp [World.start, ipc, Place.rests] at rests

/-- In every run in which no killed writer finds the pipe full while its read end is open: with the lock of the
pipe free, who sleeps on `nread` finds no unread byte and the write end open, and who sleeps on `nwrite` no
room and the read end open. -/
theorem pipe_sleepers_blocked {d : Data} (fresh : d.Fresh)
    {events : List (C × Event (Lock ⊕ L) (Key ⊕ K) (Option Byte) Call Interrupt)}
    (reached : run (World.step (ipc bsp)) (World.start (ipc bsp) d) events = some w)
    (spares : Along (World.step (ipc bsp)) (fun _ w event => spared w event = true) (World.start (ipc bsp) d) events)
    (free : w.machine.lock (some (.inl .pipe)) = none) {q : Slot} (sleeps : w.machine.state q = .sleeping) :
    (w.machine.chan q = some (.addr (.inl .nread)) → w.data.pipe.count = 0 ∧ w.data.pipe.writeopen = true) ∧
    (w.machine.chan q = some (.addr (.inl .nwrite)) →
      w.data.pipe.count = pipesize ∧ w.data.pipe.readopen = true) := by
  obtain ⟨⟨sound, told⟩, justified⟩ : (Sound bsp w ∧ Told w) ∧ Justified w := by
    refine run_invariant_along (fun _ w => (Sound bsp w ∧ Told w) ∧ Justified w)
      ⟨⟨sound_start fresh, told_start fresh⟩, justified_start d⟩ ?_ events w spares reached
    rintro _ before event after ⟨⟨sound, told⟩, justified⟩ spares stepped
    exact ⟨⟨sound.step stepped, told.step sound stepped⟩, justified.step sound told spares stepped⟩
  have blocked {k : Key} (on : w.machine.chan q = some (.addr (.inl k))) : w.data.pipe.blocks k = true := by
    refine (justified q k (Or.inr ⟨sleeps, on⟩)).resolve_right ?_
    rintro ⟨p, user, owes⟩
    obtain ⟨c, -, -, locked⟩ := sound.owned.running user (owes_lock owes)
    simp [free] at locked
  constructor
  · intro on
    simpa [Pipe.blocks, Pipe.empty_iff] using blocked on
  · intro on
    simpa [Pipe.blocks, Pipe.full_iff] using blocked on

end Run

section Examples

def forks : List (Bool × Event (Lock ⊕ Empty) (Key ⊕ Empty) (Option Byte) Call Interrupt) :=
  (false, .kernel .fork) :: List.replicate 4 (false, .kernel (.go true))

/-- `init` makes a pipe and two children. The first child reads and falls asleep; then the second one runs. -/
def readerSleeps : List (Bool × Event (Lock ⊕ Empty) (Key ⊕ Empty) (Option Byte) Call Interrupt) :=
  List.replicate 3 (false, .kernel (.go true)) ++ [(false, .call .pipe), (false, .code none)] ++ forks ++ forks ++
    List.replicate 3 (true, .kernel (.go true)) ++ [(true, .call (.read 1))] ++
    List.replicate 4 (true, .code none) ++ List.replicate 6 (true, .kernel (.go true))

theorem pipe_sleepers_blocked_reader : ∃ w : World Bool (Lock ⊕ Empty) (Key ⊕ Empty) Data Place,
    run (World.step (ipc false)) (World.start (ipc false) .blank) readerSleeps = some w ∧
      w.machine.state firstChild = .sleeping ∧ w.machine.chan firstChild = some (.addr (.inl .nread)) ∧
      w.data.pipe.count = 0 ∧ w.data.pipe.writeopen = true := by
  have facts : (run (World.step (ipc false)) (World.start (ipc false) .blank) readerSleeps).map
      (fun w => (w.machine.lock (some (.inl .pipe)), w.machine.state firstChild, w.machine.chan firstChild)) =
        some (none, .sleeping, some (.addr (.inl .nread))) := by decide +kernel
  obtain ⟨w, reached, values⟩ := Option.map_eq_some_iff.mp facts
  simp only [Prod.mk.injEq] at values
  obtain ⟨free, sleeps, on⟩ := values
  obtain ⟨reader, -⟩ := pipe_sleepers_blocked blank_fresh reached
    (alongCheck_sound _ (fun w event => spared w event = true) _ _ (by decide +kernel)) free sleeps
  exact ⟨w, reached, sleeps, on, reader on⟩

/-- The second child writes 513 bytes. It is killed by `init` when the pipe is full, before it looks at its
`killed` flag, and returns. -/
def writerKilled : List (Bool × Event (Lock ⊕ Empty) (Key ⊕ Empty) (Option Byte) Call Interrupt) :=
  readerSleeps ++ [(true, .call (.write (List.replicate (pipesize + 1) 7)))] ++
    List.replicate (2 * pipesize + 2) (true, .code none) ++ [(false, .kernel (.kill 3))] ++
    List.replicate 2 (true, .code none)

/-- The reader sleeps on with 512 unread bytes in the pipe. -/
theorem pipe_reader_forgotten : ∃ w : World Bool (Lock ⊕ Empty) (Key ⊕ Empty) Data Place,
    run (World.step (ipc false)) (World.start (ipc false) .blank) writerKilled = some w ∧
      w.machine.lock (some (.inl .pipe)) = none ∧ w.machine.state firstChild = .sleeping ∧
      w.machine.chan firstChild = some (.addr (.inl .nread)) ∧ w.data.pipe.count = pipesize := by
  have facts : (run (World.step (ipc false)) (World.start (ipc false) .blank) writerKilled).map
      (fun w => decide (w.machine.lock (some (.inl .pipe)) = none ∧ w.machine.state firstChild = .sleeping ∧
        w.machine.chan firstChild = some (.addr (.inl .nread)) ∧ w.data.pipe.count = pipesize)) =
          some true := by decide +kernel
  obtain ⟨w, reached, values⟩ := Option.map_eq_some_iff.mp facts
  exact ⟨w, reached, of_decide_eq_true values⟩

end Examples

end OsLabs.Ipc
