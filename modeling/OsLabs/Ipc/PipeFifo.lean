import OsLabs.Foundation.RingBuffer
import OsLabs.Ipc.PipeEnds

/-!
The pipe is a FIFO channel of bytes: what has been stored in it is what has been delivered from it, followed
by what it holds, and it holds at most `PIPESIZE` bytes, also where the counters wrap.
-/

namespace OsLabs.Ipc

open Function (update update_of_ne update_self)
open Proc Runs

variable {C L K : Type*}

namespace Pipe

variable {p : Pipe}

def count (p : Pipe) : Nat := (p.nwrite - p.nread).toNat

def contents (p : Pipe) : List Byte := RingBuffer.contents (by decide) p.data p.nread p.count

theorem nwrite_eq (p : Pipe) : p.nwrite = p.nread + BitVec.ofNat 32 p.count := by
  rw [count, BitVec.ofNat_toNat, BitVec.setWidth_eq, BitVec.add_comm, BitVec.sub_add_cancel]

theorem empty_iff : p.empty = true ↔ p.count = 0 := by
  simp only [empty, decide_eq_true_eq, count]
  bv_omega

theorem full_iff : p.full = true ↔ p.count = pipesize := by
  rw [full, decide_eq_true_eq, count]
  constructor
  · intro same
    rw [same, BitVec.add_comm, BitVec.add_sub_cancel]
    rfl
  · intro all
    have size : p.nwrite - p.nread = BitVec.ofNat 32 pipesize := BitVec.eq_of_toNat_eq all
    rw [← size, BitVec.add_comm, BitVec.sub_add_cancel]

theorem count_push {byte : Byte} (room : p.count < pipesize) : (p.push byte).count = p.count + 1 := by
  simp only [count, push, pipesize] at room ⊢
  bv_omega

theorem contents_push {byte : Byte} (room : p.count < pipesize) :
    (p.push byte).contents = p.contents ++ [byte] := by
  have stored : RingBuffer.contents (by decide) (update p.data
      (RingBuffer.cell (by decide) (p.nread + BitVec.ofNat 32 p.count)) byte) p.nread (p.count + 1) =
      p.contents ++ [byte] := RingBuffer.contents_update (by decide) room byte
  rw [← nwrite_eq] at stored
  rw [contents, count_push room]
  exact stored

theorem count_pop (some : 0 < p.count) : p.count = p.pop.count + 1 := by
  simp only [count, pop] at some ⊢
  bv_omega

theorem contents_pop (some : 0 < p.count) : p.contents = p.front :: p.pop.contents := by
  rw [contents, count_pop some, RingBuffer.contents_succ]
  rfl

end Pipe

def Place.knows (p : Pipe) : Place → Bool
  | .writeTest _ _ _ => p.full
  | .writeWake _ _ _ | .writeSleep _ _ _ => p.full && p.readopen
  | .writeStore _ _ _ => !p.full
  | .readTest _ | .readSleep _ => p.empty && p.writeopen
  | .readTake _ _ => !p.empty
  | .closeWake writable => !p.isOpen writable
  | _ => true

theorem next_knows {d : Data} {killed : Bool} {key : Option Byte} {place : Place}
    {command : Command (Lock ⊕ L) (Key ⊕ K) Data Place} (given : next d killed key place = some command)
    (knows : place.knows d.pipe = true) :
    (after d command).2.knows (after d command).1.pipe = true := by
  cases place with
  | out => simp [next] at given
  | writeLoop n bytes =>
      cases bytes with
      | nil =>
          obtain rfl := Option.some.inj given
          rfl
      | cons byte rest =>
          obtain rfl := Option.some.inj given
          simp only [after]
          split
          · assumption
          · simp_all [Place.knows]
  | writeTest n byte rest =>
      obtain rfl := Option.some.inj given
      simp only [after]
      split
      · rfl
      · simp_all [Place.knows]
  | readWait n =>
      obtain rfl := Option.some.inj given
      simp only [after]
      split
      · simp_all [Place.knows]
      · rfl
  | readTest n =>
      obtain rfl := Option.some.inj given
      simp only [after]
      split
      · rfl
      · exact knows
  | readCopy i n =>
      obtain rfl := Option.some.inj given
      simp only [after]
      split
      · simp_all [Place.knows]
      · rfl
  | writeWake | readSleep | writeSleep =>
      obtain rfl := Option.some.inj given
      first | rfl | exact knows
  | closeSet w =>
      obtain rfl := Option.some.inj given
      simp [after, Place.knows, isOpen_close]
  | consTake n target =>
      simp only [next] at given
      split at given
      · split at given <;> obtain rfl := Option.some.inj given <;> rfl
      · obtain rfl := Option.some.inj given
        simp only [after]
        split <;> rfl
  | keyLoop =>
      cases key with
      | none =>
          obtain rfl := Option.some.inj given
          rfl
      | some c =>
          obtain rfl := Option.some.inj given
          simp only [after]
          split <;> rfl
  | closeTest | consLoop | consWait | consTest | tickLoop | tickTest =>
      obtain rfl := Option.some.inj given
      simp only [after]
      split <;> rfl
  | _ =>
      obtain rfl := Option.some.inj given
      rfl

structure Fifo (d : Data) : Prop where
  log : d.sent = d.received ++ d.pipe.contents
  bound : d.pipe.count ≤ pipesize

theorem Fifo.store {d : Data} (fifo : Fifo d) (byte : Byte) (room : d.pipe.full = false) : Fifo (d.store byte) := by
  have less : d.pipe.count < pipesize := by
    refine lt_of_le_of_ne fifo.bound fun all => ?_
    simp [Pipe.full_iff.mpr all] at room
  refine ⟨?_, ?_⟩
  · simp only [Data.store, Pipe.contents_push less, fifo.log, List.append_assoc]
  · simp only [Data.store, Pipe.count_push less]
    exact less

theorem Fifo.deliver {d : Data} (fifo : Fifo d) (some : d.pipe.empty = false) : Fifo d.deliver := by
  have more : 0 < d.pipe.count := by
    refine Nat.pos_of_ne_zero fun none => ?_
    simp [Pipe.empty_iff.mpr none] at some
  refine ⟨?_, ?_⟩
  · simp only [Data.deliver, fifo.log, Pipe.contents_pop more, List.append_assoc, List.singleton_append]
  · have fewer := Pipe.count_pop more
    have bound := fifo.bound
    simp only [Data.deliver]
    omega

theorem Fifo.congr {d d' : Data} (fifo : Fifo d) (nread : d'.pipe.nread = d.pipe.nread)
    (nwrite : d'.pipe.nwrite = d.pipe.nwrite) (data : d'.pipe.data = d.pipe.data) (sent : d'.sent = d.sent)
    (received : d'.received = d.received) : Fifo d' := by
  have count : d'.pipe.count = d.pipe.count := by rw [Pipe.count, Pipe.count, nread, nwrite]
  have contents : d'.pipe.contents = d.pipe.contents := by rw [Pipe.contents, Pipe.contents, count, nread, data]
  exact ⟨by rw [sent, received, contents, fifo.log], by rw [count]; exact fifo.bound⟩

inductive Pipes (d : Data) : Place → Data → Prop
  | store {n byte rest} : Pipes d (.writeStore n byte rest) (d.store byte)
  | take {i n} : Pipes d (.readTake i n) d.deliver
  | close {w} : Pipes d (.closeSet w) { d with pipe := d.pipe.close w }
  | same {place allocated input ticks} (still : allocated = true → d.allocated = true) :
      Pipes d place { d with allocated := allocated, input := input, ticks := ticks }

theorem next_pipes {d : Data} {killed : Bool} {key : Option Byte} {place : Place}
    {command : Command (Lock ⊕ L) (Key ⊕ K) Data Place} (given : next d killed key place = some command) :
    Pipes d place (after d command).1 := by
  have same {place : Place} : Pipes d place d := .same fun allocated => allocated
  cases place with
  | out => simp [next] at given
  | writeStore n byte rest =>
      obtain rfl := Option.some.inj given
      exact .store
  | readTake i n =>
      obtain rfl := Option.some.inj given
      exact .take
  | closeSet w =>
      obtain rfl := Option.some.inj given
      exact .close
  | closeFree =>
      obtain rfl := Option.some.inj given
      exact .same (by simp)
  | writeLoop n bytes => cases bytes <;> obtain rfl := Option.some.inj given <;> exact same
  | consTake n target =>
      simp only [next] at given
      split at given
      · split at given
        · obtain rfl := Option.some.inj given
          exact same
        · obtain rfl := Option.some.inj given
          exact .same fun allocated => allocated
      · obtain rfl := Option.some.inj given
        exact .same fun allocated => allocated
  | keyLoop => cases key <;> obtain rfl := Option.some.inj given <;> exact .same fun allocated => allocated
  | timerAdd =>
      obtain rfl := Option.some.inj given
      exact .same fun allocated => allocated
  | _ =>
      obtain rfl := Option.some.inj given
      exact same

theorem Pipes.allocated {d d' : Data} {place : Place} (pipes : Pipes d place d') (now : d'.allocated = true) :
    d.allocated = true := by
  cases pipes with
  | same still => exact still now
  | _ => exact now

theorem Pipes.fifo {d d' : Data} {place : Place} (pipes : Pipes d place d') (knows : place.knows d.pipe = true)
    (fifo : Fifo d) : Fifo d' := by
  cases pipes with
  | @store n byte rest => exact fifo.store byte (by simpa [Place.knows] using knows)
  | take => exact fifo.deliver (by simpa [Place.knows] using knows)
  | @close w => cases w <;> exact fifo.congr rfl rfl rfl rfl rfl
  | same => exact fifo.congr rfl rfl rfl rfl rfl

theorem Pipes.pipe {d d' : Data} {place : Place} (pipes : Pipes d place d') :
    d'.pipe = d.pipe ∨ (place.lock : Option (Lock ⊕ L)) = some (.inl .pipe) := by
  cases pipes with
  | same => exact Or.inl rfl
  | _ => exact Or.inr rfl

theorem lock_of_unknown {place : Place} {p : Pipe} (unknown : place.knows p ≠ true) :
    (place.lock : Option (Lock ⊕ L)) = some (.inl .pipe) ∧ (place.rests : Option (Key ⊕ K)) = none ∧
      (place.uses.isSome = true ∨ place.closed = true) := by
  cases place with
  | writeTest | writeWake | writeSleep | writeStore | readTest | readSleep | readTake =>
      exact ⟨rfl, rfl, Or.inl rfl⟩
  | closeWake => exact ⟨rfl, rfl, Or.inr rfl⟩
  | _ => exact absurd rfl unknown

section Run

variable [DecidableEq C] [DecidableEq L] [DecidableEq K] [Fintype L] {bsp c : C}
  {w w' : World C (Lock ⊕ L) (Key ⊕ K) Data Place}

structure Told (w : World C (Lock ⊕ L) (Key ⊕ K) Data Place) : Prop where
  knows : ∀ p, (w.place p).knows w.data.pipe = true
  fifo : w.data.allocated = true → Fifo w.data

omit [DecidableEq L] [DecidableEq K] [Fintype L] in
theorem Told.call (told : Told w) (sound : Sound bsp w) {p : Slot} {call : Call} {d : Data} {place : Place}
    (given : enter w.data p call = some (d, place)) :
    Told { w with data := d, place := update w.place p place } := by
  have moved (q : Slot) {pipe : Pipe} (others : ∀ q, (w.place q).knows pipe = true) (new : place.knows pipe = true) :
      (update w.place p place q).knows pipe = true := by
    by_cases same : q = p
    · subst same
      rwa [update_self]
    · rw [update_of_ne same]
      exact others q
  cases call with
  | pipe =>
      simp only [enter] at given
      split at given
      · simp at given
      · rename_i unallocated
        simp only [Option.some.injEq, Prod.mk.injEq] at given
        obtain ⟨rfl, rfl⟩ := given
        have none : w.data.pipe.alloc.count = 0 := by simp [Pipe.count, Pipe.alloc]
        refine ⟨fun q => moved q (fun r => ?_) rfl, fun _ => ⟨?_, none.le.trans (Nat.zero_le _)⟩⟩
        · -- nobody is in a call on a pipe that does not exist
          by_contra unknown
          obtain ⟨-, -, used | closed⟩ := lock_of_unknown (L := L) (K := K) unknown
          · obtain ⟨writable, uses⟩ := Option.isSome_iff_exists.mp used
            exact unallocated (sound.ends.allocated_of_end (sound.ends.uses uses))
          · exact unallocated (sound.ends.closed closed).1
        · simp [Pipe.contents, none, RingBuffer.contents]
  | dup writable =>
      simp only [enter] at given
      split at given
      · simp only [Option.some.injEq, Prod.mk.injEq] at given
        obtain ⟨rfl, rfl⟩ := given
        exact ⟨fun q => moved q told.knows rfl, fun now => (told.fifo now).congr rfl rfl rfl rfl rfl⟩
      · simp at given
  | close writable =>
      simp only [enter] at given
      split at given
      · simp only [Option.some.injEq, Prod.mk.injEq] at given
        obtain ⟨rfl, rfl⟩ := given
        refine ⟨fun q => moved q told.knows ?_, fun now => (told.fifo now).congr rfl rfl rfl rfl rfl⟩
        split <;> rfl
      · simp at given
  | write | read =>
      simp only [enter] at given
      split at given
      · simp only [Option.some.injEq, Prod.mk.injEq] at given
        obtain ⟨rfl, rfl⟩ := given
        exact ⟨fun q => moved q told.knows rfl, told.fifo⟩
      · simp at given
  | consoleread | sleep =>
      simp only [enter, Option.some.injEq, Prod.mk.injEq] at given
      obtain ⟨rfl, rfl⟩ := given
      exact ⟨fun q => moved q told.knows rfl, told.fifo⟩

theorem Told.step (told : Told w) (sound : Sound bsp w)
    {event : C × Event (Lock ⊕ L) (Key ⊕ K) (Option Byte) Call Interrupt}
    (stepped : w.step (ipc bsp) event = some w') : Told w' := by
  obtain ⟨c, event⟩ := event
  cases acts_of_step stepped with
  | @kernel action m idle foreign stays leaves went =>
      rcases forked_cases (ipc bsp) w c action with same | ⟨p, np, -, -, forked⟩
      · rw [same]
        exact ⟨told.knows, told.fifo⟩
      · rw [forked]
        exact ⟨told.knows, fun now => (told.fifo now).congr rfl rfl rfl rfl rfl⟩
  | call idle runs user outside given => exact told.call sound given
  | interrupt idle open' unlocked given => exact ⟨told.knows, told.fifo⟩
  | @process input p command m data place idle runs user given ran kept =>
      have same := after_of_ran ran
      have pipes := next_pipes given
      have knows := next_knows given (told.knows p)
      rw [same] at pipes knows
      refine ⟨fun q => ?_, fun now => pipes.fifo (told.knows p) (told.fifo (pipes.allocated now))⟩
      dsimp only
      by_cases self : q = p
      · subst self
        rwa [update_self]
      · rw [update_of_ne self]
        rcases pipes.pipe (L := L) with pipe | lock
        · dsimp only at pipe
          rw [pipe]
          exact told.knows q
        · by_contra unknown
          obtain ⟨lock', rests, -⟩ := lock_of_unknown (L := L) (K := K) unknown
          obtain ⟨-, waits⟩ := sound.owned.exclusive user lock lock' self
          simp [ipc, rests] at waits
  | @handler input command m data place busy given awake ran kept =>
      have same := after_of_ran ran
      obtain ⟨-, input', ticks', data'⟩ := device_next (sound.device c) given
      rw [same] at data'
      dsimp only at data'
      subst data'
      exact ⟨told.knows, fun now => (told.fifo now).congr rfl rfl rfl rfl rfl⟩

omit [DecidableEq L] [DecidableEq K] [Fintype L] in
theorem told_start {d : Data} (fresh : d.Fresh) :
    Told (World.start (ipc bsp) d : World C (Lock ⊕ L) (Key ⊕ K) Data Place) :=
  ⟨fun _ => rfl, fun now => absurd now (by simp [World.start, fresh.unallocated])⟩

theorem told_run {d : Data} (fresh : d.Fresh)
    {events : List (C × Event (Lock ⊕ L) (Key ⊕ K) (Option Byte) Call Interrupt)}
    (reached : run (World.step (ipc bsp)) (World.start (ipc bsp) d) events = some w) : Sound bsp w ∧ Told w := by
  refine run_invariant (fun _ w => Sound bsp w ∧ Told w) ⟨sound_start fresh, told_start fresh⟩ ?_ events w reached
  rintro _ before event after ⟨sound, told⟩ stepped
  exact ⟨sound.step stepped, told.step sound stepped⟩

/-- In every run of readers and writers, closing and dying ones among them, the bytes delivered are the first
of the bytes stored, and `nwrite - nread` stays between 0 and `PIPESIZE`. -/
theorem pipe_fifo {d : Data} (fresh : d.Fresh)
    {events : List (C × Event (Lock ⊕ L) (Key ⊕ K) (Option Byte) Call Interrupt)}
    (reached : run (World.step (ipc bsp)) (World.start (ipc bsp) d) events = some w)
    (allocated : w.data.allocated = true) :
    w.data.received <+: w.data.sent ∧ (w.data.pipe.nwrite - w.data.pipe.nread).toNat ≤ pipesize := by
  have fifo := (told_run fresh reached).2.fifo allocated
  exact ⟨⟨w.data.pipe.contents, fifo.log.symm⟩, fifo.bound⟩

end Run

def Data.blank : Data where
  pipe := ⟨fun _ => 0, 0, 0, false, false⟩
  allocated := false
  ends _ _ := 0
  input := ⟨fun _ => 0, 0, 0, 0⟩
  ticks := 0
  sent := []
  received := []

theorem blank_fresh : Data.blank.Fresh := ⟨rfl, fun _ _ => rfl⟩

/-- `init` makes a pipe, writes two bytes and reads one. -/
def writesAndReads : List (Unit × Event (Lock ⊕ Empty) (Key ⊕ Empty) (Option Byte) Call Interrupt) :=
  List.replicate 3 ((), .kernel (.go true)) ++ [((), .call .pipe), ((), .code none), ((), .call (.write [7, 8]))] ++
    List.replicate 9 ((), .code none) ++ [((), .call (.read 1))] ++ List.replicate 7 ((), .code none)

theorem pipe_fifo_init : ∃ w : World Unit (Lock ⊕ Empty) (Key ⊕ Empty) Data Place,
    run (World.step (ipc ())) (World.start (ipc ()) .blank) writesAndReads = some w ∧
      w.data.sent = [7, 8] ∧ w.data.received = [7] ∧ w.data.received <+: w.data.sent ∧
      (w.data.pipe.nwrite - w.data.pipe.nread).toNat ≤ pipesize := by
  have logs : (run (World.step (ipc ())) (World.start (ipc ()) .blank) writesAndReads).map
      (fun w => (w.data.sent, w.data.received, w.data.allocated)) = some ([7, 8], [7], true) := by decide +kernel
  obtain ⟨w, reached, values⟩ := Option.map_eq_some_iff.mp logs
  simp only [Prod.mk.injEq] at values
  obtain ⟨sent, received, allocated⟩ := values
  exact ⟨w, reached, sent, received, pipe_fifo blank_fresh reached allocated⟩

end OsLabs.Ipc
