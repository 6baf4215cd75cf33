import OsLabs.Cache.CacheSteps

/-!
What always holds of the buffer cache, whatever its users do: which buffer has which block,
who holds it and who refers to it.
-/

namespace OsLabs.Cache

open Function OsLabs.Interleaving OsLabs.LinkedRing
open OsLabs.Log (Block)

variable {ι : Type*} {havedisk1 : Bool} {p : ι} {c next : Bcache ι} {proc proc' : Proc}
  {action : Action}

theorem setBuf_bufs (c : Bcache ι) (b other : Fin nbuf) (buf : Buf) :
    (c.setBuf b buf).bufs other = if other = b then buf else c.bufs other :=
  update_apply _ _ _ _

theorem setBuf_field {α : Type*} (field : Buf → α) {b : Fin nbuf} {buf : Buf}
    (same : field buf = field (c.bufs b)) (other : Fin nbuf) :
    field ((c.setBuf b buf).bufs other) = field (c.bufs other) := by
  rw [setBuf_bufs]
  split
  next here => rw [here, same]
  next => rfl

theorem recycle_bufs (c : Bcache ι) (b other : Fin nbuf) (dev blockno : Nat) :
    (c.recycle b dev blockno).bufs other =
      if other = b then ⟨dev, blockno, false, false, 1, (c.bufs b).data⟩ else c.bufs other :=
  setBuf_bufs _ _ _ _

theorem drop_buf (c : Bcache ι) (b : Fin nbuf) :
    (c.drop b).bufs = (c.setBuf b { c.bufs b with refcnt := (c.bufs b).refcnt - 1 }).bufs := by
  rw [Bcache.drop]
  split <;> rfl

theorem drop_rest (c : Bcache ι) (b : Fin nbuf) :
    (c.drop b).holder = c.holder ∧ (c.drop b).disk = c.disk ∧ (c.drop b).contents = c.contents ∧
      (c.drop b).touched = c.touched := by
  rw [Bcache.drop]
  split <;> exact ⟨rfl, rfl, rfl, rfl⟩

def Buf.address (buf : Buf) : Nat × Nat := (buf.dev, buf.blockno)

theorem moves_address (moves : Moves havedisk1 p c proc action next proc') (b : Fin nbuf) :
    (next.bufs b).address = (c.bufs b).address ∨
      (c.bufs b).refcnt = 0 ∧ (c.bufs b).dirty = false ∧ ∃ dev blockno,
        action = .bread dev blockno ∧ (∀ other, ¬(c.bufs other).Caches dev blockno) ∧
        next = c.recycle b dev blockno := by
  cases moves with
  | @recycle dev blockno other held absent free clean =>
      by_cases here : b = other
      · subst here
        exact Or.inr ⟨free, clean, dev, blockno, rfl, absent, rfl⟩
      · rw [recycle_bufs, if_neg here]
        exact Or.inl rfl
  | hit | modify | logWrite | bwrite =>
      refine Or.inl (setBuf_field Buf.address ?_ b)
      rfl
  | brelse | lock | found => exact Or.inl rfl
  | fill invalid done =>
      rcases iderw_cases done with ⟨_, rfl⟩ | ⟨_, rfl⟩ <;>
        exact Or.inl (setBuf_field Buf.address (by rfl) b)
  | drop =>
      rw [drop_buf]
      refine Or.inl (setBuf_field Buf.address ?_ b)
      rfl

def Phase.buffer : Phase → Option (Fin nbuf)
  | .idle => none
  | .locking b | .reading b | .dropping b => some b

def share (b : Fin nbuf) (proc : Proc) : Int :=
  (if proc.phase.buffer = some b then 1 else 0) + (if b ∈ proc.held then 1 else 0)

def Proc.Owns (proc : Proc) (b : Fin nbuf) : Prop := b ∈ proc.held ∨ proc.phase = .reading b

def Unique (c : Bcache ι) : Prop :=
  ∀ a b, (c.bufs a).dev ≠ 0 → (c.bufs a).address = (c.bufs b).address → a = b

theorem unique_step (unique : Unique c) (moves : Moves havedisk1 p c proc action next proc') :
    Unique next := by
  intro a b device same
  rcases moves_address moves a with keptA | ⟨_, _, dev, blockno, _, absent, rfl⟩
  · rcases moves_address moves b with keptB | ⟨_, _, dev, blockno, _, absent, rfl⟩
    · rw [keptA, keptB] at same
      have sameDevice : (next.bufs a).dev = (c.bufs a).dev := congrArg Prod.fst keptA
      exact unique a b (sameDevice ▸ device) same
    · by_contra different
      rw [recycle_bufs, if_neg different, recycle_bufs, if_pos rfl] at same
      exact absent a ⟨congrArg Prod.fst same, congrArg Prod.snd same⟩
  · by_contra different
    rw [recycle_bufs, if_pos rfl, recycle_bufs, if_neg (Ne.symm different)] at same
    exact absent b ⟨(congrArg Prod.fst same).symm, (congrArg Prod.snd same).symm⟩

def Buf.Clean (buf : Buf) : Prop := buf.valid = false → buf.dirty = false

theorem setBuf_clean {b : Fin nbuf} {buf : Buf} (clean : ∀ b, (c.bufs b).Clean) (new : buf.Clean)
    (other : Fin nbuf) : ((c.setBuf b buf).bufs other).Clean := by
  rw [setBuf_bufs]
  split
  next => exact new
  next => exact clean other

theorem moves_valid (moves : Moves havedisk1 p c proc action next proc') {b : Fin nbuf}
    (referred : 0 < (c.bufs b).refcnt) (valid : (c.bufs b).valid = true) :
    (next.bufs b).valid = true := by
  cases moves with
  | hit | modify | logWrite =>
      refine (setBuf_field Buf.valid ?_ b).trans valid
      rfl
  | @recycle dev blockno other held absent free clean =>
      have different : b ≠ other := by
        rintro rfl
        omega
      rwa [recycle_bufs, if_neg different]
  | bwrite =>
      refine (setBuf_bufs _ _ _ _).symm ▸ ?_
      split
      next => rfl
      next => exact valid
  | brelse | lock | found => exact valid
  | fill invalid done =>
      rcases iderw_cases done with ⟨_, rfl⟩ | ⟨_, rfl⟩ <;>
        refine (setBuf_bufs _ _ _ _).symm ▸ ?_ <;> split <;> first | rfl | exact valid
  | drop =>
      rw [drop_buf]
      refine (setBuf_field Buf.valid ?_ b).trans valid
      rfl

theorem iderw_valid {b : Fin nbuf} (done : c.iderw havedisk1 b = some next) :
    (next.bufs b).valid = true := by
  rcases iderw_cases done with ⟨_, rfl⟩ | ⟨_, rfl⟩ <;> simp [Bcache.setBuf]

variable [Fintype ι]

structure Sound (s : State ι) : Prop where
  whole : Whole s.shared.ring
  unique : Unique s.shared
  counted : ∀ b, ((s.shared.bufs b).refcnt : Int) = tally (share b) s.place
  owners : ∀ b q, s.shared.holder b = some q ↔ (s.place q).Owns b
  apart : ∀ b q, (s.place q).phase = .reading b → b ∉ (s.place q).held
  loaded : ∀ b q, b ∈ (s.place q).held → (s.shared.bufs b).valid = true
  clean : ∀ b, (s.shared.bufs b).Clean

theorem share_nonneg (b : Fin nbuf) (proc : Proc) : 0 ≤ share b proc := by
  rw [share]
  split <;> split <;> omega

variable {s : State ι}

theorem Sound.referred (sound : Sound s) {b : Fin nbuf} {q : ι} (mine : 0 < share b (s.place q)) :
    0 < (s.shared.bufs b).refcnt := by
  have counted := sound.counted b
  have here := le_tally (share_nonneg b) s.place q
  omega

theorem share_pos {b : Fin nbuf} {proc : Proc} (owns : proc.Owns b) : 0 < share b proc := by
  rw [share]
  rcases owns with holds | reading
  · rw [if_pos holds]
    split <;> omega
  · rw [reading, Phase.buffer, if_pos rfl]
    split <;> omega

theorem Sound.referred_of_owned (sound : Sound s) {b : Fin nbuf} {q : ι}
    (owned : s.shared.holder b = some q) : 0 < (s.shared.bufs b).refcnt :=
  sound.referred (share_pos ((sound.owners b q).mp owned))

theorem Sound.unlocked (sound : Sound s) {b : Fin nbuf} (free : (s.shared.bufs b).refcnt = 0) :
    s.shared.holder b = none := by
  by_contra locked
  obtain ⟨q, owned⟩ := Option.ne_none_iff_exists'.mp locked
  have referred := sound.referred_of_owned owned
  omega

theorem sound_start (disk : Nat → Nat → Block) : Sound (start disk : State ι) where
  whole := whole_binit disk
  unique := fun a b device => absurd rfl device
  counted b := by
    have nobody : tally (share b) (start disk : State ι).place = 0 := tally_eq_zero fun _ => rfl
    rw [nobody]
    rfl
  owners b q := by simp [start, binit, Proc.Owns]
  apart b q := by simp [start]
  loaded b q := by simp [start]
  clean b _ := rfl

variable [DecidableEq ι]

section Step

theorem counted_kept (sound : Sound s) {b : Fin nbuf}
    (balance : ((next.bufs b).refcnt : Int) - share b proc' =
      (s.shared.bufs b).refcnt - share b (s.place p)) :
    ((next.bufs b).refcnt : Int) = tally (share b) (update s.place p proc') := by
  have counted := sound.counted b
  rw [tally_update]
  omega

variable (sound : Sound s) (here : s.place p = proc)
  (moves : Moves havedisk1 p s.shared proc action next proc')

include sound here moves

theorem counted_step (b : Fin nbuf) :
    ((next.bufs b).refcnt : Int) = tally (share b) (update s.place p proc') := by
  refine counted_kept sound ?_
  rw [here]
  cases moves with
  | @hit dev blockno other held cached =>
      rw [setBuf_bufs]
      by_cases same : b = other
      · subst same
        simp [share, Phase.buffer]
        omega
      · simp [share, Phase.buffer, same, Ne.symm same]
  | @recycle dev blockno other held absent free clean =>
      rw [recycle_bufs]
      by_cases same : b = other
      · subst same
        simp [share, Phase.buffer, free]
      · simp [share, Phase.buffer, same, Ne.symm same]
  | modify | logWrite | bwrite =>
      refine congrArg (fun count : Nat => (count : Int) - _) (setBuf_field Buf.refcnt ?_ b)
      rfl
  | @brelse other held owned =>
      by_cases same : b = other
      · subst same
        have held := ((sound.owners b p).mp owned).resolve_right (by simp [here])
        rw [here] at held
        simp [share, Phase.buffer, held]
      · simp [share, Phase.buffer, same, Ne.symm same]
  | lock => rfl
  | @found other held valid =>
      by_cases same : b = other
      · subst same
        have fresh := sound.apart b p (by rw [here])
        rw [here] at fresh
        simp [share, Phase.buffer, fresh]
      · simp [share, Phase.buffer, same, Ne.symm same]
  | @fill other held next invalid done =>
      have counts : (next.bufs b).refcnt = (s.shared.bufs b).refcnt := by
        rcases iderw_cases done with ⟨_, rfl⟩ | ⟨_, rfl⟩ <;>
          exact setBuf_field Buf.refcnt (by rfl) b
      rw [counts]
      by_cases same : b = other
      · subst same
        have fresh := sound.apart b p (by rw [here])
        rw [here] at fresh
        simp [share, Phase.buffer, fresh]
      · simp [share, Phase.buffer, same, Ne.symm same]
  | @drop other held =>
      rw [drop_buf, setBuf_bufs]
      by_cases same : b = other
      · subst same
        have referred : 0 < (s.shared.bufs b).refcnt := by
          refine sound.referred (q := p) ?_
          rw [here]
          simp only [share, Phase.buffer, if_true]
          split <;> omega
        simp only [share, Phase.buffer, if_true, reduceCtorEq, if_false]
        omega
      · simp [share, Phase.buffer, same, Ne.symm same]

omit here moves in
theorem owners_kept (holder : next.holder = s.shared.holder)
    (same : ∀ b, proc'.Owns b ↔ (s.place p).Owns b) (b : Fin nbuf) (q : ι) :
    next.holder b = some q ↔ (update s.place p proc' q).Owns b := by
  rw [holder, sound.owners b q, update_apply]
  split
  next self => rw [self, same b]
  next => rfl

theorem owners_step (b : Fin nbuf) (q : ι) :
    next.holder b = some q ↔ (update s.place p proc' q).Owns b := by
  have idle : ∀ {phase : Phase} {held : Finset (Fin nbuf)} {other : Fin nbuf},
      (∀ b, phase ≠ .reading b) → ((⟨phase, held⟩ : Proc).Owns other ↔ other ∈ held) := by
    intro phase held other quiet
    simp [Proc.Owns, quiet]
  cases moves with
  | hit | recycle =>
      refine owners_kept sound rfl ?_ b q
      intro other
      rw [here, idle (by simp), idle (by simp)]
  | modify | logWrite | bwrite =>
      refine owners_kept sound rfl ?_ b q
      intro other
      rw [here]
  | drop =>
      refine owners_kept sound (drop_rest _ _).1 ?_ b q
      intro other
      rw [here, idle (by simp), idle (by simp)]
  | found valid =>
      refine owners_kept sound rfl ?_ b q
      intro other
      rw [here, idle (by simp)]
      simp [Proc.Owns, or_comm, eq_comm]
  | fill invalid done =>
      refine owners_kept sound ?_ ?_ b q
      · rcases iderw_cases done with ⟨_, rfl⟩ | ⟨_, rfl⟩ <;> rfl
      · intro other
        rw [here, idle (by simp)]
        simp [Proc.Owns, or_comm, eq_comm]
  | @lock other held unlocked =>
      have before := sound.owners b q
      dsimp only
      rw [update_apply, update_apply]
      by_cases same : b = other <;> by_cases self : q = p
      · simp [same, self, Proc.Owns]
      · subst same
        rw [if_pos rfl, if_neg self, ← before, unlocked]
        simp [Ne.symm self]
      · subst self
        rw [if_neg same, if_pos rfl, before, here, idle (by simp)]
        simp [Proc.Owns, Ne.symm same]
      · rw [if_neg same, if_neg self, before]
  | @brelse other held owned =>
      have before := sound.owners b q
      dsimp only
      rw [update_apply, update_apply]
      by_cases same : b = other <;> by_cases self : q = p
      · simp [same, self, Proc.Owns]
      · subst same
        rw [if_pos rfl, if_neg self, ← before, owned]
        simp [Ne.symm self]
      · subst self
        rw [if_neg same, if_pos rfl, before, here, idle (by simp), idle (by simp)]
        simp [same]
      · rw [if_neg same, if_neg self, before]

theorem apart_step (b : Fin nbuf) (q : ι)
    (reading : (update s.place p proc' q).phase = .reading b) :
    b ∉ (update s.place p proc' q).held := by
  rw [update_apply] at reading ⊢
  split at reading
  next self =>
    rw [if_pos self]
    cases moves with
    | @lock other held unlocked =>
        cases reading
        have owners := sound.owners b p
        rw [unlocked, here] at owners
        simpa [Proc.Owns] using owners
    | _ => simp at reading
  next other =>
    rw [if_neg other]
    exact sound.apart b q reading

theorem loaded_step (b : Fin nbuf) (q : ι) (holds : b ∈ (update s.place p proc' q).held) :
    (next.bufs b).valid = true := by
  have before : ∀ q, b ∈ (s.place q).held → (next.bufs b).valid = true := fun q old =>
    moves_valid moves (sound.referred (share_pos (Or.inl old))) (sound.loaded b q old)
  rw [update_apply] at holds
  split at holds
  next =>
    have mine := before p
    rw [here] at mine
    cases moves with
    | found valid =>
        rcases Finset.mem_insert.mp holds with rfl | old
        · exact valid
        · exact mine old
    | fill invalid done =>
        rcases Finset.mem_insert.mp holds with rfl | old
        · exact iderw_valid done
        · exact mine old
    | brelse => exact mine (Finset.mem_of_mem_erase holds)
    | _ => exact mine holds
  next => exact before q holds

omit [DecidableEq ι] in
theorem clean_step (b : Fin nbuf) : (next.bufs b).Clean := by
  cases moves with
  | @hit _ _ other | @modify other =>
      refine setBuf_clean sound.clean ?_ b
      exact sound.clean other
  | recycle => exact setBuf_clean sound.clean (fun _ => rfl) b
  | bwrite => exact setBuf_clean sound.clean (by simp [Buf.Clean]) b
  | @logWrite other held holds =>
      have valid := sound.loaded other p (by rwa [here])
      exact setBuf_clean sound.clean (by simp [Buf.Clean, valid]) b
  | brelse | lock | found => exact sound.clean b
  | fill invalid done =>
      rcases iderw_cases done with ⟨_, rfl⟩ | ⟨_, rfl⟩ <;>
        exact setBuf_clean sound.clean (by simp [Buf.Clean]) b
  | @drop other =>
      rw [drop_buf]
      refine setBuf_clean sound.clean ?_ b
      exact sound.clean other

theorem sound_moves : Sound ⟨next, update s.place p proc'⟩ where
  whole := by
    cases moves with
    | drop => exact sound.whole.drop _
    | fill invalid done =>
        rcases iderw_cases done with ⟨_, rfl⟩ | ⟨_, rfl⟩ <;> exact sound.whole
    | _ => exact sound.whole
  unique := unique_step sound.unique moves
  counted := counted_step sound here moves
  owners := owners_step sound here moves
  apart := apart_step sound here moves
  loaded := loaded_step sound here moves
  clean := clean_step sound here moves

end Step

theorem sound_step {s next : State ι} {event : ι × Action} (sound : Sound s)
    (stepped : step havedisk1 s event = some next) :
    Moves havedisk1 event.1 s.shared (s.place event.1) event.2 next.shared (next.place event.1) ∧
      Sound next := by
  obtain ⟨shared, place, moved, rfl⟩ := act_eq_some.mp stepped
  have moves := program_moves sound.whole moved
  exact ⟨by simpa using moves, sound_moves sound rfl moves⟩

end OsLabs.Cache
