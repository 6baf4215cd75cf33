import Mathlib.Data.Fintype.Card
import OsLabs.Cache.CacheCore

/-!
What one step on the buffer cache can do. The two loops of `bget` look at every buffer,
because the ring goes through all of them.
-/

namespace OsLabs.Cache

open Function OsLabs.Interleaving OsLabs.LinkedRing
open OsLabs.Log (Block)

variable {ι : Type*}

def Whole (ring : Links (Fin nbuf)) : Prop := ∃ order, Linked ring order ∧ ∀ b, b ∈ order

theorem whole_binit (disk : Nat → Nat → Block) : Whole (binit disk : Bcache ι).ring := by
  have fresh : ((List.finRange nbuf).reverse ++ []).Nodup := by simpa using List.nodup_finRange nbuf
  exact ⟨_, linked_foldl linked_empty fresh, by simp⟩

theorem Whole.drop {c : Bcache ι} (whole : Whole c.ring) (b : Fin nbuf) :
    Whole (c.drop b).ring := by
  rw [Bcache.drop]
  split
  next =>
    obtain ⟨order, linked, all⟩ := whole
    obtain ⟨before, after, split⟩ := List.append_of_mem (all b)
    subst split
    refine ⟨_, linked_moveFront linked, ?_⟩
    intro other
    have member := all other
    simp only [List.mem_append, List.mem_cons] at member ⊢
    tauto
  next => exact whole

theorem length_lt_of_linked {ring : Links (Fin nbuf)} {order : List (Fin nbuf)}
    (linked : Linked ring order) : order.length < nbuf + 1 := by
  have bound := linked.nodup.length_le_card
  rw [Fintype.card_fin] at bound
  omega

def Buf.Caches (buf : Buf) (dev blockno : Nat) : Prop := buf.dev = dev ∧ buf.blockno = blockno

instance (buf : Buf) (dev blockno : Nat) : Decidable (buf.Caches dev blockno) :=
  inferInstanceAs (Decidable (_ ∧ _))

theorem caches_iff {buf : Buf} {dev blockno : Nat} :
    buf.caches dev blockno = true ↔ buf.Caches dev blockno := by
  simp [Buf.caches, Buf.Caches]

theorem bget_cases {c next : Bcache ι} {dev blockno : Nat} {b : Fin nbuf} (whole : Whole c.ring)
    (got : c.bget dev blockno = some (next, b)) :
    (c.bufs b).Caches dev blockno ∧
        next = c.setBuf b { c.bufs b with refcnt := (c.bufs b).refcnt + 1 } ∨
      (∀ other, ¬(c.bufs other).Caches dev blockno) ∧ (c.bufs b).refcnt = 0 ∧
        (c.bufs b).dirty = false ∧
        next = c.recycle b dev blockno := by
  obtain ⟨order, linked, all⟩ := whole
  have enough := length_lt_of_linked linked
  rw [Bcache.bget, linked.scan_next _ enough, linked.scan_prev _ enough] at got
  split at got
  next found search =>
    obtain ⟨rfl, rfl⟩ := Prod.mk.inj (Option.some.inj got)
    have cached := List.find?_some search
    exact Or.inl ⟨caches_iff.mp cached, rfl⟩
  next absent =>
    split at got
    next found search =>
      obtain ⟨rfl, rfl⟩ := Prod.mk.inj (Option.some.inj got)
      have unused := List.find?_some search
      simp only [Buf.unused, Bool.and_eq_true, decide_eq_true_eq, Bool.not_eq_true'] at unused
      refine Or.inr ⟨?_, unused.1, unused.2, rfl⟩
      intro other cached
      exact List.find?_eq_none.mp absent other (all other) (caches_iff.mpr cached)
    next => simp at got

theorem iderw_cases {havedisk1 : Bool} {c next : Bcache ι} {b : Fin nbuf}
    (done : c.iderw havedisk1 b = some next) :
    (c.bufs b).dirty = true ∧
        next =
          { c.setBuf b { c.bufs b with valid := true, dirty := false } with
            disk := update c.disk ((c.bufs b).dev % 2)
              (update (c.disk ((c.bufs b).dev % 2)) (c.bufs b).blockno (c.bufs b).data) } ∨
      (c.bufs b).dirty = false ∧
        next = c.setBuf b
          { c.bufs b with valid := true, data := c.disk ((c.bufs b).dev % 2) (c.bufs b).blockno } := by
  simp only [Bcache.iderw, Option.ite_none_left_eq_some] at done
  obtain ⟨_, _, _, done⟩ := done
  split at done
  next dirty => exact Or.inl ⟨dirty, (Option.some.inj done).symm⟩
  next clean =>
    rw [Bool.not_eq_true] at clean
    exact Or.inr ⟨clean, (Option.some.inj done).symm⟩

inductive Moves (havedisk1 : Bool) (p : ι) (c : Bcache ι) :
    Proc → Action → Bcache ι → Proc → Prop
  | hit {dev blockno b held} (cached : (c.bufs b).Caches dev blockno) :
      Moves havedisk1 p c ⟨.idle, held⟩ (.bread dev blockno)
        (c.setBuf b { c.bufs b with refcnt := (c.bufs b).refcnt + 1 }) ⟨.locking b, held⟩
  | recycle {dev blockno b held} (absent : ∀ other, ¬(c.bufs other).Caches dev blockno)
      (free : (c.bufs b).refcnt = 0) (clean : (c.bufs b).dirty = false) :
      Moves havedisk1 p c ⟨.idle, held⟩ (.bread dev blockno)
        (c.recycle b dev blockno) ⟨.locking b, held⟩
  | modify {b held data} (holds : b ∈ held) :
      Moves havedisk1 p c ⟨.idle, held⟩ (.modify b data) (c.modify b data) ⟨.idle, held⟩
  | logWrite {b held} (holds : b ∈ held) :
      Moves havedisk1 p c ⟨.idle, held⟩ (.logWrite b) (c.setDirty b) ⟨.idle, held⟩
  | bwrite {b held} (owned : c.holder b = some p) :
      Moves havedisk1 p c ⟨.idle, held⟩ (.bwrite b)
        { c.setBuf b { c.bufs b with valid := true, dirty := false } with
          disk := update c.disk ((c.bufs b).dev % 2)
            (update (c.disk ((c.bufs b).dev % 2)) (c.bufs b).blockno (c.bufs b).data)
          touched := update c.touched b false } ⟨.idle, held⟩
  | brelse {b held} (owned : c.holder b = some p) :
      Moves havedisk1 p c ⟨.idle, held⟩ (.brelse b)
        { c with holder := update c.holder b none } ⟨.dropping b, held.erase b⟩
  | lock {b held} (unlocked : c.holder b = none) :
      Moves havedisk1 p c ⟨.locking b, held⟩ .go
        { c with holder := update c.holder b (some p) } ⟨.reading b, held⟩
  | found {b held} (valid : (c.bufs b).valid = true) :
      Moves havedisk1 p c ⟨.reading b, held⟩ .go c ⟨.idle, insert b held⟩
  | fill {b held next} (invalid : (c.bufs b).valid = false)
      (done : c.iderw havedisk1 b = some next) :
      Moves havedisk1 p c ⟨.reading b, held⟩ .go next ⟨.idle, insert b held⟩
  | drop {b held} : Moves havedisk1 p c ⟨.dropping b, held⟩ .go (c.drop b) ⟨.idle, held⟩

theorem bwrite_eq {havedisk1 : Bool} {c next : Bcache ι} {b : Fin nbuf}
    (done : (c.setDirty b).iderw havedisk1 b = some next) :
    next =
      { c.setBuf b { c.bufs b with valid := true, dirty := false } with
        disk := update c.disk ((c.bufs b).dev % 2)
          (update (c.disk ((c.bufs b).dev % 2)) (c.bufs b).blockno (c.bufs b).data)
        touched := update c.touched b false } := by
  rcases iderw_cases done with ⟨_, rfl⟩ | ⟨clean, _⟩
  · simp [Bcache.setDirty, Bcache.setBuf]
  · simp [Bcache.setDirty, Bcache.setBuf] at clean

variable [DecidableEq ι]

theorem program_moves {havedisk1 : Bool} {action : Action} {p : ι} {c next : Bcache ι}
    {proc proc' : Proc} (whole : Whole c.ring)
    (moved : program havedisk1 action p c proc = some (next, proc')) :
    Moves havedisk1 p c proc action next proc' := by
  obtain ⟨phase, held⟩ := proc
  cases action with
  | bread dev blockno =>
      cases phase <;> simp only [program, Option.map_eq_some_iff, reduceCtorEq, Prod.mk.injEq] at moved
      obtain ⟨⟨c', b⟩, got, rfl, rfl⟩ := moved
      rcases bget_cases whole got with ⟨cached, rfl⟩ | ⟨absent, free, clean, rfl⟩
      · exact .hit cached
      · exact .recycle absent free clean
  | modify b data =>
      cases phase <;> simp only [program, Option.ite_none_right_eq_some, reduceCtorEq,
        Option.some.injEq, Prod.mk.injEq] at moved
      obtain ⟨holds, rfl, rfl⟩ := moved
      exact .modify holds
  | logWrite b =>
      cases phase <;> simp only [program, Option.ite_none_right_eq_some, reduceCtorEq,
        Option.some.injEq, Prod.mk.injEq] at moved
      obtain ⟨holds, rfl, rfl⟩ := moved
      exact .logWrite holds
  | bwrite b =>
      cases phase <;> simp only [program, Option.ite_none_right_eq_some, reduceCtorEq,
        Option.map_eq_some_iff, Prod.mk.injEq] at moved
      obtain ⟨owned, _, done, rfl, rfl⟩ := moved
      rw [bwrite_eq done]
      exact .bwrite owned
  | brelse b =>
      cases phase <;> simp only [program, Option.ite_none_right_eq_some, reduceCtorEq,
        Option.some.injEq, Prod.mk.injEq] at moved
      obtain ⟨owned, rfl, rfl⟩ := moved
      exact .brelse owned
  | go =>
      cases phase with
      | idle => simp [program] at moved
      | locking b =>
          simp only [program, Option.isNone_iff_eq_none, Option.ite_none_right_eq_some,
            Option.some.injEq, Prod.mk.injEq] at moved
          obtain ⟨unlocked, rfl, rfl⟩ := moved
          exact .lock unlocked
      | reading b =>
          simp only [program, Option.map_eq_some_iff, Prod.mk.injEq] at moved
          obtain ⟨_, done, rfl, rfl⟩ := moved
          split at done
          next valid =>
            cases done
            exact .found valid
          next invalid =>
            rw [Bool.not_eq_true] at invalid
            exact .fill invalid done
      | dropping b =>
          simp only [program, Option.some.injEq, Prod.mk.injEq] at moved
          obtain ⟨rfl, rfl⟩ := moved
          exact .drop

end OsLabs.Cache
