import Mathlib.Data.List.Pairwise
import OsLabs.Umalloc.UmallocMalloc

/-!
The blocks of the list and the live blocks, over all runs of a program that frees what it has.
-/

namespace OsLabs.Umalloc

open Blocks ByteField Runs Segments

variable {base : Nat} {h : Heap} {s : State} {blocks used used' : List Block}

theorem Laid.perm (laid : Laid base h blocks used) (perm : used.Perm used') : Laid base h blocks used' := by
  refine ⟨laid.linked, fun b member => ?_, laid.separated, ?_, fun b member c other => ?_, fun b member => ?_,
    laid.base_pos, laid.image, laid.brk_lt, laid.freep, fun address => ?_⟩
  · exact laid.sized b (((List.Perm.refl _).append perm).mem_iff.mpr member)
  · exact (perm.pairwise_iff fun apart => apart.symm).mp laid.usedApart
  · exact laid.apart b member c (perm.mem_iff.mpr other)
  · exact laid.bounds b (((List.Perm.refl _).append perm).mem_iff.mpr member)
  · rw [laid.covered, Covers, Covers]
    simp only [((List.Perm.refl blocks).append perm).mem_iff]

theorem Laid.write (laid : Laid base h blocks used) {b : Block} (member : b ∈ used) {address : Nat}
    (low : b.start + unit ≤ address) (high : address < b.stop) (byte : BitVec 8) :
    Laid base { h with mem := Function.update h.mem address byte } blocks used := by
  have bounds := laid.bounds b (List.mem_append_right _ member)
  have same {c : Block} (listed : c ∈ baseBlock base :: blocks ++ used) :
      Same h.mem (Function.update h.mem address byte) c.start := by
    refine same_of_bytes fun other first last => Function.update_of_ne ?_ _ _
    rintro rfl
    rcases List.mem_append.mp listed with inList | outside
    · have clear : c = baseBlock base ∨ c.Apart b ∧ c.start + unit ≤ c.stop := by
        refine (List.mem_cons.mp inList).imp_right fun found => ⟨laid.apart c found b member, ?_⟩
        exact (laid.bounds c (List.mem_append_left _ found)).2.1
      rcases clear with rfl | ⟨apart, large⟩
      · simp only [baseBlock] at last
        omega
      · simp only [Block.Apart] at apart
        omega
    · have bounds' := laid.bounds c (List.mem_append_right _ outside)
      by_cases equal : c = b
      · rw [equal] at last
        omega
      · have apart := laid.usedApart.forall outside member equal
        simp only [Block.Apart] at apart
        omega
  refine ⟨laid.linked.congr fun node found => ?_, laid.sized.congr fun c listed => same listed, laid.separated,
    laid.usedApart, laid.apart, laid.bounds, laid.base_pos, laid.image, laid.brk_lt, laid.freep, laid.covered⟩
  obtain ⟨c, listed, rfl⟩ := List.mem_map.mp found
  exact (same (List.mem_append_left _ listed)).ptr

def Live.block (m : Bytes) (l : Live) : Block := blockAt m (l.ptr - unit)

/-- The list from `freep` visits its blocks in the order of their addresses, with one wrap, and the blocks of
the list and the live ones share out the memory that `sbrk` has returned. -/
structure Sound (s : State) (low high : List Nat) : Prop where
  circular : Seg (ptr s.heap.mem) s.heap.freep (high ++ low) s.heap.freep
  increasing : (low ++ high).Pairwise (· < ·)
  separated : Separated ((low ++ high).map (blockAt s.heap.mem))
  liveApart : (s.live.map (Live.block s.heap.mem)).Pairwise Block.Apart
  apart : ∀ b ∈ (low ++ high).map (blockAt s.heap.mem), ∀ l ∈ s.live, b.Apart (l.block s.heap.mem)
  partition : ∀ address, Covers s.heap.obtained address ↔
    Covers ((low ++ high).map (blockAt s.heap.mem)) address ∨ Covers (s.live.map (Live.block s.heap.mem)) address
  large : ∀ l ∈ s.live, l.ptr + l.nbytes ≤ (l.block s.heap.mem).stop

structure Owned (base : Nat) (s : State) (blocks : List Block) (owned : List (Live × Block)) : Prop where
  live : owned.map Prod.fst = s.live
  laid : Laid base s.heap blocks (owned.map Prod.snd)
  fits : ∀ o ∈ owned, o.2.start + unit = o.1.ptr ∧ o.1.ptr + o.1.nbytes ≤ o.2.stop

structure Unused (base : Nat) (s : State) : Prop where
  freep : s.heap.freep = 0
  live : s.live = []
  obtained : s.heap.obtained = []
  base_pos : 0 < base
  image : base + unit ≤ s.heap.brk
  brk_lt : s.heap.brk < kernbase

def Good (base : Nat) (s : State) : Prop := Unused base s ∨ ∃ blocks owned, Owned base s blocks owned

theorem Laid.setup_eq (laid : Laid base h blocks used) : setup base h = h := by
  have positive := laid.base_pos
  obtain ⟨b, member, same⟩ := List.mem_map.mp laid.freep
  have order := laid.order member
  rw [setup, if_neg (by omega)]

theorem Unused.setup (unused : Unused base s) : Laid base (setup base s.heap) [] [] := by
  have positive := unused.base_pos
  have image := unused.image
  have below := unused.brk_lt
  have small : base < word := by
    simp only [kernbase, word] at below ⊢
    omega
  rw [Umalloc.setup, if_pos unused.freep]
  refine ⟨⟨rfl, ?_⟩, ?_, List.pairwise_singleton _ _, List.Pairwise.nil, by simp, by simp, positive, image, below,
    by simp [baseBlock], by simp [unused.obtained]⟩
  · dsimp only [baseBlock]
    rw [ptr_setSize, ptr_setPtr, Nat.mod_eq_of_lt small]
    rfl
  · intro b member
    obtain rfl := List.mem_singleton.mp member
    dsimp only [baseBlock]
    rw [size_setSize]
    rfl

theorem unitsFor_spec {nbytes : Nat} (small : nbytes ≤ 2 ^ 31 - 16) :
    0 < unitsFor nbytes ∧ unitsFor nbytes < 2 ^ 28 ∧ nbytes + unit ≤ unit * unitsFor nbytes := by
  simp only [unitsFor, unit, word]
  omega

theorem Laid.step_malloc (laid : Laid base (setup base s.heap) blocks used) {owned : List (Live × Block)}
    (live : owned.map Prod.fst = s.live) (blocksOf : owned.map Prod.snd = used)
    (fits : ∀ o ∈ owned, o.2.start + unit = o.1.ptr ∧ o.1.ptr + o.1.nbytes ≤ o.2.stop) {nbytes : Nat}
    (small : nbytes ≤ 2 ^ 31 - 16) (answers : Answers) :
    ∃ next, step base s (.malloc nbytes answers) = some next ∧ Good base next := by
  obtain ⟨positive, bound, room⟩ := unitsFor_spec small
  obtain ⟨h', ap, blocks', result, outcome⟩ := laid.malloc positive bound answers
  have stepped : step base s (.malloc nbytes answers) =
      some ⟨h', if ap = 0 then s.live else ⟨ap, nbytes⟩ :: s.live⟩ := by
    rw [step, Umalloc.malloc, result]
    rfl
  subst blocksOf
  refine ⟨_, stepped, Or.inr ⟨blocks', ?_⟩⟩
  rcases outcome with ⟨rfl, laid'⟩ | ⟨u, laid', rfl, stop⟩
  · exact ⟨owned, live, laid', fits⟩
  · refine ⟨(⟨u.start + unit, nbytes⟩, u) :: owned, ?_, laid', ?_⟩
    · rw [if_neg (by simp [unit]), List.map_cons, live]
    · intro o member
      rcases List.mem_cons.mp member with rfl | later
      · dsimp only
        omega
      · exact fits o later

theorem Good.malloc (good : Good base s) {nbytes : Nat} (small : nbytes ≤ 2 ^ 31 - 16) (answers : Answers) :
    ∃ next, step base s (.malloc nbytes answers) = some next ∧ Good base next := by
  rcases good with unused | ⟨blocks, owned, own⟩
  · exact unused.setup.step_malloc (show ([] : List (Live × Block)).map Prod.fst = s.live from unused.live.symm) rfl (by simp) small answers
  · have laid := own.laid
    rw [← laid.setup_eq] at laid
    exact laid.step_malloc own.live rfl own.fits small answers

theorem Good.free (good : Good base s) {ap : Nat} (live : ∃ l ∈ s.live, l.ptr = ap) :
    ∃ next, step base s (.free ap) = some next ∧ Good base next := by
  obtain ⟨l, member, rfl⟩ := live
  rcases good with unused | ⟨blocks, owned, own⟩
  · rw [unused.live] at member
    exact absurd member List.not_mem_nil
  · obtain ⟨l', first, rest, -, same, split, erased⟩ := List.exists_of_eraseP member (p := (·.ptr = l.ptr)) (by simp)
    have whole := own.live.trans split
    obtain ⟨before, tail, rfl, rfl, mapped⟩ := List.map_eq_append_iff.mp whole
    obtain ⟨o, after, rfl, rfl, rfl⟩ := List.map_eq_cons_iff.mp mapped
    obtain ⟨start, -⟩ := own.fits o (by simp)
    have laid := own.laid.perm (show List.Perm _ (o.2 :: (before ++ after).map Prod.snd) by simp)
    obtain ⟨h', blocks', result, laid', -, -, -⟩ := laid.free
    have pointer : l.ptr = o.2.start + unit := by
      rw [start]
      exact (of_decide_eq_true same).symm
    refine ⟨⟨h', s.live.eraseP (·.ptr = l.ptr)⟩, ?_, Or.inr ⟨blocks', before ++ after, ?_, laid', fun p found => ?_⟩⟩
    · rw [step, pointer, result]
      rfl
    · rw [erased, List.map_append]
    · refine own.fits p ?_
      rcases List.mem_append.mp found with earlier | later
      · exact List.mem_append_left _ earlier
      · exact List.mem_append_right _ (List.mem_cons_of_mem _ later)

theorem Good.write (good : Good base s) {address : Nat} {byte : BitVec 8}
    (live : ∃ l ∈ s.live, l.ptr ≤ address ∧ address < l.ptr + l.nbytes) :
    ∃ next, step base s (.write address byte) = some next ∧ Good base next := by
  obtain ⟨l, member, low, high⟩ := live
  rcases good with unused | ⟨blocks, owned, own⟩
  · rw [unused.live] at member
    exact absurd member List.not_mem_nil
  · rw [← own.live] at member
    obtain ⟨o, found, rfl⟩ := List.mem_map.mp member
    obtain ⟨start, fits⟩ := own.fits o found
    refine ⟨_, rfl, Or.inr ⟨blocks, owned, own.live, ?_, own.fits⟩⟩
    exact own.laid.write (List.mem_map_of_mem found) (by omega) (by omega) byte

theorem Permitted.below {nbytes : Nat} {answers : Answers} (permitted : Permitted s (.malloc nbytes answers)) :
    nbytes ≤ 2 ^ 31 - 16 := by
  have small : nbytes < 2 ^ 30 := permitted
  omega

theorem Good.step (good : Good base s) {event : Event} (permitted : Permitted s event) :
    ∃ next, step base s event = some next ∧ Good base next := by
  cases event with
  | malloc nbytes answers => exact good.malloc (permitted.below) answers
  | free ap => exact good.free permitted
  | write address byte => exact good.write permitted

theorem Sized.blocks_eq {m : Bytes} (sized : Sized m blocks) : (blocks.map Block.start).map (blockAt m) = blocks := by
  have same : ∀ b ∈ blocks, (blockAt m ∘ Block.start) b = id b := by
    intro b member
    rw [Function.comp_apply, blockAt, ← sized b member]
    rfl
  rw [List.map_map, List.map_congr_left same, List.map_id]

theorem Owned.sound {owned : List (Live × Block)} (own : Owned base s blocks owned) :
    ∃ low high, Sound s low high := by
  have laid := own.laid
  obtain ⟨inList, outside⟩ := sized_append.mp laid.sized
  have liveBlocks : s.live.map (Live.block s.heap.mem) = owned.map Prod.snd := by
    rw [← own.live, List.map_map]
    refine List.map_congr_left fun o member => ?_
    have start := (own.fits o member).1
    have size := outside o.2 (List.mem_map_of_mem member)
    rw [Function.comp_apply, Live.block, ← start, Nat.add_sub_cancel, blockAt, ← size]
  have linked := laid.linked
  have increasing : ((baseBlock base :: blocks).map Block.start).Pairwise (· < ·) := by
    refine List.pairwise_map.mpr (laid.separated.imp_of_mem fun {c d} member _ gap => ?_)
    have order := laid.order member
    omega
  have ring := inList.blocks_eq
  obtain ⟨low, rest, split⟩ := List.append_of_mem laid.freep
  rw [split] at linked increasing ring
  refine ⟨low, s.heap.freep :: rest, linked.rotate, increasing, ring ▸ laid.separated, ?_, ?_, fun address => ?_, ?_⟩
  · rw [liveBlocks]
    exact laid.usedApart
  · intro b member l found
    have other : l.block s.heap.mem ∈ owned.map Prod.snd := liveBlocks ▸ List.mem_map_of_mem found
    rw [ring] at member
    rcases List.mem_cons.mp member with rfl | later
    · have bounds := laid.bounds _ (List.mem_append_right _ other)
      exact Or.inl (le_trans (Nat.le_add_right _ _) bounds.1)
    · exact laid.apart b later _ other
  · have empty : ¬(baseBlock base).Holds address := by
      simp only [baseBlock, Block.Holds]
      omega
    rw [ring, liveBlocks, laid.covered, covers_append, covers_cons, or_iff_right empty]
  · intro l member
    rw [← own.live] at member
    obtain ⟨o, found, rfl⟩ := List.mem_map.mp member
    obtain ⟨start, fits⟩ := own.fits o found
    have size := outside o.2 (List.mem_map_of_mem found)
    rw [Live.block, ← start, Nat.add_sub_cancel, blockAt, ← size, start]
    exact fits

/-- What `malloc` returns: 0, or a block that is large enough and apart from the live ones. -/
def Grants (live : List Live) (nbytes : Nat) (h : Heap) (ap : Nat) : Prop :=
  ap = 0 ∨ ap + nbytes ≤ (blockAt h.mem (ap - unit)).stop ∧
    ∀ l ∈ live, (blockAt h.mem (ap - unit)).Apart (l.block h.mem)

theorem Good.grants (good : Good base s) {nbytes : Nat} (small : nbytes ≤ 2 ^ 31 - 16) (answers : Answers) :
    ∃ h ap, Umalloc.malloc base nbytes answers s.heap = some (h, ap) ∧ Grants s.live nbytes h ap := by
  obtain ⟨next, stepped, kept⟩ := good.malloc small answers
  rw [Umalloc.step, Option.bind_eq_bind, Option.bind_eq_some_iff] at stepped
  obtain ⟨⟨h, ap⟩, result, same⟩ := stepped
  obtain rfl := Option.some.inj same
  refine ⟨h, ap, result, ?_⟩
  by_cases failed : ap = 0
  · exact Or.inl failed
  · right
    rcases kept with unused | ⟨blocks, owned, own⟩
    · have none := unused.live
      rw [if_neg failed] at none
      exact absurd none (List.cons_ne_nil _ _)
    · obtain ⟨low, high, sound⟩ := own.sound
      have large := sound.large
      have apart := sound.liveApart
      rw [if_neg failed] at large apart
      rw [List.map_cons] at apart
      refine ⟨large _ List.mem_cons_self, fun l member => ?_⟩
      exact (List.pairwise_cons.mp apart).1 _ (List.mem_map_of_mem member)

/-- In every run of a program that frees only live pointers and asks for less than 1 GB at a time every call
returns, the list is in order and shares out the memory with the live blocks, and every `malloc` that succeeds
returns a new block. -/
theorem heap_sound {mem : Bytes} {brk : Nat} (base_pos : 0 < base) (image : base + unit ≤ brk) (user : brk < kernbase)
    {events : List Event} (permitted : Along (step base) (fun _ => Permitted) (start mem brk) events) :
    (∃ s, run (step base) (start mem brk) events = some s ∧
      ((s.heap.freep = 0 ∧ s.live = [] ∧ s.heap.obtained = []) ∨ ∃ low high, Sound s low high)) ∧
    ∀ before nbytes answers after, events = before ++ .malloc nbytes answers :: after →
      ∃ s h ap, run (step base) (start mem brk) before = some s ∧
        malloc base nbytes answers s.heap = some (h, ap) ∧ Grants s.live nbytes h ap := by
  have total (events : List Event) (along : Along (step base) (fun _ => Permitted) (start mem brk) events) :=
    run_total (Good base) (Or.inl ⟨rfl, rfl, rfl, base_pos, image, user⟩)
      (fun _ s event good permitted => good.step permitted) events along
  refine ⟨?_, fun before nbytes answers after split => ?_⟩
  · obtain ⟨s, reached, unused | ⟨blocks, owned, own⟩⟩ := total events permitted
    · exact ⟨s, reached, Or.inl ⟨unused.freep, unused.live, unused.obtained⟩⟩
    · exact ⟨s, reached, Or.inr own.sound⟩
  · subst split
    obtain ⟨s, reached, good⟩ := total before permitted.of_append
    obtain ⟨h, ap, result, grants⟩ := good.grants (permitted before _ after s rfl reached).below answers
    exact ⟨s, h, ap, reached, result, grants⟩

/-- Two blocks, of which the first is freed and then grows with fresh memory. -/
theorem heap_sound_coalescing :
    ∃ s low high, run (step 3000) (start (fun _ => 0) 4096)
        [.malloc 100 [some 0], .malloc 0 [], .write 36760 7, .free 36760, .malloc 40000 [some 0]] = some s ∧
      s.live.length = 2 ∧ Sound s low high := by
  obtain ⟨⟨s, reached, sound⟩, -⟩ := @heap_sound 3000 (fun _ => 0) 4096 (by decide) (by decide) (by decide) _
    (alongCheck_sound _ _ _ [.malloc 100 [some 0], .malloc 0 [], .write 36760 7, .free 36760, .malloc 40000 [some 0]]
      (by decide +kernel))
  have live : (run (step 3000) (start (fun _ => 0) 4096)
      [.malloc 100 [some 0], .malloc 0 [], .write 36760 7, .free 36760, .malloc 40000 [some 0]]).map
        (fun s => s.live.length) = some 2 := by decide +kernel
  rw [reached, Option.map_some, Option.some.injEq] at live
  rcases sound with ⟨-, none, -⟩ | ⟨low, high, sound⟩
  · rw [none] at live
    exact absurd live (by decide)
  · exact ⟨s, low, high, reached, live, sound⟩

end OsLabs.Umalloc
