import OsLabs.Umalloc.UmallocFree

/-!
What `malloc` does to the list: a block is taken from it or cut, or fresh memory is put into it first. Its loop
ends, since a block that is large enough is found at the latest in the round after `morecore`.
-/

namespace OsLabs.Umalloc

open Blocks ByteField Runs Segments

section Allocate

variable {base nunits : Nat} {h : Heap} {blocks used low high : List Block} {prev c u : Block} {keep : List Block}

structure Carved (c : Block) (keep : List Block) (u : Block) : Prop where
  within : ∀ d ∈ u :: keep, c.start ≤ d.start ∧ d.start + unit ≤ d.stop ∧ d.stop ≤ c.stop
  separated : Separated keep
  apart : ∀ d ∈ keep, d.Apart u
  covers : ∀ address, Covers (u :: keep) address ↔ c.Holds address

theorem Laid.carve (laid : Laid base h blocks used) (split : blocks = low ++ c :: high) (carved : Carved c keep u)
    {m : Bytes} {prevp : Nat} (previous : prevp ∈ (baseBlock base :: low).map Block.start)
    (linked : Seg (ptr m) base ((baseBlock base :: (low ++ (keep ++ high))).map Block.start) base)
    (sized : Sized m (baseBlock base :: (low ++ (keep ++ high)) ++ u :: used)) :
    Laid base { h with mem := m, freep := prevp } (low ++ (keep ++ high)) (u :: used) := by
  subst split
  obtain ⟨below, above⟩ := Separated.gaps (List.pairwise_cons.mp laid.separated).2
  have inside := carved.within u List.mem_cons_self
  have bounds := laid.bounds c (by simp)
  have others {d : Block} (member : d ∈ low ++ (keep ++ high)) :
      d ∈ low ++ c :: high ∧ d.Apart u ∨ d ∈ keep := by
    simp only [List.mem_append, List.mem_cons] at member ⊢
    rcases member with earlier | part | later
    · have gap := below d earlier
      exact Or.inl ⟨Or.inl earlier, Or.inl (by omega)⟩
    · exact Or.inr part
    · have gap := above d later
      exact Or.inl ⟨Or.inr (Or.inr later), Or.inr (by omega)⟩
  have inner {d e : Block} (part : d ∈ u :: keep) (member : e ∈ used) : d.Apart e := by
    have within := carved.within d part
    have apart := laid.apart c (by simp) e member
    simp only [Block.Apart] at apart ⊢
    omega
  refine ⟨linked, sized, ?_, ?_, fun d member e other => ?_, fun d member => ?_, laid.base_pos, laid.image,
    laid.brk_lt, ?_, fun address => ?_⟩
  · exact Separated.replace (show Separated (baseBlock base :: low ++ c :: high) from laid.separated)
      (fun d part => ⟨(carved.within d (List.mem_cons_of_mem _ part)).1,
        (carved.within d (List.mem_cons_of_mem _ part)).2.2⟩) carved.separated
  · exact List.pairwise_cons.mpr ⟨fun e member => inner List.mem_cons_self member, laid.usedApart⟩
  · rcases List.mem_cons.mp other with rfl | later
    · rcases others member with ⟨-, apart⟩ | part
      · exact apart
      · exact carved.apart d part
    · rcases others member with ⟨listed, -⟩ | part
      · exact laid.apart d listed e later
      · exact inner (List.mem_cons_of_mem _ part) later
  · rcases List.mem_append.mp member with listed | other
    · rcases others listed with ⟨kept, -⟩ | part
      · exact laid.bounds d (List.mem_append_left _ kept)
      · have within := carved.within d (List.mem_cons_of_mem _ part)
        dsimp only
        omega
    · rcases List.mem_cons.mp other with rfl | later
      · dsimp only
        omega
      · exact laid.bounds d (List.mem_append_right _ later)
  · rw [← List.cons_append, List.map_append]
    exact List.mem_append_left _ previous
  · have covers := carved.covers address
    dsimp only
    rw [laid.covered]
    simp only [covers_append, covers_cons] at covers ⊢
    rw [← covers]
    tauto

theorem Laid.split_at (laid : Laid base h blocks used) {prevp : Nat}
    (previous : prevp ∈ (baseBlock base :: blocks).map Block.start) (next : ptr h.mem prevp = c.start)
    (member : c ∈ blocks) :
    ∃ low high before prev, blocks = low ++ c :: high ∧ baseBlock base :: low = before ++ [prev] ∧
      prev.start = prevp := by
  obtain ⟨prev, listed, rfl⟩ := List.mem_map.mp previous
  obtain ⟨before, rest, split⟩ := List.append_of_mem listed
  have linked := laid.linked
  have bounds := laid.bounds c (List.mem_append_left _ member)
  rw [split] at linked
  rcases ptr_cases linked with ⟨-, pointer⟩ | ⟨d, high, rfl, pointer⟩
  · rw [next] at pointer
    simp only [unit] at bounds
    omega
  · have start : d.start = c.start := pointer.symm.trans next
    have listed' : d ∈ baseBlock base :: blocks := by
      rw [split]
      simp
    have size := laid.sized d (List.mem_append_left _ listed')
    have size' := laid.sized c (List.mem_append_left _ (List.mem_cons_of_mem _ member))
    rw [start, ← size'] at size
    obtain rfl : d = c := by
      cases c
      cases d
      simp_all
    cases before with
    | nil =>
        obtain ⟨first, rest⟩ := List.cons.inj split
        exact ⟨[], high, [], prev, rest, by rw [first]; rfl, rfl⟩
    | cons first before =>
        obtain ⟨first, rest⟩ := List.cons.inj split
        exact ⟨before ++ [prev], high, baseBlock base :: before, prev, by rw [rest]; simp, rfl, rfl⟩

theorem Laid.header_cases (laid : Laid base h blocks used) {d e : Block} (first : d ∈ baseBlock base :: blocks)
    (second : e ∈ baseBlock base :: blocks) : d = e ∨ Clear d.start e.start := by
  by_cases same : d = e
  · exact Or.inl same
  · rcases laid.separated.gap first second same with below | above
    · exact Or.inr (Or.inl (laid.headers first second below))
    · exact Or.inr (Or.inr (laid.headers second first above))

theorem size_setPtr_of {m : Bytes} {p q : Nat} (other : q = p ∨ Clear p q) (value : Nat) :
    size (setPtr m p value) q = size m q := by
  rcases other with rfl | clear
  · exact size_setPtr m q value
  · exact (same_setPtr clear value).size

theorem ptr_setSize_of {m : Bytes} {p q : Nat} (other : q = p ∨ Clear p q) (value : Nat) :
    ptr (setSize m p value) q = ptr m q := by
  rcases other with rfl | clear
  · exact ptr_setSize m q value
  · exact (same_setSize clear value).ptr

theorem Laid.take (laid : Laid base h blocks used) {before : List Block} (split : blocks = low ++ c :: high)
    (last : baseBlock base :: low = before ++ [prev]) :
    Laid base { h with mem := setPtr h.mem prev.start (ptr h.mem c.start), freep := prev.start } (low ++ high)
      (c :: used) := by
  have bounds := laid.bounds c (by simp [split])
  have whole : baseBlock base :: blocks = before ++ prev :: c :: high := by
    rw [split, ← List.cons_append, last, List.append_assoc]
    rfl
  have shorter : baseBlock base :: (low ++ high) = before ++ prev :: high := by
    rw [← List.cons_append, last, List.append_assoc]
    rfl
  have listed : prev ∈ baseBlock base :: blocks := by simp [whole]
  have carved : Carved c [] c := ⟨by simpa using bounds.2.1, List.Pairwise.nil, by simp, by simp⟩
  refine laid.carve split carved ?_ ?_ ?_
  · rw [last]
    exact List.mem_map_of_mem (List.mem_append_right _ List.mem_cons_self)
  · have linked := laid.linked
    have gaps := laid.separated
    rw [whole] at linked gaps
    obtain ⟨below, above⟩ := gaps.gaps
    rw [List.map_append, List.map_cons] at linked
    obtain ⟨middle, front, rfl, pointer, tail⟩ := seg_append.mp linked
    rw [List.nil_append, shorter, List.map_append, List.map_cons]
    refine seg_append.mpr ⟨prev.start, front.congr fun node member => ?_, rfl, ?_⟩
    · obtain ⟨d, earlier, rfl⟩ := List.mem_map.mp member
      exact (same_setPtr (Or.inr (laid.headers (by simp [whole, earlier]) listed (below d earlier))) _).ptr
    · rw [ptr_setPtr, Nat.mod_eq_of_lt (ptr_lt _ _)]
      refine tail.congr fun node member => ?_
      obtain ⟨d, later, rfl⟩ := List.mem_map.mp member
      exact (same_setPtr (Or.inl (laid.headers listed (by simp [whole, later])
        (above d (List.mem_cons_of_mem _ later)))) _).ptr
  · intro d member
    have member' : d ∈ baseBlock base :: blocks ++ used := by
      rw [split]
      simp only [List.nil_append, List.mem_append, List.mem_cons] at member ⊢
      tauto
    rw [size_setPtr_of, laid.sized d member']
    rcases List.mem_append.mp member' with inList | other
    · exact (laid.header_cases listed inList).imp (fun same => by rw [same]) id
    · exact Or.inr (laid.clear listed other)

theorem Laid.cut (laid : Laid base h blocks used) {before : List Block} {q : Nat} (split : blocks = low ++ c :: high)
    (last : baseBlock base :: low = before ++ [prev]) (positive : 0 < nunits) (larger : nunits < size h.mem c.start)
    (place : q = c.start + unit * (size h.mem c.start - nunits)) :
    Laid base
      { h with
        mem := setSize (setSize h.mem c.start (size h.mem c.start - nunits)) q nunits
        freep := prev.start }
      (low ++ ⟨c.start, q⟩ :: high) (⟨q, c.stop⟩ :: used) := by
  have bounds := laid.bounds c (by simp [split])
  have listed : c ∈ baseBlock base :: blocks := by simp [split]
  have stop := laid.sized c (List.mem_append_left _ listed)
  have bound := size_lt h.mem c.start
  have front : c.start + unit ≤ q := by
    simp only [unit] at place ⊢
    omega
  have back : q + unit * nunits = c.stop := by
    simp only [unit] at place stop ⊢
    omega
  have room : q + unit ≤ c.stop := by
    simp only [unit] at back ⊢
    omega
  have carved : Carved c [⟨c.start, q⟩] ⟨q, c.stop⟩ := by
    refine ⟨?_, List.pairwise_singleton _ _, ?_, fun address => ?_⟩
    · simp only [List.forall_mem_cons, List.not_mem_nil, false_implies, implies_true, and_true]
      omega
    · simp only [List.forall_mem_singleton, Block.Apart]
      omega
    · simp only [covers_cons, covers_nil, or_false, Block.Holds]
      omega
  -- the new header is clear of every other one
  have clear {d : Block} (member : d ∈ baseBlock base :: blocks ++ used) : Clear q d.start := by
    rcases List.mem_append.mp member with inList | other
    · by_cases same : c = d
      · exact Or.inr (same ▸ front)
      · rcases laid.separated.gap listed inList same with gap | gap
        · left
          omega
        · have header := laid.headers inList listed gap
          right
          omega
    · have apart := laid.apart c (by simp [split]) d other
      have bounds' := laid.bounds d (List.mem_append_right _ other)
      simp only [Block.Apart, Clear] at apart ⊢
      omega
  have others {d : Block} (member : d ∈ baseBlock base :: blocks ++ used) : d = c ∨ Clear c.start d.start := by
    rcases List.mem_append.mp member with inList | other
    · exact (laid.header_cases listed inList).imp Eq.symm id
    · exact Or.inr (laid.clear listed other)
  refine laid.carve split carved ?_ ?_ ?_
  · rw [last]
    exact List.mem_map_of_mem (List.mem_append_right _ List.mem_cons_self)
  · have starts : (baseBlock base :: (low ++ ([⟨c.start, q⟩] ++ high))).map Block.start =
        (baseBlock base :: blocks).map Block.start := by
      simp [split]
    rw [starts]
    refine laid.linked.congr fun node member => ?_
    obtain ⟨d, found, rfl⟩ := List.mem_map.mp member
    have found' : d ∈ baseBlock base :: blocks ++ used := List.mem_append_left _ found
    rw [(same_setSize (clear found') _).ptr, ptr_setSize_of ((others found').imp_left (congrArg Block.start))]
  · have sizes {d : Block} (member : d ∈ baseBlock base :: blocks ++ used) (differ : d ≠ c) :
        d.stop = d.start + unit * size (setSize (setSize h.mem c.start (size h.mem c.start - nunits)) q nunits) d.start := by
      rw [(same_setSize (clear member) _).size,
        (same_setSize ((others member).resolve_left differ) _).size]
      exact laid.sized d member
    have gaps := laid.separated
    rw [split, ← List.cons_append] at gaps
    obtain ⟨below, above⟩ := gaps.gaps
    intro d member
    simp only [← List.cons_append, List.mem_append, List.mem_singleton, List.mem_cons (a := d) (b := ⟨q, c.stop⟩)]
      at member
    rcases member with (earlier | rfl | later) | rfl | other
    · refine sizes (by simp only [split, ← List.cons_append, List.mem_append]; tauto) ?_
      rintro rfl
      have gap := below d earlier
      omega
    · dsimp only
      rw [(same_setSize (Or.inr front) _).size, size_setSize, Nat.mod_eq_of_lt (by omega)]
      exact place
    · refine sizes (by simp [split, later]) ?_
      rintro rfl
      have gap := above d later
      omega
    · dsimp only
      rw [size_setSize, Nat.mod_eq_of_lt (by omega)]
      exact back.symm
    · refine sizes (List.mem_append_right _ other) ?_
      rintro rfl
      have apart := laid.apart d (by simp [split]) d other
      simp only [Block.Apart, unit] at apart bounds
      omega

theorem Laid.allocate (laid : Laid base h blocks used) {prevp p : Nat}
    (previous : prevp ∈ (baseBlock base :: blocks).map Block.start) (next : ptr h.mem prevp = p)
    (listed : p ∈ (baseBlock base :: blocks).map Block.start) (positive : 0 < nunits)
    (enough : nunits ≤ size h.mem p) :
    ∃ blocks' u, Laid base { h with mem := (allocate nunits h.mem prevp p).1, freep := prevp } blocks' (u :: used) ∧
      u.start = (allocate nunits h.mem prevp p).2 ∧ u.stop = u.start + unit * nunits := by
  obtain ⟨c, member, rfl⟩ := List.mem_map.mp listed
  have size := laid.sized c (List.mem_append_left _ member)
  have inside : c ∈ blocks := by
    refine (List.mem_cons.mp member).resolve_left ?_
    rintro rfl
    simp only [baseBlock, unit] at size enough
    omega
  have bounds := laid.bounds c (List.mem_append_left _ inside)
  have below := laid.brk_lt
  obtain ⟨low, high, before, prev, split, last, rfl⟩ := laid.split_at previous next inside
  by_cases all : Umalloc.size h.mem c.start = nunits
  · rw [Umalloc.allocate, if_pos all]
    exact ⟨_, c, laid.take split last, rfl, by rw [← all, size]⟩
  · have larger : nunits < Umalloc.size h.mem c.start := by omega
    have bound := size_lt h.mem c.start
    have taken : Umalloc.size (setSize h.mem c.start (Umalloc.size h.mem c.start - nunits)) c.start =
        Umalloc.size h.mem c.start - nunits := by
      rw [size_setSize, Nat.mod_eq_of_lt (by omega)]
    have place : plus c.start (Umalloc.size h.mem c.start - nunits) =
        c.start + unit * (Umalloc.size h.mem c.start - nunits) := by
      rw [plus, Nat.mod_eq_of_lt]
      simp only [unit, kernbase, word] at *
      omega
    rw [Umalloc.allocate, if_neg all]
    dsimp only
    rw [taken, place]
    refine ⟨_, _, laid.cut split last positive larger rfl, rfl, ?_⟩
    simp only [unit] at size ⊢
    omega

end Allocate

section Malloc

variable {base nunits : Nat} {h : Heap} {blocks used : List Block}

theorem Laid.entry (laid : Laid base h blocks used) :
    ∃ nodes, Seg (ptr h.mem) (ptr h.mem h.freep) (nodes ++ [h.freep]) (ptr h.mem h.freep) ∧ h.freep ∉ nodes ∧
      (nodes ++ [h.freep]).Perm ((baseBlock base :: blocks).map Block.start) := by
  have linked := laid.linked
  obtain ⟨first, rest, split⟩ := List.append_of_mem laid.freep
  have nodup : ((baseBlock base :: blocks).map Block.start).Nodup := by
    refine List.pairwise_map.mpr (laid.separated.imp_of_mem fun {c d} member _ gap => ?_)
    have order := laid.order member
    omega
  rw [split] at linked nodup
  obtain ⟨-, round⟩ := linked.rotate
  have perm : (rest ++ first ++ [h.freep]).Perm (first ++ h.freep :: rest) :=
    (List.perm_append_singleton _ _).trans
      ((List.Perm.cons _ List.perm_append_comm).trans List.perm_middle.symm)
  refine ⟨rest ++ first, seg_append.mpr ⟨h.freep, round, rfl, rfl⟩, ?_, split ▸ perm⟩
  have nodup' := perm.nodup_iff.mpr nodup
  rw [List.nodup_append] at nodup'
  intro member
  exact nodup'.2.2 _ member _ List.mem_cons_self rfl

def lastResort (nunits fuel : Nat) (answers : Answers) (h : Heap) : Option (Heap × Nat) := do
  let (h, p, answers) ← morecore nunits answers h
  if p = 0 then some (h, 0) else mallocLoop nunits fuel answers h p (ptr h.mem p)

theorem round_cases {ring nodes : List Nat} {prevp p q : Nat} (nunits fuel : Nat) (answers : Answers)
    (seg : Seg (ptr h.mem) p (nodes ++ [h.freep]) q) (outside : h.freep ∉ nodes)
    (inside : ∀ node ∈ nodes ++ [h.freep], node ∈ ring) (previous : prevp ∈ ring) (next : ptr h.mem prevp = p) :
    (∃ prev block, prev ∈ ring ∧ block ∈ ring ∧ ptr h.mem prev = block ∧ nunits ≤ size h.mem block ∧
      mallocLoop nunits (fuel + nodes.length + 1) answers h prevp p =
        some ({ h with mem := (allocate nunits h.mem prev block).1, freep := prev },
          plus (allocate nunits h.mem prev block).2 1)) ∨
    ((∀ node ∈ nodes ++ [h.freep], size h.mem node < nunits) ∧
      mallocLoop nunits (fuel + nodes.length + 1) answers h prevp p = lastResort nunits fuel answers h) := by
  induction nodes generalizing prevp p with
  | nil =>
      obtain ⟨rfl, -⟩ := seg
      by_cases enough : nunits ≤ size h.mem h.freep
      · exact Or.inl ⟨prevp, h.freep, previous, inside _ List.mem_cons_self, next, enough, by
          rw [mallocLoop, if_pos enough]⟩
      · refine Or.inr ⟨by simpa using enough, ?_⟩
        rw [mallocLoop, if_neg enough, if_pos rfl]
        rfl
  | cons node rest ih =>
      obtain ⟨rfl, tail⟩ := seg
      have listed := inside p List.mem_cons_self
      by_cases enough : nunits ≤ size h.mem p
      · exact Or.inl ⟨prevp, p, previous, listed, next, enough, by rw [mallocLoop, if_pos enough]⟩
      · have differs : p ≠ h.freep := fun same => outside (same ▸ List.mem_cons_self)
        have unfolded : mallocLoop nunits (fuel + (p :: rest).length + 1) answers h prevp p =
            mallocLoop nunits (fuel + rest.length + 1) answers h p (ptr h.mem p) := by
          rw [mallocLoop, if_neg enough, if_neg differs]
          rfl
        rw [unfolded]
        refine (ih tail (fun member => outside (List.mem_cons_of_mem _ member))
          (fun other member => inside other (List.mem_cons_of_mem _ member)) listed rfl).imp_right ?_
        rintro ⟨small, same⟩
        refine ⟨fun other member => ?_, same⟩
        rcases List.mem_cons.mp member with rfl | later
        · omega
        · exact small other later

theorem Laid.obtain (laid : Laid base h blocks used) {start nu : Nat} (above : h.brk ≤ start) (positive : 0 < nu)
    (fits : start + nu * unit < kernbase) :
    Laid base
      { h with
        mem := setSize h.mem start nu
        brk := start + nu * unit
        obtained := ⟨start, start + nu * unit⟩ :: h.obtained }
      blocks (⟨start, start + nu * unit⟩ :: used) := by
  have image := laid.image
  have larger : start + unit ≤ start + nu * unit := by
    simp only [unit]
    omega
  have below {d : Block} (member : d ∈ blocks ++ used) : d.start + unit ≤ start ∧ d.stop ≤ start := by
    have bounds := laid.bounds d member
    omega
  have same {d : Block} (member : d ∈ baseBlock base :: blocks ++ used) :
      Same h.mem (setSize h.mem start nu) d.start := by
    refine same_setSize (Or.inr ?_) nu
    rcases List.mem_cons.mp member with rfl | other
    · exact le_trans image above
    · exact (below other).1
  refine ⟨laid.linked.congr fun node member => ?_, ?_, laid.separated, ?_, ?_, ?_, laid.base_pos, ?_, fits, laid.freep,
    fun address => ?_⟩
  · obtain ⟨d, found, rfl⟩ := List.mem_map.mp member
    exact (same (List.mem_append_left _ found)).ptr
  · intro d member
    rcases List.mem_append.mp member with inList | other
    · rw [(same (List.mem_append_left _ inList)).size]
      exact laid.sized d (List.mem_append_left _ inList)
    · rcases List.mem_cons.mp other with rfl | later
      · have small : nu < word := by
          simp only [unit, kernbase, word] at fits ⊢
          omega
        dsimp only
        rw [size_setSize, Nat.mod_eq_of_lt small, Nat.mul_comm]
      · rw [(same (List.mem_append_right _ later)).size]
        exact laid.sized d (List.mem_append_right _ later)
  · exact List.pairwise_cons.mpr ⟨fun d member => Or.inr (below (List.mem_append_right _ member)).2, laid.usedApart⟩
  · intro d member e other
    rcases List.mem_cons.mp other with rfl | later
    · exact Or.inl (below (List.mem_append_left _ member)).2
    · exact laid.apart d member e later
  · intro d member
    have old {e : Block} (found : e ∈ blocks ++ used) :
        base + unit ≤ e.start ∧ e.start + unit ≤ e.stop ∧ e.stop ≤ start + nu * unit := by
      have bounds := laid.bounds e found
      omega
    rcases List.mem_append.mp member with inList | other
    · exact old (List.mem_append_left _ inList)
    · rcases List.mem_cons.mp other with rfl | later
      · exact ⟨by dsimp only; omega, larger, le_rfl⟩
      · exact old (List.mem_append_right _ later)
  · dsimp only
    omega
  · have covered := laid.covered address
    simp only [covers_append, covers_cons] at covered ⊢
    rw [covered]
    tauto

theorem Laid.morecore (laid : Laid base h blocks used) (small : nunits < 2 ^ 28) (answers : Answers) :
    ∃ h' p answers', morecore nunits answers h = some (h', p, answers') ∧
      ((p = 0 ∧ h' = h) ∨
        p = h'.freep ∧ p ≠ 0 ∧ ∃ blocks', Laid base h' blocks' used ∧ ∃ c ∈ blocks', nunits ≤ size h'.mem c.start) := by
  obtain ⟨nu, nu_eq⟩ : ∃ nu, nu = if nunits < 4096 then 4096 else nunits := ⟨_, rfl⟩
  have bounds : 0 < nu ∧ nunits ≤ nu ∧ nu * unit < word := by
    simp only [unit, word]
    split at nu_eq <;> omega
  rw [Umalloc.morecore, ← nu_eq, Nat.mod_eq_of_lt bounds.2.2]
  cases answers with
  | nil => exact ⟨h, 0, [], rfl, Or.inl ⟨rfl, rfl⟩⟩
  | cons answer answers =>
      cases answer with
      | none => exact ⟨h, 0, answers, rfl, Or.inl ⟨rfl, rfl⟩⟩
      | some gap =>
          by_cases fits : h.brk + gap + nu * unit < kernbase
          · have pointer : plus (h.brk + gap) 1 = h.brk + gap + unit := by
              rw [plus, Nat.mul_one, Nat.mod_eq_of_lt]
              simp only [unit, kernbase, word] at fits ⊢
              omega
            obtain ⟨h', blocks', freed, laid', -, -, c, member, low, high⟩ :=
              (laid.obtain (Nat.le_add_right h.brk gap) bounds.1 fits).free
            refine ⟨h', h'.freep, answers, ?_, Or.inr ⟨rfl, ?_, blocks', laid', c, member, ?_⟩⟩
            · rw [sbrk, if_pos fits]
              dsimp only
              rw [pointer, freed]
              rfl
            · obtain ⟨d, found, same⟩ := List.mem_map.mp laid'.freep
              have order := laid'.order found
              have positive := laid'.base_pos
              omega
            · have size := laid'.sized c (List.mem_append_left _ (List.mem_cons_of_mem _ member))
              simp only [unit] at *
              omega
          · refine ⟨h, 0, answers, ?_, Or.inl ⟨rfl, rfl⟩⟩
            rw [sbrk, if_neg fits]

theorem Laid.mallocLoop (laid : Laid base h blocks used) (positive : 0 < nunits) {fuel : Nat}
    (enough : blocks.length < fuel) (answers : Answers) :
    (∃ h' blocks' u, Umalloc.mallocLoop nunits fuel answers h h.freep (ptr h.mem h.freep) = some (h', u.start + unit) ∧
      Laid base h' blocks' (u :: used) ∧ u.stop = u.start + unit * nunits) ∨
    ((∀ c ∈ blocks, size h.mem c.start < nunits) ∧
      Umalloc.mallocLoop nunits fuel answers h h.freep (ptr h.mem h.freep) =
        lastResort nunits (fuel - blocks.length - 1) answers h) := by
  obtain ⟨nodes, seg, outside, perm⟩ := laid.entry
  have length : nodes.length = blocks.length := by
    have same := perm.length_eq
    simpa using same
  have fuel_eq : fuel = fuel - blocks.length - 1 + nodes.length + 1 := by omega
  rcases round_cases nunits (fuel - blocks.length - 1) answers seg outside
    (fun node member => perm.mem_iff.mp member) laid.freep rfl with
    ⟨prev, block, previous, listed, next, large, result⟩ | ⟨little, result⟩
  · obtain ⟨blocks', u, laid', start, stop⟩ := laid.allocate previous next listed positive large
    have inside := laid'.inside (List.mem_append_right _ List.mem_cons_self)
    have bounds := laid'.bounds u (List.mem_append_right _ List.mem_cons_self)
    refine Or.inl ⟨_, blocks', u, ?_, laid', stop⟩
    rw [fuel_eq, result, ← start, plus, Nat.mul_one, Nat.mod_eq_of_lt (by omega)]
  · refine Or.inr ⟨fun c member => ?_, by rw [fuel_eq, result, ← fuel_eq]⟩
    exact little _ (perm.mem_iff.mpr (List.mem_map_of_mem (List.mem_cons_of_mem _ member)))

theorem Laid.malloc (laid : Laid base h blocks used) (positive : 0 < nunits) (small : nunits < 2 ^ 28)
    (answers : Answers) :
    ∃ h' ap blocks', Umalloc.mallocLoop nunits limit answers h h.freep (ptr h.mem h.freep) = some (h', ap) ∧
      ((ap = 0 ∧ Laid base h' blocks' used) ∨
        ∃ u, Laid base h' blocks' (u :: used) ∧ u.start + unit = ap ∧ u.stop = u.start + unit * nunits) := by
  have room := laid.length_lt
  rcases laid.mallocLoop positive (show blocks.length < limit by omega) answers with
    ⟨h', blocks', u, result, laid', stop⟩ | ⟨-, result⟩
  · exact ⟨h', _, blocks', result, Or.inr ⟨u, laid', rfl, stop⟩⟩
  · obtain ⟨h', p, answers', more, ⟨rfl, rfl⟩ | ⟨rfl, valid, blocks', laid', c, member, large⟩⟩ :=
      laid.morecore small answers
    · refine ⟨h', 0, blocks, ?_, Or.inl ⟨rfl, laid⟩⟩
      rw [result, lastResort, more]
      rfl
    · have room' := laid'.length_lt
      rcases laid'.mallocLoop positive (show blocks'.length < limit - blocks.length - 1 by omega) answers' with
        ⟨h'', blocks'', u, result', laid'', stop⟩ | ⟨little, -⟩
      · refine ⟨h'', _, blocks'', ?_, Or.inr ⟨u, laid'', rfl, stop⟩⟩
        rw [result, lastResort, more]
        exact (if_neg valid).trans result'
      · exact absurd large (by have := little c member; omega)

end Malloc

end OsLabs.Umalloc
