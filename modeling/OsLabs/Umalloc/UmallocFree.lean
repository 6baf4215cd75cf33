import OsLabs.Umalloc.UmallocCore

/-!
What `free` does to the list: the block is put between its neighbours in the order of addresses and merged with
those it touches.
-/

namespace OsLabs.Umalloc

open Blocks ByteField Segments

variable {m m' : Bytes} {p q : Nat}

def Clear (p q : Nat) : Prop := p + unit ≤ q ∨ q + unit ≤ p

theorem Clear.symm (clear : Clear p q) : Clear q p := Or.symm clear

structure Same (m m' : Bytes) (q : Nat) : Prop where
  ptr : ptr m' q = ptr m q
  size : size m' q = size m q

theorem Same.trans {m'' : Bytes} (first : Same m m' q) (second : Same m' m'' q) : Same m m'' q :=
  ⟨second.ptr.trans first.ptr, second.size.trans first.size⟩

theorem same_of_bytes (bytes : ∀ address, q ≤ address → address < q + unit → m' address = m address) :
    Same m m' q := by
  simp only [unit] at bytes
  exact ⟨load_congr fun address low high => bytes address low (by omega),
    load_congr fun address low high => bytes address (by omega) (by omega)⟩

theorem same_setPtr (clear : Clear p q) (value : Nat) : Same m (setPtr m p value) q := by
  simp only [Clear, unit] at clear
  exact same_of_bytes fun address low high => store_outside 4 m p value (by simp only [unit] at high; omega)

theorem same_setSize (clear : Clear p q) (value : Nat) : Same m (setSize m p value) q := by
  simp only [Clear, unit] at clear
  exact same_of_bytes fun address low high => store_outside 4 m (p + 4) value (by simp only [unit] at high; omega)

@[simp] theorem ptr_setPtr (m : Bytes) (p value : Nat) : ptr (setPtr m p value) p = value % word :=
  load_store 4 m p value

@[simp] theorem size_setSize (m : Bytes) (p value : Nat) : size (setSize m p value) p = value % word :=
  load_store 4 m (p + 4) value

@[simp] theorem size_setPtr (m : Bytes) (p value : Nat) : size (setPtr m p value) p = size m p :=
  load_store_apart 4 4 m value (Or.inr (Nat.le_refl _))

@[simp] theorem ptr_setSize (m : Bytes) (p value : Nat) : ptr (setSize m p value) p = ptr m p :=
  load_store_apart 4 4 m value (Or.inl (Nat.le_refl _))

theorem ptr_lt (m : Bytes) (p : Nat) : ptr m p < word := load_lt 4 m p

theorem size_lt (m : Bytes) (p : Nat) : size m p < word := load_lt 4 m (p + 4)

def blockAt (m : Bytes) (p : Nat) : Block := ⟨p, p + unit * size m p⟩

def Sized (m : Bytes) (blocks : List Block) : Prop := ∀ b ∈ blocks, b.stop = b.start + unit * size m b.start

theorem Sized.congr {blocks : List Block} (sized : Sized m blocks)
    (same : ∀ b ∈ blocks, Same m m' b.start) : Sized m' blocks := by
  intro b member
  rw [sized b member, (same b member).size]

theorem sized_append {first second : List Block} :
    Sized m (first ++ second) ↔ Sized m first ∧ Sized m second := by
  simp only [Sized, List.mem_append, or_imp, forall_and]

theorem plus_eq {b : Block} (sized : b.stop = b.start + unit * size m b.start) (inside : b.stop < word) :
    plus b.start (size m b.start) = b.stop := by
  rw [plus, ← sized, Nat.mod_eq_of_lt inside]

def attach (m : Bytes) (x n : Nat) : Bytes :=
  if plus x (size m x) = n then setPtr (setSize m x (size m x + size m n)) x (ptr m n) else setPtr m x n

theorem free_eq {bp : Nat} {h : Heap} (inside : bp < word) (clear : Clear bp p) (clear' : Clear bp (ptr h.mem p))
    (found : search (ptr h.mem) (stops h.mem bp) limit h.freep = some p) :
    free (bp + unit) h = some { h with mem := attach (attach h.mem bp (ptr h.mem p)) p bp, freep := p } := by
  have pointer : (bp + unit + word - unit) % word = bp := by
    simp only [unit, word] at inside ⊢
    omega
  have next (value : Nat) := (same_setSize (m := h.mem) clear value).ptr
  have next' (value : Nat) := (same_setSize (m := h.mem) clear' value).ptr
  have back (m : Bytes) (value : Nat) := (same_setSize (m := m) (Or.symm clear) value).ptr
  rw [free]
  simp only [pointer, found, Option.bind_eq_bind, Option.bind_some, next, next', back, attach]
  rfl

theorem same_attach {x n : Nat} (clear : Clear x q) : Same m (attach m x n) q := by
  rw [attach]
  split
  · exact (same_setSize clear _).trans (same_setPtr clear _)
  · exact same_setPtr clear _

theorem attach_spec {b : Block} {blocks : List Block} {n target : Nat}
    (sized : Sized m (b :: blocks)) (seg : Seg (ptr m) n (blocks.map Block.start) target)
    (headers : ∀ c ∈ blocks, b.start + unit ≤ c.start) (inside : ∀ c ∈ b :: blocks, c.stop < word)
    (ends : blocks = [] → b.stop ≠ target) (target_lt : target < word) (within : ∀ c ∈ blocks, c.start ≤ c.stop) :
    Seg (ptr (attach m b.start n)) b.start ((absorb b blocks).map Block.start) target ∧
      Sized (attach m b.start n) (absorb b blocks) := by
  have stop := plus_eq (sized b List.mem_cons_self) (inside b List.mem_cons_self)
  have same (c : Block) (member : c ∈ blocks) : Same m (attach m b.start n) c.start :=
    same_attach (Or.inl (headers c member))
  cases blocks with
  | nil =>
      obtain rfl : n = target := seg
      have attached : attach m b.start n = setPtr m b.start n := by rw [attach, stop, if_neg (ends rfl)]
      rw [attached, absorb]
      refine ⟨⟨rfl, ?_⟩, ?_⟩
      · rw [List.map_nil, seg_nil, ptr_setPtr, Nat.mod_eq_of_lt target_lt]
      · intro c member
        obtain rfl := List.mem_singleton.mp member
        rw [size_setPtr]
        exact sized c List.mem_cons_self
  | cons c rest =>
      obtain ⟨rfl, tail⟩ := seg
      have order := within c List.mem_cons_self
      have low := inside c (List.mem_cons_of_mem _ List.mem_cons_self)
      have later (d : Block) (member : d ∈ rest) := List.mem_cons_of_mem c member
      have kept : Seg (ptr (attach m b.start c.start)) (ptr m c.start) (rest.map Block.start) target := by
        refine tail.congr fun node member => ?_
        obtain ⟨d, found, rfl⟩ := List.mem_map.mp member
        exact (same d (later d found)).ptr
      have sized' : Sized (attach m b.start c.start) (c :: rest) :=
        Sized.congr (fun d member => sized d (List.mem_cons_of_mem _ member)) same
      by_cases touches : b.stop = c.start
      · have attached : attach m b.start c.start =
            setPtr (setSize m b.start (size m b.start + size m c.start)) b.start (ptr m c.start) := by
          rw [attach, stop, if_pos touches]
        have length := sized b List.mem_cons_self
        have length' := sized c (List.mem_cons_of_mem _ List.mem_cons_self)
        rw [absorb_touching touches]
        refine ⟨⟨rfl, ?_⟩, ?_⟩
        · nth_rewrite 2 [attached]
          rw [ptr_setPtr, Nat.mod_eq_of_lt (ptr_lt m _)]
          exact kept
        · intro d member
          rcases List.mem_cons.mp member with rfl | found
          · rw [attached, size_setPtr, size_setSize, Nat.mod_eq_of_lt]
            · simp only [unit] at length length' ⊢
              omega
            · simp only [unit, word] at length length' low ⊢
              omega
          · exact sized' d (later d found)
      · have attached : attach m b.start c.start = setPtr m b.start c.start := by
          rw [attach, stop, if_neg touches]
        rw [absorb_clear touches]
        refine ⟨⟨rfl, ?_⟩, ?_⟩
        · nth_rewrite 2 [attached]
          rw [ptr_setPtr, Nat.mod_eq_of_lt (by omega), List.map_cons]
          exact ⟨rfl, by rw [(same c List.mem_cons_self).ptr]; exact kept⟩
        · intro d member
          rcases List.mem_cons.mp member with rfl | found
          · rw [attached, size_setPtr]
            exact sized d List.mem_cons_self
          · exact sized' d found

def baseBlock (base : Nat) : Block := ⟨base, base⟩

structure Laid (base : Nat) (h : Heap) (blocks used : List Block) : Prop where
  linked : Seg (ptr h.mem) base ((baseBlock base :: blocks).map Block.start) base
  sized : Sized h.mem (baseBlock base :: blocks ++ used)
  separated : Separated (baseBlock base :: blocks)
  usedApart : used.Pairwise Block.Apart
  apart : ∀ b ∈ blocks, ∀ c ∈ used, b.Apart c
  bounds : ∀ b ∈ blocks ++ used, base + unit ≤ b.start ∧ b.start + unit ≤ b.stop ∧ b.stop ≤ h.brk
  base_pos : 0 < base
  image : base + unit ≤ h.brk
  brk_lt : h.brk < kernbase
  freep : h.freep ∈ (baseBlock base :: blocks).map Block.start
  covered : ∀ address, Covers h.obtained address ↔ Covers (blocks ++ used) address

section Place

variable {base : Nat} {h : Heap} {low high : List Block} {place b : Block}

theorem ptr_cases {before after : List Block} {c : Block}
    (linked : Seg (ptr m) base ((before ++ c :: after).map Block.start) base) :
    (after = [] ∧ ptr m c.start = base) ∨ ∃ d rest, after = d :: rest ∧ ptr m c.start = d.start := by
  rw [List.map_append, List.map_cons] at linked
  have tail := linked.after
  cases after with
  | nil => exact Or.inl ⟨rfl, tail⟩
  | cons d rest => exact Or.inr ⟨d, rest, rfl, tail.start_eq⟩

theorem stops_iff (linked : Seg (ptr m) base ((low ++ place :: high).map Block.start) base)
    (separated : Separated (low ++ place :: high)) (order : ∀ c ∈ low ++ place :: high, c.start ≤ c.stop)
    (least : base ≤ place.start) (before : place.stop ≤ b.start) (strict : place.start < b.start)
    (behind : ∀ c ∈ high, b.start < c.start) {c : Block} (member : c ∈ low ++ place :: high) :
    stops m b.start c.start = true ↔ c = place := by
  obtain ⟨below, -⟩ := separated.gaps
  simp only [stops, decide_eq_true_eq]
  rcases List.mem_append.mp member with earlier | here
  · obtain ⟨first, rest, rfl⟩ := List.append_of_mem earlier
    have gap := below c earlier
    have order' := order c member
    have differs : c ≠ place := by
      rintro rfl
      omega
    simp only [List.append_assoc, List.cons_append] at linked separated order
    obtain ⟨-, above⟩ := separated.gaps
    rcases ptr_cases linked with ⟨none, -⟩ | ⟨d, after, split, pointer⟩
    · simp at none
    · have next : d ∈ rest ++ place :: high := split ▸ List.mem_cons_self
      have gap' := above d next
      have ordered := order d (List.mem_append_right _ (List.mem_cons_of_mem _ next))
      have bound : d.start ≤ place.start := by
        cases rest with
        | nil =>
            obtain ⟨rfl, -⟩ := List.cons.inj split
            exact le_rfl
        | cons e rest =>
            obtain ⟨rfl, -⟩ := List.cons.inj split
            have earlier' := below e (List.mem_append_right _ (List.mem_cons_of_mem _ List.mem_cons_self))
            omega
      rw [pointer]
      simp only [differs, iff_false]
      omega
  · rcases List.mem_cons.mp here with rfl | later
    · rcases ptr_cases linked with ⟨-, pointer⟩ | ⟨d, after, rfl, pointer⟩
      · rw [pointer]
        simp only [iff_true]
        omega
      · have next := behind d List.mem_cons_self
        rw [pointer]
        simp only [iff_true]
        omega
    · obtain ⟨first, rest, rfl⟩ := List.append_of_mem later
      have above := behind c later
      have order' := order c member
      have differs : c ≠ place := by
        rintro rfl
        omega
      have regroup : low ++ place :: (first ++ c :: rest) = (low ++ place :: first) ++ c :: rest := by simp
      rw [regroup] at linked separated
      obtain ⟨-, gaps⟩ := separated.gaps
      rcases ptr_cases linked with ⟨-, pointer⟩ | ⟨d, after, rfl, pointer⟩
      · rw [pointer]
        simp only [differs, iff_false]
        omega
      · have gap := gaps d List.mem_cons_self
        rw [pointer]
        simp only [differs, iff_false]
        omega

end Place

section Free

variable {base : Nat} {h : Heap} {blocks used : List Block} {b : Block}

theorem Laid.order (laid : Laid base h blocks used) {c : Block} (member : c ∈ baseBlock base :: blocks) :
    base ≤ c.start ∧ c.start ≤ c.stop := by
  rcases List.mem_cons.mp member with rfl | later
  · exact ⟨le_rfl, le_rfl⟩
  · have bounds := laid.bounds c (List.mem_append_left _ later)
    omega

theorem Laid.length_lt (laid : Laid base h blocks used) : 2 * blocks.length + 2 < limit := by
  have below := laid.brk_lt
  have room := Separated.length_le (List.pairwise_cons.mp laid.separated).2 unit laid.image
    fun c member => laid.bounds c (List.mem_append_left _ member)
  simp only [kernbase, limit, unit] at *
  omega

theorem Laid.headers (laid : Laid base h blocks used) {c d : Block} (first : c ∈ baseBlock base :: blocks)
    (second : d ∈ baseBlock base :: blocks) (gap : c.stop < d.start) : c.start + unit ≤ d.start := by
  have order := laid.order first
  rcases List.mem_cons.mp second with rfl | later
  · simp only [baseBlock] at gap
    omega
  · have bounds := laid.bounds d (List.mem_append_left _ later)
    rcases List.mem_cons.mp first with rfl | other
    · exact bounds.1
    · have bounds' := laid.bounds c (List.mem_append_left _ other)
      omega

theorem Laid.clear (laid : Laid base h blocks used) {c d : Block} (first : c ∈ baseBlock base :: blocks)
    (second : d ∈ used) : Clear c.start d.start := by
  have bounds := laid.bounds d (List.mem_append_right _ second)
  rcases List.mem_cons.mp first with rfl | other
  · exact Or.inl bounds.1
  · have apart := laid.apart c other d second
    have bounds' := laid.bounds c (List.mem_append_left _ other)
    simp only [Block.Apart, Clear] at apart ⊢
    omega

theorem Laid.inside (laid : Laid base h blocks used) {c : Block} (member : c ∈ baseBlock base :: blocks ++ used) :
    c.stop < word := by
  have below := laid.brk_lt
  have image := laid.image
  simp only [kernbase, word, List.cons_append, List.mem_cons] at *
  rcases member with rfl | later
  · simp only [baseBlock]
    omega
  · have bounds := laid.bounds c later
    omega

structure Placed (base : Nat) (h : Heap) (blocks used : List Block) (b : Block) (low : List Block)
    (place : Block) (high : List Block) : Prop where
  laid : Laid base h blocks (b :: used)
  split : baseBlock base :: blocks = low ++ place :: high
  before : place.start + unit ≤ b.start
  touches : place.stop ≤ b.start
  behind : ∀ c ∈ high, b.stop ≤ c.start

theorem Laid.placed (laid : Laid base h blocks (b :: used)) :
    ∃ low place high, Placed base h blocks used b low place high := by
  have bounds := laid.bounds b (List.mem_append_right _ List.mem_cons_self)
  obtain ⟨low, place, high, split, touches, behind⟩ := laid.separated.split (b := b)
    (fun c member => laid.apart c member b List.mem_cons_self) (le_trans (Nat.le_add_right _ _) bounds.1)
    (fun c member => (laid.order (List.mem_cons_of_mem _ member)).2)
  have member : place ∈ baseBlock base :: blocks := split ▸ List.mem_append_right _ List.mem_cons_self
  have order := laid.order member
  have clear := laid.clear member List.mem_cons_self
  refine ⟨low, place, high, laid, split, ?_, touches, behind⟩
  simp only [Clear, unit] at clear ⊢
  omega

def released (m : Bytes) (place bp : Nat) : Bytes := attach (attach m bp (ptr m place)) place bp

theorem same_released {place bp : Nat} (clear : Clear bp q) (clear' : Clear place q) :
    Same m (released m place bp) q :=
  (same_attach clear).trans (same_attach clear')

namespace Placed

variable {low high : List Block} {place : Block} (placed : Placed base h blocks used b low place high)

include placed

theorem bounds : base + unit ≤ b.start ∧ b.start + unit ≤ b.stop ∧ b.stop ≤ h.brk :=
  placed.laid.bounds b (List.mem_append_right _ List.mem_cons_self)

theorem listed {c : Block} (member : c ∈ low ++ place :: high) : c ∈ baseBlock base :: blocks :=
  placed.split ▸ member

theorem listed_place : place ∈ baseBlock base :: blocks :=
  placed.listed (List.mem_append_right _ List.mem_cons_self)

theorem listed_high {c : Block} (member : c ∈ high) : c ∈ baseBlock base :: blocks :=
  placed.listed (List.mem_append_right _ (List.mem_cons_of_mem _ member))

theorem separated : Separated (low ++ place :: high) := placed.split ▸ placed.laid.separated

theorem inside {c : Block} (member : c ∈ baseBlock base :: blocks ∨ c = b) : c.stop < word := by
  refine placed.laid.inside ?_
  rcases member with listed | rfl
  · exact List.mem_append_left _ listed
  · exact List.mem_append_right _ List.mem_cons_self

theorem base_lt : base < word := by
  have bounds := placed.bounds
  have inside := placed.inside (Or.inr rfl)
  omega

theorem search_eq : search (ptr h.mem) (stops h.mem b.start) limit h.freep = some place.start := by
  have linked := placed.laid.linked
  have entry := placed.laid.freep
  have room := placed.laid.length_lt
  have length : (baseBlock base :: blocks).length = blocks.length + 1 := rfl
  rw [placed.split] at linked entry length
  have stops_at {c : Block} (member : c ∈ low ++ place :: high) :
      stops h.mem b.start c.start = true ↔ c = place := by
    have bounds := placed.bounds
    have before := placed.before
    refine stops_iff linked placed.separated (fun d found => (placed.laid.order (placed.listed found)).2)
      (placed.laid.order placed.listed_place).1 placed.touches ?_ (fun d found => ?_) member
    · simp only [unit] at before
      omega
    · have behind := placed.behind d found
      simp only [unit] at bounds
      omega
  obtain ⟨first, rest, regroup⟩ := List.append_of_mem entry
  rw [regroup] at linked
  have same : (h.freep :: (rest ++ first)).Perm ((low ++ place :: high).map Block.start) := by
    rw [regroup]
    exact (List.perm_middle.trans (List.Perm.cons _ List.perm_append_comm)).symm
  refine linked.rotate.search_eq ?_ ?_ ?_ limit ?_
  · exact same.mem_iff.mpr (List.mem_map_of_mem (List.mem_append_right _ List.mem_cons_self))
  · exact (stops_at (List.mem_append_right _ List.mem_cons_self)).mpr rfl
  · intro node member holds
    obtain ⟨c, found, rfl⟩ := List.mem_map.mp (same.mem_iff.mp member)
    rw [(stops_at found).mp holds]
  · rw [same.length_eq, List.length_map, length]
    omega

theorem free_eq : free (b.start + unit) h =
    some { h with mem := released h.mem place.start b.start, freep := place.start } := by
  have bounds := placed.bounds
  have inside := placed.inside (Or.inr rfl)
  have linked := placed.laid.linked
  rw [placed.split] at linked
  refine Umalloc.free_eq (by omega) (Or.inr placed.before) ?_ placed.search_eq
  rcases ptr_cases linked with ⟨-, pointer⟩ | ⟨d, rest, rfl, pointer⟩
  · rw [pointer]
    exact Or.inr bounds.1
  · rw [pointer]
    have behind := placed.behind d List.mem_cons_self
    left
    omega

theorem attached_high :
    Seg (ptr (attach h.mem b.start (ptr h.mem place.start))) b.start ((absorb b high).map Block.start) base ∧
      Sized (attach h.mem b.start (ptr h.mem place.start)) (absorb b high) := by
  have bounds := placed.bounds
  have linked := placed.laid.linked
  rw [placed.split, List.map_append, List.map_cons] at linked
  refine attach_spec (fun c member => placed.laid.sized c ?_) linked.after (fun c member => ?_) (fun c member => ?_)
    (fun _ => ?_) placed.base_lt (fun c member => (placed.laid.order (placed.listed_high member)).2)
  · rcases List.mem_cons.mp member with rfl | later
    · exact List.mem_append_right _ List.mem_cons_self
    · exact List.mem_append_left _ (placed.listed_high later)
  · have behind := placed.behind c member
    omega
  · rcases List.mem_cons.mp member with rfl | later
    · exact placed.inside (Or.inr rfl)
    · exact placed.inside (Or.inl (placed.listed_high later))
  · simp only [unit] at bounds
    omega

theorem mem_absorb_high {c : Block} (member : c ∈ absorb b high) :
    b.start ≤ c.start ∧ c.start + unit ≤ c.stop ∧ c.stop ≤ h.brk := by
  have bounds := placed.bounds
  have of_high {d : Block} (found : d ∈ high) : b.start ≤ d.start ∧ d.start + unit ≤ d.stop ∧ d.stop ≤ h.brk := by
    have behind := placed.behind d found
    rcases List.mem_cons.mp (placed.listed_high found) with rfl | later
    · simp only [baseBlock, unit] at behind bounds
      omega
    · have bounds' := placed.laid.bounds d (List.mem_append_left _ later)
      omega
  rcases mem_absorb member with kept | ⟨d, found, touches, rfl⟩
  · rcases List.mem_cons.mp kept with rfl | later
    · exact ⟨le_rfl, bounds.2⟩
    · exact of_high later
  · have bounds' := of_high found
    dsimp only
    omega

theorem attached :
    Seg (ptr (released h.mem place.start b.start)) place.start
        ((absorb place (absorb b high)).map Block.start) base ∧
      Sized (released h.mem place.start b.start) (absorb place (absorb b high)) := by
  have before := placed.before
  have below := placed.laid.brk_lt
  obtain ⟨linked, sized⟩ := placed.attached_high
  refine attach_spec (fun c member => ?_) linked (fun c member => ?_) (fun c member => ?_) (fun empty => ?_)
    placed.base_lt (fun c member => ?_)
  · rcases List.mem_cons.mp member with rfl | later
    · rw [(same_attach (Or.inr before)).size]
      exact placed.laid.sized c (List.mem_append_left _ placed.listed_place)
    · exact sized c later
  · have bounds := placed.mem_absorb_high member
    omega
  · rcases List.mem_cons.mp member with rfl | later
    · exact placed.inside (Or.inl placed.listed_place)
    · have bounds := placed.mem_absorb_high later
      simp only [kernbase, word] at below ⊢
      omega
  · obtain ⟨first, rest, some, -⟩ := absorb_first b high fun c member => (placed.laid.order (placed.listed_high member)).2
    rw [some] at empty
    exact absurd empty (List.cons_ne_nil _ _)
  · have bounds := placed.mem_absorb_high member
    omega

theorem same_low {c : Block} (member : c ∈ low) : Same h.mem (released h.mem place.start b.start) c.start := by
  have listed := placed.listed (List.mem_append_left _ member)
  have gap := placed.separated.gaps.1 c member
  have header := placed.laid.headers listed placed.listed_place gap
  exact same_released (Clear.symm (placed.laid.clear listed List.mem_cons_self)) (Or.inr header)

theorem same_used {c : Block} (member : c ∈ used) : Same h.mem (released h.mem place.start b.start) c.start := by
  refine same_released ?_ (placed.laid.clear placed.listed_place (List.mem_cons_of_mem _ member))
  have apart := (List.pairwise_cons.mp placed.laid.usedApart).1 c member
  have bounds := placed.bounds
  have bounds' := placed.laid.bounds c (List.mem_append_right _ (List.mem_cons_of_mem _ member))
  simp only [Block.Apart, Clear] at apart ⊢
  omega

theorem blocks_eq : ∃ blocks', low ++ absorb place (absorb b high) = baseBlock base :: blocks' := by
  cases low with
  | cons first low =>
      obtain ⟨rfl, -⟩ := List.cons.inj placed.split
      exact ⟨_, rfl⟩
  | nil =>
      obtain ⟨rfl, -⟩ := List.cons.inj placed.split
      obtain ⟨first, rest, absorbed, start, -⟩ := absorb_first b high fun c member =>
        (placed.laid.order (placed.listed_high member)).2
      refine ⟨absorb b high, ?_⟩
      rw [absorbed, List.nil_append, absorb_clear]
      have before := placed.before
      simp only [unit, start, baseBlock] at before ⊢
      omega

theorem separated_released : Separated (low ++ absorb place (absorb b high)) := by
  have before := placed.before
  obtain ⟨front, tail, -⟩ := List.pairwise_append.mp placed.separated
  have order {c : Block} (member : c ∈ high) := (placed.laid.order (placed.listed_high member)).2
  have absorbed := separated_absorb (List.pairwise_cons.mp tail).2 (fun c member => order member) placed.behind
  refine List.pairwise_append.mpr ⟨front, separated_absorb absorbed (fun c member => ?_) (fun c member => ?_),
    fun c earlier d later => ?_⟩
  · have bounds := placed.mem_absorb_high member
    omega
  · have bounds := placed.mem_absorb_high member
    have touches := placed.touches
    omega
  · have gap := placed.separated.gaps.1 c earlier
    rcases mem_absorb later with kept | ⟨e, -, -, rfl⟩
    · rcases List.mem_cons.mp kept with rfl | found
      · exact gap
      · have bounds := placed.mem_absorb_high found
        omega
    · exact gap

theorem bounds_released {c : Block} (member : c ∈ low ++ absorb place (absorb b high)) (real : c ≠ baseBlock base) :
    base + unit ≤ c.start ∧ c.start + unit ≤ c.stop ∧ c.stop ≤ h.brk := by
  have bounds := placed.bounds
  have of_listed {d : Block} (listed : d ∈ baseBlock base :: blocks) (real : d ≠ baseBlock base) :=
    placed.laid.bounds d (List.mem_append_left _ ((List.mem_cons.mp listed).resolve_left real))
  rcases List.mem_append.mp member with earlier | later
  · exact of_listed (placed.listed (List.mem_append_left _ earlier)) real
  · rcases mem_absorb later with kept | ⟨d, found, touches, rfl⟩
    · rcases List.mem_cons.mp kept with rfl | found
      · exact of_listed placed.listed_place real
      · have bounds' := placed.mem_absorb_high found
        omega
    · have bounds' := placed.mem_absorb_high found
      have real' : place ≠ baseBlock base := by
        rintro rfl
        simp only [baseBlock, unit] at touches bounds
        omega
      have bounds'' := of_listed placed.listed_place real'
      dsimp only
      omega

theorem apart_released {c d : Block} (member : c ∈ low ++ absorb place (absorb b high)) (other : d ∈ used) :
    c.Apart d := by
  have bounds := placed.laid.bounds d (List.mem_append_right _ (List.mem_cons_of_mem _ other))
  have nonempty : d.start < d.stop := by
    simp only [unit] at bounds
    omega
  have of_listed {e : Block} (listed : e ∈ baseBlock base :: blocks) : e.Apart d := by
    rcases List.mem_cons.mp listed with rfl | found
    · exact Or.inl (le_trans (Nat.le_add_right _ _) bounds.1)
    · exact placed.laid.apart e found d (List.mem_cons_of_mem _ other)
  rcases List.mem_append.mp member with earlier | later
  · exact of_listed (placed.listed (List.mem_append_left _ earlier))
  · refine apart_absorb nonempty (fun e kept => ?_) c later
    rcases List.mem_cons.mp kept with rfl | found
    · exact of_listed placed.listed_place
    · refine apart_absorb nonempty (fun e kept => ?_) e found
      rcases List.mem_cons.mp kept with rfl | found
      · exact (List.pairwise_cons.mp placed.laid.usedApart).1 d other
      · exact of_listed (placed.listed_high found)

theorem covers_released (address : Nat) :
    Covers (low ++ absorb place (absorb b high)) address ↔ Covers blocks address ∨ b.Holds address := by
  have order {c : Block} (member : c ∈ high) := (placed.laid.order (placed.listed_high member)).2
  have bounds := placed.bounds
  have empty : ¬(baseBlock base).Holds address := by
    simp only [baseBlock, Block.Holds]
    omega
  have all : Covers blocks address ↔ Covers (low ++ place :: high) address := by
    rw [← placed.split, covers_cons, or_iff_right empty]
  rw [all, covers_append, covers_append, covers_cons, covers_absorb (placed.laid.order placed.listed_place).2,
    covers_absorb (by omega) fun c member => order member]
  · tauto
  · intro c member
    have bounds' := placed.mem_absorb_high member
    omega

theorem laid_released {blocks' : List Block}
    (listed' : low ++ absorb place (absorb b high) = baseBlock base :: blocks') :
    Laid base { h with mem := released h.mem place.start b.start, freep := place.start } blocks' used := by
  have laid := placed.laid
  obtain ⟨linked, sized⟩ := placed.attached
  have separated := placed.separated_released
  rw [listed'] at separated
  have member {c : Block} (found : c ∈ blocks') : c ∈ low ++ absorb place (absorb b high) :=
    listed' ▸ List.mem_cons_of_mem _ found
  have linkedLow : Seg (ptr h.mem) base (low.map Block.start) place.start := by
    have whole := laid.linked
    rw [placed.split, List.map_append, List.map_cons] at whole
    obtain ⟨middle, front, rfl, -⟩ := seg_append.mp whole
    exact front
  refine ⟨?_, ?_, separated, (List.pairwise_cons.mp laid.usedApart).2,
    fun c found d other => placed.apart_released (member found) other, fun c found => ?_, laid.base_pos,
    laid.image, laid.brk_lt, ?_, fun address => ?_⟩
  · rw [← listed', List.map_append]
    dsimp only
    refine seg_append.mpr ⟨place.start, linkedLow.congr fun node found => ?_, linked⟩
    obtain ⟨c, earlier, rfl⟩ := List.mem_map.mp found
    exact (placed.same_low earlier).ptr
  · rw [← listed']
    dsimp only
    refine sized_append.mpr ⟨sized_append.mpr ⟨?_, sized⟩, ?_⟩
    · exact Sized.congr (fun c earlier => laid.sized c (List.mem_append_left _
        (placed.listed (List.mem_append_left _ earlier)))) fun c earlier => placed.same_low earlier
    · exact Sized.congr (fun c other => laid.sized c (List.mem_append_right _ (List.mem_cons_of_mem _ other)))
        fun c other => placed.same_used other
  · rcases List.mem_append.mp found with listed | other
    · refine placed.bounds_released (member listed) ?_
      rintro rfl
      exact Nat.lt_irrefl _ ((List.pairwise_cons.mp separated).1 _ listed)
    · exact laid.bounds c (List.mem_append_right _ (List.mem_cons_of_mem _ other))
  · obtain ⟨first, rest, absorbed, start, -⟩ := absorb_first place (absorb b high) fun c found => by
      have bounds := placed.mem_absorb_high found
      omega
    rw [← listed', absorbed, ← start]
    exact List.mem_map_of_mem (List.mem_append_right _ List.mem_cons_self)
  · have empty : ¬(baseBlock base).Holds address := by
      simp only [baseBlock, Block.Holds]
      omega
    have covers := placed.covers_released address
    rw [listed', covers_cons, or_iff_right empty] at covers
    rw [laid.covered, covers_append, covers_append, covers_cons, covers, or_assoc]

end Placed

theorem Laid.free (laid : Laid base h blocks (b :: used)) :
    ∃ h' blocks', free (b.start + unit) h = some h' ∧ Laid base h' blocks' used ∧
      (h'.brk = h.brk ∧ h'.obtained = h.obtained) ∧ (∀ c ∈ used, Same h.mem h'.mem c.start) ∧
      ∃ c ∈ blocks', c.start ≤ b.start ∧ b.stop ≤ c.stop := by
  obtain ⟨low, place, high, placed⟩ := laid.placed
  obtain ⟨blocks', listed'⟩ := placed.blocks_eq
  have same (c : Block) (member : c ∈ used) := placed.same_used member
  refine ⟨_, blocks', placed.free_eq, placed.laid_released listed', ⟨rfl, rfl⟩, ?_, ?_⟩
  · dsimp only
    exact same
  obtain ⟨first, rest, absorbed, start, stop⟩ := absorb_first b high fun c member =>
    (laid.order (placed.listed_high member)).2
  obtain ⟨c, member, low', high'⟩ := absorb_holds (d := first) (laid.order placed.listed_place).2
    (absorbed ▸ List.mem_cons_self)
  have listed : c ∈ baseBlock base :: blocks' := listed' ▸ List.mem_append_right _ member
  have bounds := placed.bounds
  refine ⟨c, (List.mem_cons.mp listed).resolve_left ?_, by omega, by omega⟩
  rintro rfl
  simp only [baseBlock, unit] at low' high' bounds
  omega

end Free

end OsLabs.Umalloc
