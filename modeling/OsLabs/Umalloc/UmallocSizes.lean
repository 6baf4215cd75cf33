import OsLabs.Umalloc.UmallocRuns

/-!
The sizes in `malloc` and `morecore`. The calls are repeated with the argument of every `sbrk` on
the way, as the `int` that `sbrk` takes.
-/

namespace OsLabs.Umalloc

open Blocks ByteField Runs Segments

/-- A call of `sbrk` by `morecore`: its argument, and the size in headers that `morecore` records. -/
structure Request where
  argument : Int
  recorded : Nat
deriving DecidableEq, Repr

def request (nu : Nat) : Request :=
  let nu := if nu < 4096 then 4096 else nu
  ⟨(BitVec.ofNat 32 (nu * unit)).toInt, nu⟩

/-- `mallocLoop` with its requests. -/
def mallocLoopAsks (nunits : Nat) : Nat → Answers → Heap → Nat → Nat → Option ((Heap × Nat) × List Request)
  | 0, _, _, _, _ => none
  | fuel + 1, answers, h, prevp, p =>
      if nunits ≤ size h.mem p then
        let (m, p) := allocate nunits h.mem prevp p
        some (({ h with mem := m, freep := prevp }, plus p 1), [])
      else if p = h.freep then do
        let (h, p, answers) ← morecore nunits answers h
        if p = 0 then some ((h, 0), [request nunits])
        else
          let (result, requests) ← mallocLoopAsks nunits fuel answers h p (ptr h.mem p)
          some (result, request nunits :: requests)
      else mallocLoopAsks nunits fuel answers h p (ptr h.mem p)

def mallocAsks (base nbytes : Nat) (answers : Answers) (h : Heap) : Option ((Heap × Nat) × List Request) :=
  let h := setup base h
  mallocLoopAsks (unitsFor nbytes) limit answers h h.freep (ptr h.mem h.freep)

variable {base nunits nbytes : Nat} {h : Heap} {s : State}

theorem mallocLoopAsks_fst (nunits fuel : Nat) (answers : Answers) (h : Heap) (prevp p : Nat) :
    (mallocLoopAsks nunits fuel answers h prevp p).map Prod.fst = mallocLoop nunits fuel answers h prevp p := by
  induction fuel generalizing answers h prevp p with
  | zero => rfl
  | succ fuel ih =>
      rw [mallocLoopAsks, mallocLoop]
      split
      · rfl
      · split
        · cases morecore nunits answers h with
          | none => rfl
          | some more =>
              obtain ⟨h', p', answers'⟩ := more
              simp only [Option.bind_eq_bind, Option.bind_some]
              split
              · rfl
              · rw [← ih answers' h' p' (ptr h'.mem p'), Option.map_bind, Option.map_eq_bind]
                rfl
        · exact ih ..

theorem mallocLoopAsks_requests {fuel : Nat} {answers : Answers} {prevp p : Nat} {result : Heap × Nat}
    {requests : List Request} (done : mallocLoopAsks nunits fuel answers h prevp p = some (result, requests)) :
    ∀ r ∈ requests, r = request nunits := by
  induction fuel generalizing answers h prevp p result requests with
  | zero => simp [mallocLoopAsks] at done
  | succ fuel ih =>
      rw [mallocLoopAsks] at done
      split at done
      · obtain ⟨-, rfl⟩ := Prod.mk.inj (Option.some.inj done)
        simp
      · split at done
        · obtain ⟨⟨h', p', answers'⟩, -, rest⟩ := Option.bind_eq_some_iff.mp done
          simp only at rest
          split at rest
          · obtain ⟨-, rfl⟩ := Prod.mk.inj (Option.some.inj rest)
            simp
          · obtain ⟨⟨inner, later⟩, again, whole⟩ := Option.bind_eq_some_iff.mp rest
            obtain ⟨-, rfl⟩ := Prod.mk.inj (Option.some.inj whole)
            intro r member
            rcases List.mem_cons.mp member with rfl | member
            · rfl
            · exact ih again r member
        · exact ih done

theorem request_exact (small : nunits < 2 ^ 28) :
    (request nunits).argument = unit * (request nunits).recorded ∧ 0 < (request nunits).argument := by
  obtain ⟨nu, nu_eq⟩ : ∃ nu, nu = if nunits < 4096 then 4096 else nunits := ⟨_, rfl⟩
  have bounds : 0 < nu ∧ nu * unit < 2 ^ 31 := by
    simp only [unit]
    split at nu_eq <;> omega
  have exactly : (BitVec.ofNat 32 (nu * unit)).toInt = nu * unit := by
    rw [BitVec.toInt_eq_toNat_cond, BitVec.toNat_ofNat, Nat.mod_eq_of_lt (by omega), if_pos (by omega),
      Nat.cast_mul]
  rw [request, ← nu_eq]
  simp only [exactly]
  refine ⟨Int.mul_comm .., ?_⟩
  simp only [unit]
  omega

/-- What a program may ask for here: `Permitted`, with requests of up to 2^31 - 16 bytes. -/
def Moderate (s : State) : Event → Prop
  | .malloc nbytes _ => nbytes ≤ 2 ^ 31 - 16
  | .free ap => Permitted s (.free ap)
  | .write address byte => Permitted s (.write address byte)

instance (s : State) : DecidablePred (Moderate s)
  | .malloc nbytes _ => inferInstanceAs (Decidable (nbytes ≤ 2 ^ 31 - 16))
  | .free ap => inferInstanceAs (Decidable (Permitted s (.free ap)))
  | .write address byte => inferInstanceAs (Decidable (Permitted s (.write address byte)))

theorem Good.moderate (good : Good base s) {event : Event} (moderate : Moderate s event) :
    ∃ next, Umalloc.step base s event = some next ∧ Good base next := by
  cases event with
  | malloc nbytes answers =>
      have small : nbytes ≤ 2 ^ 31 - 16 := moderate
      exact good.malloc small answers
  | free ap => exact good.free moderate
  | write address byte => exact good.write moderate

theorem mallocAsks_eq {answers : Answers} {result : Heap × Nat} (done : malloc base nbytes answers h = some result) :
    ∃ requests, mallocAsks base nbytes answers h = some (result, requests) ∧
      ∀ r ∈ requests, r = request (unitsFor nbytes) := by
  rw [malloc, ← mallocLoopAsks_fst] at done
  obtain ⟨⟨same, requests⟩, asks, rfl⟩ := Option.map_eq_some_iff.mp done
  exact ⟨requests, asks, mallocLoopAsks_requests asks⟩

/-- In every run whose requests have up to 2^31 - 16 bytes every call of `malloc` ends, a block that
it returns has the bytes asked for, and every `sbrk` on the way asks for the bytes that are then
recorded. -/
theorem malloc_sizes_exact {mem : Bytes} {brk : Nat} (base_pos : 0 < base) (image : base + unit ≤ brk)
    (user : brk < kernbase) {before after : List Event} {answers : Answers}
    (moderate : Along (step base) (fun _ => Moderate) (start mem brk)
      (before ++ .malloc nbytes answers :: after)) :
    ∃ s h ap requests, run (step base) (start mem brk) before = some s ∧
      mallocAsks base nbytes answers s.heap = some ((h, ap), requests) ∧
      (ap ≠ 0 → ap + nbytes ≤ (blockAt h.mem (ap - unit)).stop) ∧
      ∀ r ∈ requests, 0 < r.argument ∧ r.argument = unit * r.recorded := by
  have unused : Good base (start mem brk) := Or.inl ⟨rfl, rfl, rfl, base_pos, image, user⟩
  obtain ⟨s, reached, good⟩ := run_total (Good base) unused
    (fun _ s event good moderate => good.moderate moderate) before moderate.of_append
  have small : nbytes ≤ 2 ^ 31 - 16 := moderate before _ after s rfl reached
  obtain ⟨h, ap, result, grants⟩ := good.grants small answers
  obtain ⟨requests, asks, all⟩ := mallocAsks_eq result
  refine ⟨s, h, ap, requests, reached, asks, fun granted => (grants.resolve_left granted).1, ?_⟩
  intro r member
  obtain ⟨argument, positive⟩ := request_exact (unitsFor_spec small).2.1
  rw [all r member]
  exact ⟨positive, argument⟩

/-- A first call for 100 bytes. -/
theorem malloc_sizes_exact_first :
    ∃ s h ap requests, run (step 3000) (start (fun _ => 0) 4096) [] = some s ∧
      mallocAsks 3000 100 [some 0] s.heap = some ((h, ap), requests) ∧
      (ap ≠ 0 → ap + 100 ≤ (blockAt h.mem (ap - unit)).stop) ∧
      ∀ r ∈ requests, 0 < r.argument ∧ r.argument = unit * r.recorded :=
  malloc_sizes_exact (by decide) (by decide) (by decide)
    (alongCheck_sound _ _ _ ([] ++ [Event.malloc 100 [some 0]]) (by decide +kernel))

/-- The rounding wraps for 2^32 - 1 bytes, and the argument of `sbrk` is negative for 2^31. -/
theorem malloc_sizes_wrap :
    ((mallocAsks 3000 (2 ^ 32 - 1) [some 0] ⟨fun _ => 0, 0, 4096, []⟩).map fun got =>
        (got.1.2, (blockAt got.1.1.mem (got.1.2 - unit)).stop)) = some (36864, 36864) ∧
      ((mallocAsks 3000 (2 ^ 31) [] ⟨fun _ => 0, 0, 4096, []⟩).map fun got => got.2) =
        some [⟨-2147483640, 268435457⟩] := by
  decide +kernel

end OsLabs.Umalloc
