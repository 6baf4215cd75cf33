import OsLabs.Log.LogScripts

/-!
Recovery runs to its end: left alone, the process that runs `recover_from_log` never waits
for a lock, since the blocks it needs at one time are different ones.
-/

namespace OsLabs.Log

open Function OsLabs.Interleaving OsLabs.Runs

variable {ι : Type*} [DecidableEq ι] {area : Area} {p : ι}

def solo (p : ι) (store : Store) (regs : Regs) (holder : Nat → Option ι) (referenced : Finset Nat)
    (script : List Instr) : State ι :=
  ⟨⟨store, holder, ⟨referenced, ∅⟩⟩,
    update (fun _ => Proc.fresh) p { Proc.fresh with regs, script }⟩

def Reaches (area : Area) (p : ι) (s : State ι) (goal : State ι → Prop) : Prop :=
  ∃ count last, run (step area) s (List.replicate count (.go p)) = some last ∧ goal last

variable {store : Store} {regs : Regs} {holder : Nat → Option ι} {referenced : Finset Nat} {instr : Instr}
  {rest : List Instr} {goal : State ι → Prop}

theorem reaches_instr {holder' : Nat → Option ι} {referenced' : Finset Nat} {next : Store × Regs}
    {more : List Instr}
    (lock : Shared.locked area ⟨store, holder, ⟨referenced, ∅⟩⟩ p regs instr =
      some ⟨store, holder', ⟨referenced', ∅⟩⟩)
    (executed : exec area instr (store, regs) = some (next, more))
    (later : Reaches area p (solo p next.1 next.2 holder' referenced' (more ++ rest)) goal) :
    Reaches area p (solo p store regs holder referenced (instr :: rest)) goal := by
  obtain ⟨count, last, reached, met⟩ := later
  refine ⟨count + 1, last, ?_, met⟩
  rw [List.replicate_succ, run_cons]
  simp only [step, act, solo, program, Proc.fresh, update_self, update_idem, lock,
    Option.bind_some, executed, Option.map_some]
  exact reached

theorem reaches_bread {r block : Nat} {place : Place} (few : referenced.card < nbuf)
    (named : place.block area store.lh = some block) (unlocked : holder block = none)
    (later : Reaches area p
      (solo p store (update regs r (some block)) (update holder block (some p))
        (insert block referenced) rest) goal) :
    Reaches area p (solo p store regs holder referenced (.bread r place :: rest)) goal := by
  refine reaches_instr ?_ (by rw [exec, named, Option.map_some]) later
  simp [Shared.locked, named, Shared.bget, Buffers.Finds, few, Shared.acquire, unlocked]

theorem reaches_brelse {r block : Nat} (holds : regs r = some block)
    (later : Reaches area p
      (solo p store (update regs r none) (update holder block none)
        (referenced.erase block) rest) goal) :
    Reaches area p (solo p store regs holder referenced (.brelse r :: rest)) goal := by
  refine reaches_instr ?_ rfl later
  simp [Shared.locked, holds, Shared.brelse, Shared.release]

abbrev still (p : ι) (store : Store) (script : List Instr) : State ι :=
  solo p store (fun _ => none) (fun _ => none) ∅ script

theorem reaches_released {r block : Nat}
    (later : Reaches area p (still p store rest) goal) :
    Reaches area p (solo p store (update (fun _ => none) r (some block))
      (update (fun _ => none) block (some p)) (insert block ∅) (.brelse r :: rest)) goal := by
  refine reaches_brelse (update_self _ _ _) ?_
  rw [update_idem, update_idem, update_eq_self, update_eq_self,
    Finset.erase_insert (Finset.notMem_empty block)]
  exact later

theorem reaches_both {first second : Nat} (apart : second ≠ first)
    (later : Reaches area p (still p store rest) goal) :
    Reaches area p (solo p store
      (update (update (fun _ => none) 0 (some first)) 1 (some second))
      (update (update (fun _ => none) first (some p)) second (some p))
      (insert second (insert first ∅)) (.brelse 0 :: .brelse 1 :: rest)) goal := by
  refine reaches_brelse rfl ?_
  rw [update_comm Nat.one_ne_zero, update_comm apart, update_idem,
    update_idem, update_eq_self, update_eq_self,
    Finset.erase_insert_of_ne apart, Finset.erase_insert (Finset.notMem_empty first)]
  exact reaches_released later

theorem installOne_reaches {tail block : Nat} (named : store.lh[tail]? = some block)
    (apart : block ≠ area.start + tail + 1)
    (later : ∀ disk view, Reaches area p
      (still p { store with disk, view } (.installTrans (tail + 1) :: rest)) goal) :
    Reaches area p (still p store (.installTrans tail :: rest)) goal := by
  obtain ⟨bound, _⟩ := List.getElem?_eq_some_iff.mp named
  have unlocked : update (fun _ => none) (area.start + tail + 1) (some p) block = none :=
    update_of_ne apart _ _
  refine reaches_instr rfl (if_pos bound) (reaches_bread (by decide) rfl rfl
    (reaches_bread (by rw [Finset.card_insert_of_notMem (Finset.notMem_empty _)]; decide) named unlocked ?_))
  exact reaches_instr rfl rfl (reaches_instr rfl rfl (reaches_both apart (later _ _)))

theorem installTrans_reaches (room : store.lh.length < area.size)
    (homes : ∀ block ∈ store.lh, area.Home block)
    (later : ∀ disk view, Reaches area p (still p { store with disk, view } rest) goal) :
    ∀ left tail disk view, tail + left = store.lh.length →
      Reaches area p (still p { store with disk, view } (.installTrans tail :: rest)) goal := by
  intro left
  induction left with
  | zero =>
      intro tail disk view done
      have ended : ¬tail < store.lh.length := by omega
      exact reaches_instr rfl (if_neg ended) (later disk view)
  | succ left ih =>
      intro tail disk view whole
      have bound : tail < store.lh.length := by omega
      have named : store.lh[tail]? = some store.lh[tail] := List.getElem?_eq_getElem bound
      have home := homes _ (List.getElem_mem bound)
      refine installOne_reaches named (home_ne_slot home (by omega)) ?_
      intro disk view
      exact ih (tail + 1) disk view (by omega)

theorem writeHead_reaches (later : ∀ store : Store, Reaches area p (still p store rest) goal) :
    Reaches area p (still p store (.writeHead :: rest)) goal :=
  reaches_instr rfl rfl (reaches_bread (by decide) rfl rfl
    (reaches_instr rfl rfl (reaches_instr rfl rfl (reaches_released (later _)))))

theorem recovery_completes {disk target : Nat → Block} {committed : List (List Update)}
    {lh : List Nat} (logged : Logged area target disk lh) (p : ι) :
    Reaches area p (boot disk committed p) fun final => final.shared.store.booted = true := by
  let loaded : Store :=
    { (boot disk committed p).shared.store with lh := decodeHead (disk area.start) }
  have named : loaded.lh = lh := logged.header
  have room : loaded.lh.length < area.size := by rw [named]; exact logged.room
  have homes : ∀ block ∈ loaded.lh, area.Home block := by rw [named]; exact logged.homes
  have erased : ∀ store : Store, Reaches area p (still p store [.clearHead, .writeHead, .endBoot])
      fun final => final.shared.store.booted = true := by
    intro store
    refine reaches_instr rfl rfl (writeHead_reaches fun store => reaches_instr rfl rfl ?_)
    exact ⟨0, _, rfl, rfl⟩
  have installed := installTrans_reaches room homes (fun _ _ => erased _) lh.length 0 disk disk
    (by rw [named, Nat.zero_add])
  have begun : Reaches area p (still p (boot disk committed p).shared.store recoverFromLog) _ :=
    reaches_bread (by decide) rfl rfl (reaches_instr rfl rfl (reaches_released installed))
  exact begun

end OsLabs.Log
