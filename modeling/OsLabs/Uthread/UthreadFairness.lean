import OsLabs.Uthread.UthreadSchedule

/-!
Round robin. The measure is the forward distance from the slot selected first to
`last_index`: while another slot waits, no selection carries `last_index` past it.
-/

namespace OsLabs.Uthread

open OsLabs.Cyclic

def Threads.Waits (s : Threads) (y : Fin maxThread) : Prop :=
  s.state y = .runnable ∧ y ≠ s.currentThread

instance (s : Threads) (y : Fin maxThread) : Decidable (s.Waits y) :=
  inferInstanceAs (Decidable (_ ∧ _))

/-- `y` waits in every state of the run, up to its own selection if there is one. -/
def Threads.WaitsAlong (y : Fin maxThread) : Threads → List Call → Prop
  | s, [] => s.Waits y
  | s, call :: rest => s.Waits y ∧
      (s.selects call = some y ∨ ∀ next ∈ s.step call, next.WaitsAlong y rest)

theorem selects_eq_some {s : Threads} {call : Call} {x : Fin maxThread}
    (selected : s.selects call = some x) :
    ∃ entered, s.entering call = some entered ∧ entered.searchLoop.2 = some x :=
  Option.bind_eq_some_iff.mp selected

theorem lastIndex_of_selects {s next : Threads} {call : Call} {x : Fin maxThread}
    (selected : s.selects call = some x) (stepped : s.step call = some next) :
    next.lastIndex = x := by
  obtain ⟨entered, enters, found⟩ := selects_eq_some selected
  rw [step_eq_of_entering enters, Option.some.injEq] at stepped
  rw [← stepped, threadSchedule_lastIndex, found]
  rfl

theorem lastIndex_of_selects_none {s next : Threads} {call : Call}
    (missing : s.selects call = none) (stepped : s.step call = some next) :
    next.lastIndex = s.lastIndex := by
  cases enters : s.entering call with
  | none =>
      obtain ⟨_, _, filled⟩ := step_eq_of_entering_none enters stepped
      rw [filled]
      rfl
  | some entered =>
      rw [Threads.selects, enters, Option.bind_some] at missing
      rw [step_eq_of_entering enters, Option.some.injEq] at stepped
      rw [← stepped, threadSchedule_lastIndex, missing]
      exact (entering_frame enters).2.1

theorem selects_onTheWay {s : Threads} {call : Call} {x y chosen : Fin maxThread}
    (waits : s.Waits y) (ahead : gap x s.lastIndex < gap x y)
    (selected : s.selects call = some chosen) (passed : chosen ≠ y) :
    gap x chosen < gap x y ∧ chosen ≠ x := by
  obtain ⟨entered, enters, found⟩ := selects_eq_some selected
  obtain ⟨sameCurrent, sameIndex, frame⟩ := entering_frame enters
  have accepted : entered.candidate y = true := by
    rw [candidate_iff, sameCurrent, frame y waits.2]
    exact waits
  rw [searchLoop_eq] at found
  exact firstAfter_onTheWay found accepted (sameIndex.symm ▸ ahead) passed

theorem lastIndex_behind {s next : Threads} {call : Call} {x y : Fin maxThread}
    (waits : s.Waits y) (ahead : gap x s.lastIndex < gap x y)
    (missed : s.selects call ≠ some y) (stepped : s.step call = some next) :
    gap x next.lastIndex < gap x y := by
  cases selected : s.selects call with
  | none => rwa [lastIndex_of_selects_none selected stepped]
  | some chosen =>
      rw [lastIndex_of_selects selected stepped]
      refine (selects_onTheWay waits ahead selected ?_).1
      intro same
      exact missed (by rw [selected, same])

theorem selected_or_behind {s final : Threads} {calls : List Call} {x y : Fin maxThread}
    (reached : Runs.run Threads.step s calls = some final) (waits : s.WaitsAlong y calls)
    (ahead : gap x s.lastIndex < gap x y) :
    y ∈ s.selections calls ∨ final.Waits y ∧ gap x final.lastIndex < gap x y := by
  induction calls generalizing s with
  | nil =>
      simp only [Runs.run_nil, Option.some.injEq] at reached
      subst final
      exact Or.inr ⟨waits, ahead⟩
  | cons call rest ih =>
      obtain ⟨next, stepped, reached⟩ := Option.bind_eq_some_iff.mp reached
      simp only [Threads.selections, stepped, Option.map_some, Option.getD_some, List.mem_append,
        Option.mem_toList]
      by_cases selected : s.selects call = some y
      · exact Or.inl (Or.inl selected)
      · have later := (waits.2.resolve_left selected) next stepped
        have behind := lastIndex_behind waits.1 ahead selected stepped
        rcases ih reached later behind with found | kept
        · exact Or.inl (Or.inr found)
        · exact Or.inr kept

/-- Between two selections of slot `x`, every other slot that waits is selected. The
run may start in any state, so it may be any part of a run from `thread_init`. -/
theorem waiting_thread_selected (s : Threads) {afterFirst beforeSecond : Threads}
    (first second : Call) (between : List Call) (x y : Fin maxThread)
    (selectedFirst : s.selects first = some x) (stepped : s.step first = some afterFirst)
    (reached : Runs.run Threads.step afterFirst between = some beforeSecond)
    (selectedSecond : beforeSecond.selects second = some x) (other : y ≠ x)
    (waits : afterFirst.WaitsAlong y between) :
    y ∈ afterFirst.selections between := by
  have ahead : gap x afterFirst.lastIndex < gap x y := by
    rw [lastIndex_of_selects selectedFirst stepped, gap_self]
    exact gap_pos other
  rcases selected_or_behind reached waits ahead with selected | ⟨stillWaits, behind⟩
  · exact selected
  · exact absurd rfl (selects_onTheWay stillWaits behind selectedSecond (Ne.symm other)).2

theorem waiting_thread_selected_two :
    ∃ s afterFirst, Runs.run Threads.step threadInit [.create, .create] = some s ∧
      s.step .schedule = some afterFirst ∧ afterFirst.WaitsAlong 2 [.yield] ∧
      2 ∈ afterFirst.selections [.yield] := by
  let s := (Runs.run Threads.step threadInit [.create, .create]).get (by decide)
  have waits : s.threadSchedule.WaitsAlong 2 [.yield] := ⟨by decide, Or.inl (by decide)⟩
  refine ⟨s, s.threadSchedule, (Option.some_get _).symm, rfl, waits, ?_⟩
  exact waiting_thread_selected s .schedule .yield [.yield] 1 2 (by decide) rfl rfl (by decide)
    (by decide) waits

end OsLabs.Uthread
