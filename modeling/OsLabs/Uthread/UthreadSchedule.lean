import OsLabs.Uthread.UthreadCore

/-!
When the scheduler abandons a runnable thread. The search skips two slots, the
caller's and the one where the last search stopped; a thread that is runnable in
neither of them is always found, and one that is runnable only there never is.
-/

namespace OsLabs.Uthread

open OsLabs.Cyclic

def Threads.fallsBack (s : Threads) : Prop := s.nextThread = none

/-- What the scheduler owes on entry: if a thread is runnable it continues in a
runnable one, and it falls back on slot 0 only if none is. -/
def Threads.KeepsRunnable (s : Threads) : Prop :=
  ((∃ t, s.state t = .runnable) → s.state s.threadSchedule.currentThread = .runnable) ∧
    (s.fallsBack → ∀ t, s.state t ≠ .runnable)

def Threads.Reaches (s : Threads) : Prop :=
  (∀ t, s.state t ≠ .runnable) ∨
    ∃ t, s.state t = .runnable ∧ t ≠ s.currentThread ∧ t ≠ s.lastIndex

theorem searchLoop_some {s : Threads} {t : Fin maxThread} (found : s.searchLoop.2 = some t) :
    s.state t = .runnable ∧ t ≠ s.currentThread ∧ t ≠ s.lastIndex := by
  obtain ⟨accepted, apart, _⟩ := firstAfter_some ((searchLoop_eq s).symm.trans found)
  obtain ⟨runnable, other⟩ := (candidate_iff s t).mp accepted
  exact ⟨runnable, other, apart⟩

theorem searchLoop_none {s : Threads} (missing : s.searchLoop.2 = none) (t : Fin maxThread)
    (runnable : s.state t = .runnable) : t = s.currentThread ∨ t = s.lastIndex := by
  by_contra outside
  simp only [not_or] at outside
  have rejected := firstAfter_none ((searchLoop_eq s).symm.trans missing) outside.2
  have accepted := (candidate_iff s t).mpr ⟨runnable, outside.1⟩
  rw [rejected] at accepted
  contradiction

theorem keepsRunnable_iff (s : Threads) : s.KeepsRunnable ↔ s.Reaches := by
  rw [Threads.KeepsRunnable, Threads.fallsBack, threadSchedule_current, nextThread_eq]
  cases result : s.searchLoop.2 with
  | some t =>
      have found := searchLoop_some result
      constructor
      · intro _
        exact Or.inr ⟨t, found⟩
      · intro _
        exact ⟨fun _ => found.1, by simp⟩
  | none =>
      constructor
      · rintro ⟨_, onlyThen⟩
        exact Or.inl (onlyThen rfl)
      · rintro (idle | ⟨t, runnable, other, apart⟩)
        · exact ⟨fun ⟨t, runnable⟩ => absurd runnable (idle t), fun _ => idle⟩
        · rcases searchLoop_none result t runnable with same | same
          · exact absurd same other
          · exact absurd same apart

def SchedulesWell (property : Threads → Prop) (s : Threads) (call : Call) : Prop :=
  ∀ entered, s.entering call = some entered → property entered

/-- The scheduler never abandons a runnable thread in a run exactly when, at each entry,
some runnable thread is neither the caller nor in the slot where the last search
stopped, or no thread is runnable. -/
theorem never_abandons_iff (calls : List Call) :
    Runs.Along Threads.step (fun _ => SchedulesWell Threads.KeepsRunnable) threadInit calls ↔
      Runs.Along Threads.step (fun _ => SchedulesWell Threads.Reaches) threadInit calls := by
  simp only [Runs.Along, SchedulesWell, keepsRunnable_iff]

/-- The only created thread yields: it is runnable, and the program resumes `main`. -/
theorem lone_thread_abandoned :
    ∃ s entered, Runs.run Threads.step threadInit [.create, .schedule] = some s ∧
      s.entering .yield = some entered ∧ s.currentThread = 1 ∧ entered.state 1 = .runnable ∧
      entered.fallsBack ∧ entered.threadSchedule.currentThread = 0 ∧
      entered.state 0 ≠ .runnable ∧ ¬entered.KeepsRunnable := by
  refine ⟨_, _, rfl, rfl, by decide, by decide, by unfold Threads.fallsBack; decide, by decide, by decide, ?_⟩
  rw [keepsRunnable_iff, Threads.Reaches]
  decide

end OsLabs.Uthread
