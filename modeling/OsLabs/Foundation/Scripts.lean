import Mathlib.Tactic.Common

/-!
Sequential code as the list of instructions left to run, where an instruction may put
others in front of them (a loop, a call). `Safe` says what it keeps when it can be
cut at any point: `always` holds before each instruction and `after` at the end.
-/

namespace OsLabs.Scripts

variable {γ α : Type*}

inductive Safe (exec : α → γ → Option (γ × List α)) (always after : γ → Prop) :
    List α → γ → Prop
  | done {state} (finished : after state) : Safe exec always after [] state
  | next {instr rest state} (now : always state)
      (later : ∀ state' more, exec instr state = some (state', more) →
        Safe exec always after (more ++ rest) state') :
      Safe exec always after (instr :: rest) state

variable {exec : α → γ → Option (γ × List α)} {always after : γ → Prop} {instr : α} {rest : List α}
  {state : γ}

theorem Safe.holds (safe : Safe exec always after (instr :: rest) state) : always state := by
  cases safe with
  | next now _ => exact now

theorem Safe.step {state' : γ} {more : List α} (safe : Safe exec always after (instr :: rest) state)
    (executed : exec instr state = some (state', more)) :
    Safe exec always after (more ++ rest) state' := by
  cases safe with
  | next _ later => exact later state' more executed

theorem Safe.finished (safe : Safe exec always after [] state) : after state := by
  cases safe with
  | done finished => exact finished

theorem safe_cons {state' : γ} {more : List α} (now : always state)
    (executed : exec instr state = some (state', more))
    (later : Safe exec always after (more ++ rest) state') :
    Safe exec always after (instr :: rest) state := by
  refine .next now fun state'' more' executed' => ?_
  rw [executed, Option.some.injEq, Prod.mk.injEq] at executed'
  rw [← executed'.1, ← executed'.2]
  exact later

theorem safe_single {state' : γ} (now : always state) (executed : exec instr state = some (state', []))
    (later : Safe exec always after rest state') : Safe exec always after (instr :: rest) state :=
  safe_cons now executed later

end OsLabs.Scripts
