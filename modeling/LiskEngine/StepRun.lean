import Mathlib.Data.List.Induction

/-! Runs of a partial step function: an event that is not enabled ends the run. -/
namespace LiskEngine.StepRun
open List Option

section
variable {S E : Type} (step : S → E → Option S)

def run : S → List E → Option S
  | s, [] => some s
  | s, e :: rest => (step s e).bind (fun next => run next rest)

theorem runAppend (s : S) (past later : List E) :
    run step s (past ++ later) = (run step s past).bind (fun next => run step next later) := by
  induction past generalizing s with
  | nil => rfl
  | cons e rest ih =>
    rw [cons_append,run,run]
    cases step s e with
    | none => rfl
    | some next => exact ih next

theorem runSnoc (s : S) (past : List E) (e : E) : run step s (past ++ [e]) = (run step s past).bind (fun next => step next e) := by
  rw [runAppend]
  cases run step s past with
  | none => rfl
  | some next => simp [run]

variable {step}

theorem runHistory {J : List E → S → Prop} (first : J [] start)
    (keeps : ∀ past s e s', run step start past = some s → J past s → step s e = some s' → J (past ++ [e]) s')
    (ran : run step start events = some s) : J events s := by
  induction events using reverseRecOn generalizing s with
  | nil =>
    cases ran
    exact first
  | append_singleton past e ih =>
    rw [runSnoc] at ran
    obtain ⟨before,ran,taken⟩ := bind_eq_some_iff.mp ran
    exact keeps past before e s ran (ih ran) taken

theorem runCompletes {Inv : S → Prop} (first : Inv start)
    (next : ∀ past e s, past ++ [e] <+: events → run step start past = some s → Inv s → ∃ s', step s e = some s' ∧ Inv s')
    (past : List E) (fit : past <+: events) : ∃ s, run step start past = some s ∧ Inv s := by
  induction past using reverseRecOn with
  | nil => exact ⟨start,rfl,first⟩
  | append_singleton past e ih =>
    obtain ⟨s,ran,inv⟩ := ih ((prefix_append past [e]).trans fit)
    obtain ⟨s',taken,inv'⟩ := next past e s fit ran inv
    exact ⟨s',by rw [runSnoc,ran]; exact taken,inv'⟩

end
end LiskEngine.StepRun
