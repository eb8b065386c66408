import Mathlib.Logic.Relation

/-! Runs of a deterministic step function that may fail. `none` says that the run is over. -/
namespace Completion

variable {S E : Type*} (step : S → Except E (Option S))

/-- The run from a state ends, nothing on the way fails, and `Q` holds where it ends. -/
inductive Completes (Q : S → Prop) : S → Prop where
  | stop {s : S} : step s = .ok none → Q s → Completes Q s
  | next {s s' : S} : step s = .ok (some s') → Completes Q s' → Completes Q s

def Reaches : S → S → Prop := Relation.ReflTransGen fun s s' => step s = .ok (some s')

variable {step} {Q : S → Prop} {s s' s'' : S}

theorem Reaches.refl (s : S) : Reaches step s s := Relation.ReflTransGen.refl

theorem Reaches.trans (h : Reaches step s s') (h' : Reaches step s' s'') : Reaches step s s'' :=
  Relation.ReflTransGen.trans h h'

theorem Reaches.next {t : S} (h : step s = .ok (some t)) (h' : Reaches step t s') :
    Reaches step s s' :=
  Relation.ReflTransGen.head h h'

/-- What completes from a later state completes from an earlier one. -/
theorem Completes.from_later (h : Completes step Q s') (reached : Reaches step s s') :
    Completes step Q s := by
  induction reached using Relation.ReflTransGen.head_induction_on with
  | refl => exact h
  | head one _ ih => exact .next one ih

theorem Completes.later (h : Completes step Q s) (reached : Reaches step s s') :
    Completes step Q s' := by
  induction reached with
  | refl => exact h
  | tail _ one ih =>
    cases ih with
    | stop halt _ => cases Except.ok.inj (halt.symm.trans one)
    | next one' rest =>
      cases Option.some.inj (Except.ok.inj (one.symm.trans one'))
      exact rest

/-- No state of the run fails. -/
theorem Completes.safe (h : Completes step Q s) (reached : Reaches step s s') :
    ∃ result, step s' = .ok result := by
  cases h.later reached with
  | stop halt _ => exact ⟨_, halt⟩
  | next one _ => exact ⟨_, one⟩

end Completion
