import Mathlib.Data.List.Basic

/-! Finite sequences of operations that may fail. `Safely` asks that no operation fails and
that a property holds at every moment; `Throughout` looks at a run as far as it gets;
`Along` asks each operation to meet a condition on the state before it. -/
namespace Runs

variable {A W E : Type*} (step : A → W → Except E W)

def Safely (Good : W → Prop) : List A → W → Prop
  | [], w => Good w
  | a :: as, w => Good w ∧ ∃ w', step a w = .ok w' ∧ Safely Good as w'

def Throughout (Good : W → Prop) : List A → W → Prop
  | [], w => Good w
  | a :: as, w => Good w ∧ ∀ w', step a w = .ok w' → Throughout Good as w'

def Along (Cond : A → W → Prop) : List A → W → Prop
  | [], _ => True
  | a :: as, w => Cond a w ∧ ∀ w', step a w = .ok w' → Along Cond as w'

variable {step} {Inv Good : W → Prop} {Cond : A → W → Prop}

theorem Safely.now {as : List A} {w : W} (h : Safely step Good as w) : Good w := by
  cases as with
  | nil => exact h
  | cons _ _ => exact h.1

theorem Throughout.now {as : List A} {w : W} (h : Throughout step Good as w) : Good w := by
  cases as with
  | nil => exact h
  | cons _ _ => exact h.1

/-- An invariant that a step keeps exactly when its condition holds. -/
theorem safely_iff_along (good : ∀ w, Inv w → Good w)
    (keep : ∀ a w, Inv w → Cond a w → ∃ w', step a w = .ok w' ∧ Inv w')
    (lost : ∀ a w w', Inv w → step a w = .ok w' → Good w' → Cond a w)
    (as : List A) (w : W) (h : Inv w) : Safely step Good as w ↔ Along step Cond as w := by
  induction as generalizing w with
  | nil => exact ⟨fun _ => trivial, fun _ => good w h⟩
  | cons a as ih =>
    constructor
    · rintro ⟨_, w', hw, rest⟩
      have cond : Cond a w := lost a w w' h hw rest.now
      obtain ⟨v, hv, inv⟩ := keep a w h cond
      have same : v = w' := Except.ok.inj (hv.symm.trans hw)
      subst same
      refine ⟨cond, fun w'' hw'' => ?_⟩
      cases Except.ok.inj (hv.symm.trans hw'')
      exact (ih v inv).mp rest
    · rintro ⟨cond, rest⟩
      obtain ⟨w', hw, inv⟩ := keep a w h cond
      exact ⟨good w h, w', hw, (ih w' inv).mpr (rest w' hw)⟩

/-- The same for runs that may stop early. -/
theorem throughout_iff_along (good : ∀ w, Inv w → Good w)
    (keep : ∀ a w w', Inv w → Cond a w → step a w = .ok w' → Inv w')
    (lost : ∀ a w, Inv w → (∀ w', step a w = .ok w' → Good w') → Cond a w)
    (as : List A) (w : W) (h : Inv w) : Throughout step Good as w ↔ Along step Cond as w := by
  induction as generalizing w with
  | nil => exact ⟨fun _ => trivial, fun _ => good w h⟩
  | cons a as ih =>
    constructor
    · rintro ⟨_, rest⟩
      have cond : Cond a w := lost a w h fun w' hw => (rest w' hw).now
      exact ⟨cond, fun w' hw => (ih w' (keep a w w' h cond hw)).mp (rest w' hw)⟩
    · rintro ⟨cond, rest⟩
      exact ⟨good w h, fun w' hw => (ih w' (keep a w w' h cond hw)).mpr (rest w' hw)⟩

end Runs
