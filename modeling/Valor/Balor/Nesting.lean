import Mathlib.Order.Bounds.Basic
import Valor.Balor.Transfers

/-! How deep the resumptions nest. In `coro` each is made from within the one before, until
the countdown is over; in `coro2` the driver cuts this in every round. -/
namespace Valor.Balor

open Coroutines Completion

/-- The depths that the stack comes to in a run. -/
def Depths (p : Program Point Coro Memory) (n : Int) : Set Nat :=
  {d | ∃ s l, Reaches p.stacked (start n, []) (s, l) ∧ l.length = d}

namespace Coro1

variable (n k : Nat)

theorem created_stacked : Reaches coro.stacked (start n, []) (created n, []) := by
  have made : Reaches coro.step (start n) (created n) :=
    start_created (fun _ _ => rfl) (fun _ _ => rfl) n
  obtain ⟨l, reached⟩ := Program.stacked_of_reaches made []
  have empty : l = [] := Program.stacked_empty reached rfl rfl
  rwa [empty] at reached

theorem created_step : coro.step (created n) = .ok (some (inF1 n 0)) := by
  have resumed := Program.step_resume (p := coro) (s := created n) rfl rfl rfl
  simpa [created, inF1, answered, turns] using resumed

/-- The calls that have not returned when `f1` runs for the `k + 1`st time. -/
def calls : Nat → List Coro
  | 0 => [.f1]
  | k + 1 => .f1 :: .f2 :: calls k

theorem calls_length : (calls k).length = 2 * k + 1 := by
  induction k with
  | zero => rfl
  | succ k ih =>
    simp only [calls, List.length_cons, ih]
    omega

theorem inF1_stacked (le : k ≤ n) : Reaches coro.stacked (start n, []) (inF1 n k, calls k) := by
  induction k with
  | zero =>
    apply (created_stacked n).tail
    exact Program.stacked_call (created_step n) rfl
  | succ k ih =>
    have waits : coro.stacked (inF1 n k, calls k) = .ok (some (inF2 n k, .f2 :: calls k)) :=
      Program.stacked_call (inF1_step n k) rfl
    have yields : coro.stacked (inF2 n k, .f2 :: calls k) =
        .ok (some (inF1 n (k + 1), calls (k + 1))) :=
      Program.stacked_call (inF2_step n k le) rfl
    exact ((ih (Nat.le_of_succ_le le)).tail waits).tail yields

theorem deepest : 2 * (n + 1) ∈ Depths coro n := by
  have last : coro.stacked (inF1 n n, calls n) = .ok (some (inF2 n n, .f2 :: calls n)) :=
    Program.stacked_call (inF1_step n n) rfl
  refine ⟨inF2 n n, .f2 :: calls n, (inF1_stacked n n (Nat.le_refl n)).tail last, ?_⟩
  rw [List.length_cons, calls_length]
  omega

/-- The stack holds at most what was given control at all. -/
theorem depth_le {d : Nat} (mem : d ∈ Depths coro n) : d ≤ 2 * (n + 1) := by
  obtain ⟨s, l, reached, rfl⟩ := mem
  have ends : Completes coro.step (fun s => s = finished n) (start n) := completes n rfl
  have history : ∀ s', Completes coro.step (fun s => s = finished n) s' →
      s'.entered.length ≤ 2 * (n + 1) := by
    intro s' h
    induction h with
    | stop _ here =>
      rw [here]
      simp [finished, ended, turns]
    | next one _ ih => exact Nat.le_trans (Program.entered_le (.single one)) ih
  calc l.length
    _ ≤ s.entered.length := Program.stacked_le_entered reached (Nat.zero_le _)
    _ ≤ 2 * (n + 1) := history s (ends.later (Program.reaches_of_stacked reached))

end Coro1

namespace Coro2

/-- Whoever runs was called by the driver, or by `f1` which the driver called. -/
def calls : Option Coro → List Coro
  | none => []
  | some .f1 => [.f1]
  | some .f2 => [.f2, .f1]

variable {s : State Point Coro Memory} {status : Coro → Status} {h : Coro}

theorem driver_resumes {point next : Point} {m m' : Memory} {target : Option Coro}
    (command : coro2.drive point status m = .ok (.resume target, next, m')) :
    target = some .f1 := by
  cases point with
  | resume =>
    simp only [coro2, bind, Except.bind] at command
    cases ended : done status f1.coro with
    | error misuse =>
      rw [ended] at command
      cases command
    | ok ended' =>
      rw [ended] at command
      cases ended' with
      | false =>
        cases command
        rfl
      | true =>
        simp only [Bool.not_true, Bool.false_eq_true, if_false] at command
        split at command
        · cases command
        · split at command
          · cases command
          · cases command
  | _ => cases command

theorem driver_gives (control : s.control = none) (given : coro2.gives s = some (some h, status)) :
    h = .f1 := by
  unfold Program.gives at given
  simp only [control] at given
  split at given
  · rename_i target d m command
    cases given
    exact Option.some.inj (driver_resumes command)
  · cases given

theorem f1_gives (control : s.control = some .f1)
    (given : coro2.gives s = some (some h, status)) : h = .f2 := by
  unfold Program.gives at given
  simp only [control] at given
  split at given
  · rename_i target m body
    cases given
    have waits : counter f2 .f1 s.status s.memory = .ok (.transfer (some h), m) := body
    simp only [counter, f2, Task.fromPromise, Task.awaitSuspend, bind, Except.bind] at waits
    split at waits
    · cases waits
    · split at waits
      · cases waits
        rfl
      · cases waits
  · cases given

theorem f2_gives (control : s.control = some .f2) : coro2.gives s = none := by
  have body : coro2.body .f2 s.status s.memory = .ok (timer2 .f2 s.memory) := rfl
  unfold Program.gives
  simp only [control, body]
  by_cases more : s.memory.n ≠ 0
  · rw [timer2_suspends more]
  · rw [timer2_returns (not_not.mp more)]

/-- One step, from any state. -/
theorem calls_step {w w' : State Point Coro Memory × List Coro}
    (one : coro2.stacked w = .ok (some w')) (h : w.2 = calls w.1.control) :
    w'.2 = calls w'.1.control := by
  obtain ⟨ran, ⟨returned, empty⟩ | ⟨g, running, pushed⟩⟩ := Program.stacked_cases one
  · rw [returned, empty]
    rfl
  · rcases Program.step_entered ran with ⟨none, _⟩ | ⟨g', running', _, status, given⟩
    · rw [none] at running
      cases running
    · cases running.symm.trans running'
      rw [running, pushed, h]
      match control : w.1.control with
      | none =>
        rw [driver_gives control given]
        rfl
      | some .f1 =>
        rw [f1_gives control given]
        rfl
      | some .f2 =>
        rw [f2_gives control] at given
        cases given

theorem calls_run {w : State Point Coro Memory × List Coro} {n : Int}
    (reached : Reaches coro2.stacked (start n, []) w) : w.2 = calls w.1.control := by
  induction reached with
  | refl => rfl
  | tail _ one ih => exact calls_step one ih

theorem depth_le {n : Int} {d : Nat} (mem : d ∈ Depths coro2 n) : d ≤ 2 := by
  obtain ⟨s, l, reached, rfl⟩ := mem
  have here : l = calls s.control := calls_run reached
  rw [here]
  match s.control with
  | none => decide
  | some .f1 => decide
  | some .f2 => decide

theorem deepest (n : Nat) : 2 ∈ Depths coro2 n := by
  have reached : Reaches coro2.step (start n) (inF2 n 0) :=
    ((start_loop n).tail (loop_step n 0 none)).tail (inF1_step n 0 none)
  obtain ⟨l, stacked⟩ := Program.stacked_of_reaches reached []
  have here : l = calls (inF2 n 0).control := calls_run stacked
  exact ⟨_, l, stacked, by rw [here]; rfl⟩

end Coro2

/-- The stack that the countdown of `coro` exhausts, and the cut in `coro2`. -/
theorem nesting_cut (n : Nat) :
    IsGreatest (Depths coro n) (2 * (n + 1)) ∧ IsGreatest (Depths coro2 n) 2 := by
  constructor
  · exact ⟨Coro1.deepest n, fun _ mem => Coro1.depth_le n mem⟩
  · exact ⟨Coro2.deepest n, fun _ mem => Coro2.depth_le mem⟩

end Valor.Balor
