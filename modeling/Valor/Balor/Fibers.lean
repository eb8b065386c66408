import Valor.Lib.RoundRobin
import Valor.Balor.Transfers

/-! The benchmark with fibers. Both fibers look at one countdown. -/
namespace Valor.Balor

open RoundRobin Completion

namespace Fibers

inductive Fiber where
  | main | f1 | f2
  deriving DecidableEq

structure Memory where
  n : Int
  c1 : Nat
  c2 : Nat
  printed : Option (Nat × Nat)

def runF1 (m : Memory) : Ending Fiber × Memory :=
  let m := { m with c1 := m.c1 + 1 }
  if m.n ≥ 0 then (.yield, m) else (.exit, m)

def runF2 (m : Memory) : Ending Fiber × Memory :=
  let m := { m with c2 := m.c2 + 1 }
  let n := m.n
  let m := { m with n := n - 1 }
  if n ≠ 0 then (.yield, m) else (.exit, m)

/-- `f1.join(), f2.join()`, and the output. -/
def runMain (finished : List Fiber) (m : Memory) : Ending Fiber × Memory :=
  if .f1 ∉ finished then (.join .f1, m)
  else if .f2 ∉ finished then (.join .f2, m)
  else (.exit, { m with printed := some (m.c1, m.c2) })

def fibers : RoundRobin.Program Fiber Memory where
  body
    | .main, finished, m => runMain finished m
    | .f1, _, m => runF1 m
    | .f2, _, m => runF2 m

/-- The main fiber has created the two others, in this order. -/
def start (n : Int) : RoundRobin.State Fiber Memory :=
  ⟨[.main, .f1, .f2], [], [], ⟨n, 0, 0, none⟩, []⟩

variable (n k : Nat)

/-- Each has had `k` turns. -/
def loop : RoundRobin.State Fiber Memory :=
  ⟨[.f1, .f2], [(.main, .f1)], [], ⟨n - k, k, k, none⟩, .main :: turns .f1 .f2 (2 * k)⟩

def half : RoundRobin.State Fiber Memory :=
  ⟨[.f2, .f1], [(.main, .f1)], [], ⟨n - k, k + 1, k, none⟩, .main :: turns .f1 .f2 (2 * k + 1)⟩

/-- `f2` is over. -/
def lastF1 : RoundRobin.State Fiber Memory :=
  ⟨[.f1], [(.main, .f1)], [.f2], ⟨-1, n + 1, n + 1, none⟩, .main :: turns .f1 .f2 (2 * (n + 1))⟩

def joined : RoundRobin.State Fiber Memory :=
  ⟨[.main], [], [.f2, .f1], ⟨-1, n + 2, n + 1, none⟩, .main :: turns .f1 .f2 (2 * (n + 1) + 1)⟩

def finished : RoundRobin.State Fiber Memory :=
  ⟨[], [], [.f2, .f1, .main], ⟨-1, n + 2, n + 1, some (n + 2, n + 1)⟩,
    .main :: turns .f1 .f2 (2 * (n + 1) + 1) ++ [.main]⟩

theorem start_step : fibers.step (start n) = .ok (some (loop n 0)) := by
  have one := Program.step_join (p := fibers) (s := start n) rfl rfl List.not_mem_nil
  simpa [start, loop, turns] using one

theorem loop_step (le : k ≤ n) : fibers.step (loop n k) = .ok (some (half n k)) := by
  have more : (n : Int) - k ≥ 0 := by omega
  have one := Program.step_yield (p := fibers) (s := loop n k) rfl (if_pos more)
  simpa [loop, half] using one

theorem half_step (lt : k < n) : fibers.step (half n k) = .ok (some (loop n (k + 1))) := by
  have more : (n : Int) - k ≠ 0 := by omega
  have one := Program.step_yield (p := fibers) (s := half n k) rfl (if_pos more)
  have left : (n : Int) - k - 1 = n - (k + 1 : Nat) := by omega
  simpa [half, loop, left] using one

theorem half_last : fibers.step (half n n) = .ok (some (lastF1 n)) := by
  have zero : ¬ (n : Int) - n ≠ 0 := by omega
  have one := Program.step_exit (p := fibers) (s := half n n) rfl (if_neg zero)
  simpa [half, lastF1, State.waiters] using one

theorem lastF1_step : fibers.step (lastF1 n) = .ok (some (joined n)) := by
  have one := Program.step_exit (p := fibers) (s := lastF1 n) rfl rfl
  simpa [lastF1, joined, State.waiters] using one

theorem joined_step : fibers.step (joined n) = .ok (some (finished n)) := by
  have one := Program.step_exit (p := fibers) (s := joined n) rfl rfl
  simpa [joined, finished, State.waiters] using one

theorem loop_reached (le : k ≤ n) : Reaches fibers.step (start n) (loop n k) := by
  induction k with
  | zero => exact Reaches.next (start_step n) (Reaches.refl _)
  | succ k ih =>
    apply (ih (Nat.le_of_succ_le le)).trans
    apply Reaches.next (loop_step n k (Nat.le_of_succ_le le))
    exact Reaches.next (half_step n k le) (Reaches.refl _)

theorem finished_reached : Reaches fibers.step (start n) (finished n) := by
  apply (loop_reached n n (Nat.le_refl n)).trans
  apply Reaches.next (loop_step n n (Nat.le_refl n))
  apply Reaches.next (half_last n)
  apply Reaches.next (lastF1_step n)
  exact Reaches.next (joined_step n) (Reaches.refl _)

theorem completes {Q : RoundRobin.State Fiber Memory → Prop} (h : Q (finished n)) :
    Completes fibers.step Q (start n) :=
  (Completes.stop (s := finished n) rfl h).from_later (finished_reached n)

end Fibers

/-- After every round both programs have counted the same. -/
theorem rounds_agree {n k : Nat} (le : k ≤ n) : ∃ s s', Reaches coro2.step (start n) s ∧
    Reaches Fibers.fibers.step (Fibers.start n) s' ∧ s.memory.n = s'.memory.n ∧
    (s.memory.frame .f1).c = s'.memory.c1 ∧ (s.memory.frame .f2).c = s'.memory.c2 ∧
    s.memory.n + k = n ∧ s.entered = turns .f1 .f2 (2 * k) ∧
    s'.ran = .main :: turns .f1 .f2 (2 * k) := by
  obtain ⟨then', reached⟩ := Coro2.loop_reached n k le
  have left : (n : Int) - k + k = n := by omega
  exact ⟨_, _, reached, Fibers.loop_reached n k le, rfl, rfl, rfl, left, rfl, rfl⟩

/-- Two alternating parties and what is printed of their counts; the main fiber comes before
and after them. -/
theorem same_work (n : Nat) :
    Completes coro2.step (fun s => s.memory.printed = some (n + 2, n + 1) ∧
      s.entered = turns .f1 .f2 (2 * n + 3)) (start n) ∧
    Completes Fibers.fibers.step (fun s => s.memory.printed = some (n + 2, n + 1) ∧
      s.ran = .main :: turns .f1 .f2 (2 * n + 3) ++ [.main]) (Fibers.start n) :=
  ⟨Coro2.completes n ⟨rfl, rfl⟩, Fibers.completes n ⟨rfl, rfl⟩⟩

end Valor.Balor
