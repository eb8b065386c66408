import Mathlib.Data.List.Range
import Valor.Balor.Tasks

/-! Where the two coroutines and their driver are, round by round. In `coro` they hand
control to each other; in `coro2` each round begins and ends with the driver. -/
namespace Valor.Balor

open Coroutines Completion

/-- The first `t` turns of two that alternate. -/
def turns {A : Type} (a b : A) (t : Nat) : List A :=
  (List.range t).map fun i => if i % 2 = 0 then a else b

theorem turns_succ {A : Type} (a b : A) (t : Nat) :
    turns a b (t + 1) = turns a b t ++ [if t % 2 = 0 then a else b] := by
  simp only [turns, List.range_succ, List.map_append, List.map_cons, List.map_nil]

@[simp] theorem turns_first {A : Type} (a b : A) (k : Nat) :
    turns a b (2 * k) ++ [a] = turns a b (2 * k + 1) := by
  rw [turns_succ, if_pos (by omega)]

@[simp] theorem turns_second {A : Type} (a b : A) (k : Nat) :
    turns a b (2 * k + 1) ++ [b] = turns a b (2 * (k + 1)) := by
  have odd : ¬ (2 * k + 1) % 2 = 0 := by omega
  have last := turns_succ a b (2 * k + 1)
  rw [if_neg odd] at last
  exact last.symm

/-- What the two coroutines have of something. -/
def pair {A : Type} (a b : A) : Coro → A
  | .f1 => a
  | .f2 => b

section pair

variable {A : Type} (a b c : A)

@[simp] theorem pair_f1 : pair a b .f1 = a := rfl

@[simp] theorem pair_f2 : pair a b .f2 = b := rfl

@[simp] theorem update_pair_f1 : Function.update (pair a b) .f1 c = pair c b := by
  funext h
  cases h <;> rfl

@[simp] theorem update_pair_f2 : Function.update (pair a b) .f2 c = pair a c := by
  funext h
  cases h <;> rfl

theorem const_eq_pair : (fun _ : Coro => a) = pair a a := by
  funext h
  cases h <;> rfl

end pair

section bodies

variable {status : Coro → Status} {m : Memory} {n : Int} {fr fr' : Frame} {o : Option (Nat × Nat)}

@[simp] theorem modify_f1 (g : Frame → Frame) :
    Memory.modify ⟨n, pair fr fr', o⟩ .f1 g = ⟨n, pair (g fr) fr', o⟩ := by
  simp only [Memory.modify, pair_f1, update_pair_f1]

@[simp] theorem modify_f2 (g : Frame → Frame) :
    Memory.modify ⟨n, pair fr fr', o⟩ .f2 g = ⟨n, pair fr (g fr'), o⟩ := by
  simp only [Memory.modify, pair_f2, update_pair_f2]

theorem counter_waits (st : status .f2 = .suspended) : counter f2 .f1 status m =
    .ok (.transfer (some .f2), (m.increment .f1).modify .f2 fun fr =>
      { fr with promise.then' := some .f1, marks := fr.marks ++ [.set] }) := by
  simp only [counter, f2, Task.fromPromise, done, st, Task.awaitSuspend]
  rfl

theorem counter_returns (st : status .f2 = .finished) :
    counter f2 .f1 status m = .ok (.finish, returnValue .f1 (m.increment .f1)) := by
  simp only [counter, f2, Task.fromPromise, done, st]
  rfl

theorem timer_yields (more : m.n ≠ 0) : timer .f2 m =
    (.transfer (m.frame .f2).promise.then', Memory.modify { m with n := m.n - 1 } .f2 fun fr =>
      { fr with promise.then' := none, marks := fr.marks ++ [.taken] }) := by
  simp only [timer, if_pos more, yielderAwaitSuspend]

theorem timer_ends (zero : m.n = 0) : timer .f2 m = (.finish, { m with n := m.n - 1 }) := by
  simp only [timer, zero, ne_eq, not_true_eq_false, if_false]

theorem timer2_suspends (more : m.n ≠ 0) :
    timer2 .f2 m = (.suspend, { m.increment .f2 with n := m.n - 1 }) := by
  have same : (m.increment .f2).n = m.n := rfl
  simp only [timer2, same, if_pos more]

theorem timer2_returns (zero : m.n = 0) :
    timer2 .f2 m = (.finish, returnValue .f2 { m.increment .f2 with n := m.n - 1 }) := by
  have same : (m.increment .f2).n = m.n := rfl
  simp only [timer2, same, zero, ne_eq, not_true_eq_false, if_false]

end bodies

/-- The memory while `f2` counts down. -/
def memory (n : Int) (c1 c2 : Nat) (then' : Option Coro) (marks : List Mark) : Memory :=
  ⟨n, pair ⟨⟨none, none⟩, c1, []⟩ ⟨⟨then', none⟩, c2, marks⟩, none⟩

theorem start_eq (n : Int) : start n =
    ⟨.makeF2, none, pair .absent .absent, memory n 0 0 none [], [], []⟩ := by
  simp only [start, memory, const_eq_pair]

/-- Both coroutines have been called, and are suspended at their starts. -/
def created (n : Int) : State Point Coro Memory :=
  ⟨.resume, none, pair .suspended .suspended, memory n 0 0 none [], [], []⟩

theorem start_created {p : Program Point Coro Memory}
    (first : ∀ status m, p.drive .makeF2 status m = .ok (.create .f2, .makeF1, m))
    (second : ∀ status m, p.drive .makeF1 status m = .ok (.create .f1, .resume, m)) (n : Int) :
    Reaches p.step (start n) (created n) := by
  have made2 := Program.step_create (p := p) (s := start n) rfl (first _ _) rfl
  have made1 := Program.step_create (p := p)
    (s := ⟨.makeF1, none, pair .absent .suspended, memory n 0 0 none [], [], []⟩) rfl
    (second _ _) rfl
  apply Reaches.next made2
  rw [start_eq]
  apply Reaches.next (t := created n) _ (Reaches.refl _)
  simpa [created] using made1

/-! ## `coro2` -/

namespace Coro2

def waits (k : Nat) : List Mark := List.replicate k .set

/-- The driver is about to resume `f1` for the `k + 1`st time. -/
def loop (n k : Nat) (then' : Option Coro) : State Point Coro Memory :=
  ⟨.resume, none, pair .suspended .suspended, memory (n - k) k k then' (waits k),
    turns .f1 .f2 (2 * k), []⟩

def inF1 (n k : Nat) (then' : Option Coro) : State Point Coro Memory :=
  ⟨.resume, some .f1, pair .running .suspended, memory (n - k) k k then' (waits k),
    turns .f1 .f2 (2 * k + 1), []⟩

def inF2 (n k : Nat) : State Point Coro Memory :=
  ⟨.resume, some .f2, pair .suspended .running,
    memory (n - k) (k + 1) k (some .f1) (waits (k + 1)), turns .f1 .f2 (2 * (k + 1)), []⟩

variable (n k : Nat) (then' : Option Coro)

theorem start_loop : Reaches coro2.step (start n) (loop n 0 none) := by
  have same : loop n 0 none = created n := by simp [loop, created, waits, turns]
  rw [same]
  exact start_created (fun _ _ => rfl) (fun _ _ => rfl) n

theorem loop_step : coro2.step (loop n k then') = .ok (some (inF1 n k then')) := by
  have one := Program.step_resume (p := coro2) (s := loop n k then') rfl rfl rfl
  simpa [loop, inF1] using one

theorem inF1_step : coro2.step (inF1 n k then') = .ok (some (inF2 n k)) := by
  have one := Program.step_transfer (p := coro2) (s := inF1 n k then') (g := .f2) rfl
    (counter_waits rfl) rfl
  simpa [inF1, inF2, memory, Memory.increment, waits, List.replicate_succ'] using one

theorem inF2_step (lt : k < n) : coro2.step (inF2 n k) = .ok (some (loop n (k + 1) (some .f1))) := by
  have more : (n : Int) - k ≠ 0 := by omega
  have body : coro2.body .f2 (inF2 n k).status (inF2 n k).memory = .ok (.suspend, _) :=
    congrArg Except.ok (timer2_suspends more)
  have one := Program.step_suspend (p := coro2) (s := inF2 n k) rfl body
  have left : (n : Int) - k - 1 = n - (k + 1 : Nat) := by omega
  simpa [inF2, loop, memory, Memory.increment, left] using one

/-- `f2` has returned. -/
def lastLoop : State Point Coro Memory :=
  ⟨.resume, none, pair .suspended .finished,
    ⟨-1, pair ⟨⟨none, none⟩, n + 1, []⟩ ⟨⟨some .f1, some (n + 1)⟩, n + 1, waits (n + 1)⟩, none⟩,
    turns .f1 .f2 (2 * (n + 1)), []⟩

def lastF1 : State Point Coro Memory :=
  { lastLoop n with
    control := some .f1, status := pair .running .finished
    entered := turns .f1 .f2 (2 * (n + 1) + 1) }

def returned : State Point Coro Memory :=
  { lastF1 n with
    control := none, status := pair .finished .finished
    memory.frame := pair ⟨⟨none, some (n + 2)⟩, n + 2, []⟩
      ⟨⟨some .f1, some (n + 1)⟩, n + 1, waits (n + 1)⟩ }

def dropped : State Point Coro Memory :=
  { returned n with
    driver := .dropF2, status := pair .destroyed .finished
    memory.printed := some (n + 2, n + 1), destroyed := [.f1] }

def finished : State Point Coro Memory :=
  { dropped n with
    driver := .finished, status := pair .destroyed .destroyed, destroyed := [.f1, .f2] }

theorem inF2_last : coro2.step (inF2 n n) = .ok (some (lastLoop n)) := by
  have zero : (n : Int) - n = 0 := Int.sub_self _
  have body : coro2.body .f2 (inF2 n n).status (inF2 n n).memory = .ok (.finish, _) :=
    congrArg Except.ok (timer2_returns zero)
  have one := Program.step_finish (p := coro2) (s := inF2 n n) rfl body
  simpa [inF2, lastLoop, memory, Memory.increment, returnValue] using one

theorem lastLoop_step : coro2.step (lastLoop n) = .ok (some (lastF1 n)) := by
  have one := Program.step_resume (p := coro2) (s := lastLoop n) rfl rfl rfl
  simpa [lastLoop, lastF1] using one

theorem lastF1_step : coro2.step (lastF1 n) = .ok (some (returned n)) := by
  have one := Program.step_finish (p := coro2) (s := lastF1 n) rfl (counter_returns rfl)
  simpa [lastF1, lastLoop, returned, Memory.increment, returnValue] using one

theorem returned_step : coro2.step (returned n) = .ok (some (dropped n)) := by
  have one := Program.step_destroy (p := coro2) (s := returned n) rfl rfl (.inr rfl)
  simpa [returned, lastF1, lastLoop, dropped] using one

theorem dropped_step : coro2.step (dropped n) = .ok (some (finished n)) := by
  have one := Program.step_destroy (p := coro2) (s := dropped n) rfl rfl (.inr rfl)
  simpa [returned, lastF1, lastLoop, dropped, finished] using one

theorem loop_round (lt : k < n) :
    Reaches coro2.step (loop n k then') (loop n (k + 1) (some .f1)) := by
  apply Reaches.next (loop_step n k then')
  apply Reaches.next (inF1_step n k then')
  exact Reaches.next (inF2_step n k lt) (Reaches.refl _)

theorem loop_reached (le : k ≤ n) :
    ∃ then', Reaches coro2.step (start n) (loop n k then') := by
  induction k with
  | zero => exact ⟨none, start_loop n⟩
  | succ k ih =>
    obtain ⟨then', reached⟩ := ih (Nat.le_of_succ_le le)
    exact ⟨some .f1, reached.trans (loop_round n k then' le)⟩

theorem finished_reached : Reaches coro2.step (start n) (finished n) := by
  obtain ⟨then', reached⟩ := loop_reached n n (Nat.le_refl n)
  apply reached.trans
  apply Reaches.next (loop_step n n then')
  apply Reaches.next (inF1_step n n then')
  apply Reaches.next (inF2_last n)
  apply Reaches.next (lastLoop_step n)
  apply Reaches.next (lastF1_step n)
  apply Reaches.next (returned_step n)
  exact Reaches.next (dropped_step n) (Reaches.refl _)

theorem completes {Q : State Point Coro Memory → Prop} (h : Q (finished n)) :
    Completes coro2.step Q (start n) := by
  have last : coro2.step (finished n) = .ok none := Program.step_return rfl rfl
  exact (Completes.stop last h).from_later (finished_reached n)

end Coro2

/-! ## `coro` -/

namespace Coro1

/-- Each wait is answered. -/
def answered : Nat → List Mark
  | 0 => []
  | k + 1 => answered k ++ [.set, .taken]

/-- `f1` runs for the `k + 1`st time. -/
def inF1 (n k : Nat) : State Point Coro Memory :=
  ⟨.dropF1, some .f1, pair .running .suspended, memory (n - k) k 0 none (answered k),
    turns .f1 .f2 (2 * k + 1), []⟩

def inF2 (n k : Nat) : State Point Coro Memory :=
  ⟨.dropF1, some .f2, pair .suspended .running,
    memory (n - k) (k + 1) 0 (some .f1) (answered k ++ [.set]), turns .f1 .f2 (2 * (k + 1)), []⟩

variable (n k : Nat)

/-- `f2` is at its end, and `f1` waits for it. -/
def ended : State Point Coro Memory :=
  ⟨.dropF1, none, pair .suspended .finished,
    memory (-1) (n + 1) 0 (some .f1) (answered n ++ [.set]), turns .f1 .f2 (2 * (n + 1)), []⟩

def dropped : State Point Coro Memory :=
  { ended n with driver := .dropF2, status := pair .destroyed .finished, destroyed := [.f1] }

def finished : State Point Coro Memory :=
  { ended n with
    driver := .finished, status := pair .destroyed .destroyed, destroyed := [.f1, .f2] }

theorem start_inF1 : Reaches coro.step (start n) (inF1 n 0) := by
  apply (start_created (p := coro) (fun _ _ => rfl) (fun _ _ => rfl) n).trans
  have resumed := Program.step_resume (p := coro) (s := created n) rfl rfl rfl
  apply Reaches.next (t := inF1 n 0) _ (Reaches.refl _)
  simpa [created, inF1, answered, turns] using resumed

theorem inF1_step : coro.step (inF1 n k) = .ok (some (inF2 n k)) := by
  have one := Program.step_transfer (p := coro) (s := inF1 n k) (g := .f2) rfl
    (counter_waits rfl) rfl
  simpa [inF1, inF2, memory, Memory.increment] using one

theorem inF2_step (lt : k < n) : coro.step (inF2 n k) = .ok (some (inF1 n (k + 1))) := by
  have more : (n : Int) - k ≠ 0 := by omega
  have body : coro.body .f2 (inF2 n k).status (inF2 n k).memory = .ok (.transfer (some .f1), _) :=
    congrArg Except.ok (timer_yields more)
  have one := Program.step_transfer (p := coro) (s := inF2 n k) (g := .f1) rfl body rfl
  have left : (n : Int) - k - 1 = n - (k + 1 : Nat) := by omega
  simpa [inF2, inF1, memory, left, answered] using one

theorem inF2_last : coro.step (inF2 n n) = .ok (some (ended n)) := by
  have zero : (n : Int) - n = 0 := Int.sub_self _
  have body : coro.body .f2 (inF2 n n).status (inF2 n n).memory = .ok (.finish, _) :=
    congrArg Except.ok (timer_ends zero)
  have one := Program.step_finish (p := coro) (s := inF2 n n) rfl body
  simpa [inF2, ended, memory] using one

theorem ended_step : coro.step (ended n) = .ok (some (dropped n)) := by
  have one := Program.step_destroy (p := coro) (s := ended n) rfl rfl (.inl rfl)
  simpa [ended, dropped] using one

theorem dropped_step : coro.step (dropped n) = .ok (some (finished n)) := by
  have one := Program.step_destroy (p := coro) (s := dropped n) rfl rfl (.inr rfl)
  simpa [ended, dropped, finished] using one

theorem inF1_reached (le : k ≤ n) : Reaches coro.step (start n) (inF1 n k) := by
  induction k with
  | zero => exact start_inF1 n
  | succ k ih =>
    apply (ih (Nat.le_of_succ_le le)).trans
    apply Reaches.next (inF1_step n k)
    exact Reaches.next (inF2_step n k le) (Reaches.refl _)

theorem finished_reached : Reaches coro.step (start n) (finished n) := by
  apply (inF1_reached n n (Nat.le_refl n)).trans
  apply Reaches.next (inF1_step n n)
  apply Reaches.next (inF2_last n)
  apply Reaches.next (ended_step n)
  exact Reaches.next (dropped_step n) (Reaches.refl _)

theorem completes {Q : State Point Coro Memory → Prop} (h : Q (finished n)) :
    Completes coro.step Q (start n) := by
  have last : coro.step (finished n) = .ok none := Program.step_return rfl rfl
  exact (Completes.stop last h).from_later (finished_reached n)

end Coro1

/-! ## Both -/

/-- In the history of a `then`, with or without a handle in it at first, nothing is taken
that was not set since the last time. -/
def OncePerSet : Bool → List Mark → Prop
  | _, [] => True
  | _, .set :: marks => OncePerSet true marks
  | armed, .taken :: marks => armed = true ∧ OncePerSet false marks

theorem oncePerSet_waits (armed : Bool) (k : Nat) : OncePerSet armed (Coro2.waits k) := by
  induction k generalizing armed with
  | zero => trivial
  | succ k ih => exact ih true

theorem oncePerSet_answered {marks : List Mark} (k : Nat) (h : OncePerSet false marks) :
    OncePerSet false (Coro1.answered k ++ marks) := by
  induction k generalizing marks with
  | zero => exact h
  | succ k ih =>
    rw [Coro1.answered, List.append_assoc]
    apply ih
    exact ⟨rfl, h⟩

/-- Nothing is misused in any step. The handle that control is given to, by an awaiter or by
the driver, is not null and refers to a coroutine that is suspended but not finished; what
is destroyed is suspended. No handle is taken twice from a promise, and in the end each
frame has been destroyed once. -/
structure Valid (p : Program Point Coro Memory) (n : Nat) : Prop where
  steps : ∀ s, Reaches p.step (start n) s → ∃ result, p.step s = .ok result
  gives : ∀ s, Reaches p.step (start n) s → ∀ target status, p.gives s = some (target, status) →
    ∃ h, target = some h ∧ status h = .suspended
  destroys : ∀ s, Reaches p.step (start n) s → ∀ h, p.destroys s = some h →
    s.status h = .suspended ∨ s.status h = .finished
  ends : Completes p.step (fun s => (∀ h, OncePerSet false (s.memory.frame h).marks) ∧
    ∀ h, s.destroyed.count h = 1) (start n)

theorem valid_of_completes {p : Program Point Coro Memory} {n : Nat}
    (ends : Completes p.step (fun s => (∀ h, OncePerSet false (s.memory.frame h).marks) ∧
      ∀ h, s.destroyed.count h = 1) (start n)) : Valid p n := by
  constructor
  · intro s reached
    exact ends.safe reached
  · intro s reached target status given
    obtain ⟨result, ok⟩ := ends.safe reached
    exact Program.gives_allowed ok given
  · intro s reached h given
    obtain ⟨result, ok⟩ := ends.safe reached
    exact Program.destroys_allowed ok given
  · exact ends

theorem transfers_valid (n : Nat) : Valid coro n ∧ Valid coro2 n := by
  constructor
  · apply valid_of_completes
    apply Coro1.completes
    constructor
    · intro h
      cases h with
      | f1 => trivial
      | f2 => exact oncePerSet_answered n trivial
    · intro h
      cases h <;> rfl
  · apply valid_of_completes
    apply Coro2.completes
    constructor
    · intro h
      cases h with
      | f1 => trivial
      | f2 => exact oncePerSet_waits false (n + 1)
    · intro h
      cases h <;> rfl

end Valor.Balor
