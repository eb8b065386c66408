import Mathlib.Logic.Function.Basic
import Valor.Lib.Completion

/-! Coroutines that hand control to each other, and a driver that creates, resumes and
destroys them. Handles are of the type `H`; whatever the language leaves undefined about
them is a misuse. -/
namespace Coroutines

inductive Status where
  | absent | suspended | running | finished | destroyed
  deriving DecidableEq

inductive Misuse (H : Type) where
  | null
  | notCreated (h : H)
  | notSuspended (h : H)
  | finished (h : H)
  | destroyed (h : H)
  | createdTwice (h : H)
  | unset

/-- How a coroutine's body stops running: an awaiter returns a handle to go on with, or it
suspends and control goes back to whoever resumed it last, or it reaches its final
suspension, which does the same. -/
inductive Ending (H : Type) where
  | transfer (target : Option H)
  | suspend
  | finish

/-- What the driver does next about the coroutines. -/
inductive Command (H : Type) where
  | create (h : H)
  | resume (h : Option H)
  | destroy (h : H)
  | skip
  | return

structure Program (D H M : Type) where
  drive : D → (H → Status) → M → Except (Misuse H) (Command H × D × M)
  body : H → (H → Status) → M → Except (Misuse H) (Ending H × M)

/-- `control` is the coroutine that runs, or none while the driver does. `entered` and
`destroyed` are the history of the handles that were given control and destroyed. -/
structure State (D H M : Type) where
  driver : D
  control : Option H
  status : H → Status
  memory : M
  entered : List H
  destroyed : List H

/-- `coroutine_handle::done()`. -/
def done {H : Type} (status : H → Status) : Option H → Except (Misuse H) Bool
  | none => .error .null
  | some h =>
    match status h with
    | .suspended => .ok false
    | .finished => .ok true
    | .running => .error (.notSuspended h)
    | .absent => .error (.notCreated h)
    | .destroyed => .error (.destroyed h)

/-- Only a coroutine that is suspended, and not for good, may be given control. -/
def resumable {H : Type} (status : H → Status) : Option H → Except (Misuse H) H
  | none => .error .null
  | some h =>
    match status h with
    | .suspended => .ok h
    | .finished => .error (.finished h)
    | .running => .error (.notSuspended h)
    | .absent => .error (.notCreated h)
    | .destroyed => .error (.destroyed h)

def destructible {H : Type} (status : H → Status) (h : H) : Except (Misuse H) Unit :=
  match status h with
  | .suspended | .finished => .ok ()
  | .running => .error (.notSuspended h)
  | .absent => .error (.notCreated h)
  | .destroyed => .error (.destroyed h)

theorem resumable_iff {H : Type} (status : H → Status) (h : Option H) (h' : H) :
    resumable status h = .ok h' ↔ h = some h' ∧ status h' = .suspended := by
  cases h with
  | none => simp [resumable]
  | some h =>
    simp only [resumable, Option.some.injEq]
    cases st : status h with
    | suspended =>
      simp only [Except.ok.injEq]
      constructor
      · rintro rfl
        exact ⟨rfl, st⟩
      · exact And.left
    | _ =>
      simp only [reduceCtorEq, false_iff]
      rintro ⟨rfl, other⟩
      rw [st] at other
      cases other

/-- A coroutine may be destroyed where it is suspended, for good or not. -/
theorem destructible_iff {H : Type} (status : H → Status) (h : H) :
    destructible status h = .ok () ↔ status h = .suspended ∨ status h = .finished := by
  unfold destructible
  cases status h <;> simp

variable {D H M : Type} [DecidableEq H]

namespace State

def enter (s : State D H M) (h : Option H) : Except (Misuse H) (State D H M) := do
  let h ← resumable s.status h
  return { s with
    control := some h
    status := Function.update s.status h .running
    entered := s.entered ++ [h] }

def leave (s : State D H M) (h : H) (st : Status) : State D H M :=
  { s with control := none, status := Function.update s.status h st }

def create (s : State D H M) (h : H) : Except (Misuse H) (State D H M) :=
  if s.status h = .absent then .ok { s with status := Function.update s.status h .suspended }
  else .error (.createdTwice h)

def destroy (s : State D H M) (h : H) : Except (Misuse H) (State D H M) := do
  destructible s.status h
  return { s with
    status := Function.update s.status h .destroyed
    destroyed := s.destroyed ++ [h] }

end State

namespace Program

/-- The body of the coroutine that runs, up to its next suspension; or the driver, up to its
next command. -/
def step (p : Program D H M) (s : State D H M) : Except (Misuse H) (Option (State D H M)) :=
  match s.control with
  | some h => do
    let (ending, m) ← p.body h s.status s.memory
    let s := { s with memory := m }
    match ending with
    | .transfer target => (s.leave h .suspended).enter target |>.map some
    | .suspend => return some (s.leave h .suspended)
    | .finish => return some (s.leave h .finished)
  | none => do
    let (command, d, m) ← p.drive s.driver s.status s.memory
    let s := { s with driver := d, memory := m }
    match command with
    | .create h => s.create h |>.map some
    | .resume h => s.enter h |>.map some
    | .destroy h => s.destroy h |>.map some
    | .skip => return some s
    | .return => return none

/-- The handle that the step gives control to, and what is suspended when it does. -/
def gives (p : Program D H M) (s : State D H M) : Option (Option H × (H → Status)) :=
  match s.control with
  | some h =>
    match p.body h s.status s.memory with
    | .ok (.transfer target, _) => some (target, Function.update s.status h .suspended)
    | _ => none
  | none =>
    match p.drive s.driver s.status s.memory with
    | .ok (.resume h, _, _) => some (h, s.status)
    | _ => none

def destroys (p : Program D H M) (s : State D H M) : Option H :=
  match s.control with
  | some _ => none
  | none =>
    match p.drive s.driver s.status s.memory with
    | .ok (.destroy h, _, _) => some h
    | _ => none

/-! One rule for each thing a step may do. -/

section rules

variable {p : Program D H M} {s : State D H M} {h g : H} {d : D} {m : M}

theorem step_create (control : s.control = none)
    (command : p.drive s.driver s.status s.memory = .ok (.create h, d, m))
    (new : s.status h = .absent) : p.step s = .ok (some { s with
      driver := d, memory := m, status := Function.update s.status h .suspended }) := by
  simp only [step, control, command, bind, Except.bind, State.create, if_pos new, Except.map]

theorem step_resume (control : s.control = none)
    (command : p.drive s.driver s.status s.memory = .ok (.resume (some h), d, m))
    (suspended : s.status h = .suspended) : p.step s = .ok (some { s with
      driver := d, memory := m, control := some h
      status := Function.update s.status h .running, entered := s.entered ++ [h] }) := by
  have allowed := (resumable_iff s.status (some h) h).mpr ⟨rfl, suspended⟩
  simp only [step, control, command, bind, Except.bind, State.enter, allowed, Except.map, pure,
    Except.pure]

theorem step_destroy (control : s.control = none)
    (command : p.drive s.driver s.status s.memory = .ok (.destroy h, d, m))
    (stopped : s.status h = .suspended ∨ s.status h = .finished) : p.step s = .ok (some { s with
      driver := d, memory := m, status := Function.update s.status h .destroyed
      destroyed := s.destroyed ++ [h] }) := by
  have allowed := (destructible_iff s.status h).mpr stopped
  simp only [step, control, command, bind, Except.bind, State.destroy, allowed, Except.map, pure,
    Except.pure]

theorem step_return (control : s.control = none)
    (command : p.drive s.driver s.status s.memory = .ok (.return, d, m)) :
    p.step s = .ok none := by
  simp only [step, control, command, bind, Except.bind, pure, Except.pure]

theorem step_transfer (control : s.control = some h)
    (body : p.body h s.status s.memory = .ok (.transfer (some g), m))
    (suspended : Function.update s.status h .suspended g = .suspended) :
    p.step s = .ok (some { s with
      memory := m, control := some g
      status := Function.update (Function.update s.status h .suspended) g .running
      entered := s.entered ++ [g] }) := by
  have allowed := (resumable_iff _ (some g) g).mpr ⟨rfl, suspended⟩
  simp only [step, control, body, bind, Except.bind, State.enter, State.leave, allowed, Except.map,
    pure, Except.pure]

theorem step_suspend (control : s.control = some h)
    (body : p.body h s.status s.memory = .ok (.suspend, m)) : p.step s = .ok (some { s with
      memory := m, control := none, status := Function.update s.status h .suspended }) := by
  simp only [step, control, body, bind, Except.bind, State.leave, pure, Except.pure]

theorem step_finish (control : s.control = some h)
    (body : p.body h s.status s.memory = .ok (.finish, m)) : p.step s = .ok (some { s with
      memory := m, control := none, status := Function.update s.status h .finished }) := by
  simp only [step, control, body, bind, Except.bind, State.leave, pure, Except.pure]

/-! What is known of a step that is no misuse. -/

theorem enter_ok {target : Option H} {s s' : State D H M} (ok : s.enter target = .ok s') :
    ∃ h, target = some h ∧ s.status h = .suspended := by
  unfold State.enter at ok
  cases allowed : resumable s.status target with
  | error misuse =>
    rw [allowed] at ok
    cases ok
  | ok h => exact ⟨h, (resumable_iff s.status target h).mp allowed⟩

theorem map_some_ok {A E : Type} {x : Except E A} {r : Option A} (ok : x.map some = .ok r) :
    ∃ a, x = .ok a := by
  cases x with
  | error e => cases ok
  | ok a => exact ⟨a, rfl⟩

theorem gives_allowed {result : Option (State D H M)} (ok : p.step s = .ok result)
    {target : Option H} {status : H → Status} (given : p.gives s = some (target, status)) :
    ∃ h, target = some h ∧ status h = .suspended := by
  unfold gives at given
  cases control : s.control with
  | some h =>
    simp only [control] at given
    split at given
    · rename_i m body
      cases given
      simp only [step, control, body, bind, Except.bind] at ok
      obtain ⟨_, entered⟩ := map_some_ok ok
      exact enter_ok entered
    · cases given
  | none =>
    simp only [control] at given
    split at given
    · rename_i h d m command
      cases given
      simp only [step, control, command, bind, Except.bind] at ok
      obtain ⟨_, entered⟩ := map_some_ok ok
      have resumed := enter_ok entered
      exact resumed
    · cases given

theorem destroys_allowed {result : Option (State D H M)} (ok : p.step s = .ok result)
    (given : p.destroys s = some h) : s.status h = .suspended ∨ s.status h = .finished := by
  unfold destroys at given
  cases control : s.control with
  | some h =>
    simp only [control] at given
    cases given
  | none =>
    simp only [control] at given
    split at given
    · rename_i h d m command
      cases given
      simp only [step, control, command, bind, Except.bind, State.destroy] at ok
      cases allowed : destructible s.status h with
      | error misuse =>
        rw [allowed] at ok
        cases ok
      | ok _ => exact (destructible_iff s.status h).mp allowed
    · cases given

end rules

/-! ## Nested resumptions

Where a transfer is an ordinary call, made before the caller is out of its own suspension, what
was given control since the driver last had it is still on the stack. -/

/-- The step with that stack, the latest call first. -/
def stacked (p : Program D H M) (w : State D H M × List H) :
    Except (Misuse H) (Option (State D H M × List H)) :=
  (p.step w.1).map <| Option.map fun s =>
    match s.control with
    | some h => (s, h :: w.2)
    | none => (s, [])

section stacked

open Completion

variable {p : Program D H M} {s s' : State D H M} {l : List H} {w w' : State D H M × List H}

theorem stacked_call {h : H} (one : p.step s = .ok (some s')) (control : s'.control = some h) :
    p.stacked (s, l) = .ok (some (s', h :: l)) := by
  simp only [stacked, one, Except.map, Option.map_some, control]

theorem stacked_return (one : p.step s = .ok (some s')) (control : s'.control = none) :
    p.stacked (s, l) = .ok (some (s', [])) := by
  simp only [stacked, one, Except.map, Option.map_some, control]

theorem stacked_cases (one : p.stacked w = .ok (some w')) :
    p.step w.1 = .ok (some w'.1) ∧
      (w'.1.control = none ∧ w'.2 = [] ∨ ∃ h, w'.1.control = some h ∧ w'.2 = h :: w.2) := by
  unfold stacked at one
  cases ran : p.step w.1 with
  | error misuse =>
    rw [ran] at one
    cases one
  | ok next =>
    rw [ran] at one
    cases next with
    | none => cases one
    | some s =>
      simp only [Except.map, Option.map_some, Except.ok.injEq, Option.some.injEq] at one
      cases control : s.control with
      | none =>
        simp only [control] at one
        subst one
        exact ⟨rfl, .inl ⟨control, rfl⟩⟩
      | some h =>
        simp only [control] at one
        subst one
        exact ⟨rfl, .inr ⟨h, control, rfl⟩⟩

/-- The stack changes nothing. -/
theorem reaches_of_stacked (reached : Reaches p.stacked w w') : Reaches p.step w.1 w'.1 := by
  induction reached with
  | refl => exact Reaches.refl _
  | tail _ one ih => exact ih.tail (stacked_cases one).1

/-- With the driver in control nothing is on it. -/
theorem stacked_empty (reached : Reaches p.stacked w w') (empty : w.2 = [])
    (control : w'.1.control = none) : w'.2 = [] := by
  cases reached with
  | refl => exact empty
  | tail _ one =>
    obtain ⟨_, ⟨_, cleared⟩ | ⟨h, running, _⟩⟩ := stacked_cases one
    · exact cleared
    · rw [control] at running
      cases running

theorem stacked_of_reaches (reached : Reaches p.step s s') (l : List H) :
    ∃ l', Reaches p.stacked (s, l) (s', l') := by
  induction reached with
  | refl => exact ⟨l, Reaches.refl _⟩
  | @tail middle last _ one ih =>
    obtain ⟨l', before⟩ := ih
    cases control : last.control with
    | none => exact ⟨[], before.tail (stacked_return one control)⟩
    | some h => exact ⟨h :: l', before.tail (stacked_call one control)⟩

theorem enter_entered {target : Option H} (ok : s.enter target = .ok s') :
    ∃ h, target = some h ∧ s'.control = some h ∧ s'.entered = s.entered ++ [h] := by
  unfold State.enter at ok
  cases allowed : resumable s.status target with
  | error misuse =>
    rw [allowed] at ok
    cases ok
  | ok h =>
    rw [allowed] at ok
    cases ok
    exact ⟨h, ((resumable_iff s.status target h).mp allowed).1, rfl, rfl⟩

theorem map_some_eq {A E : Type} {x : Except E A} {a : A} (ok : x.map some = .ok (some a)) :
    x = .ok a := by
  cases x with
  | error e => cases ok
  | ok b =>
    cases ok
    rfl

/-- The history grows exactly where a coroutine is given control. -/
theorem step_entered (one : p.step s = .ok (some s')) :
    s'.control = none ∧ s'.entered = s.entered ∨
      ∃ h, s'.control = some h ∧ s'.entered = s.entered ++ [h] ∧
        ∃ status, p.gives s = some (some h, status) := by
  unfold step at one
  cases control : s.control with
  | some h =>
    simp only [control, bind, Except.bind] at one
    cases body : p.body h s.status s.memory with
    | error misuse =>
      rw [body] at one
      cases one
    | ok result =>
      obtain ⟨ending, m⟩ := result
      rw [body] at one
      cases ending with
      | transfer target =>
        right
        have given : (State.leave { s with control := some h, memory := m } h .suspended).enter
            target = .ok s' := map_some_eq one
        obtain ⟨g, rfl, running, longer⟩ := enter_entered given
        refine ⟨g, running, longer, Function.update s.status h .suspended, ?_⟩
        simp only [gives, control, body]
      | suspend =>
        cases one
        exact .inl ⟨rfl, rfl⟩
      | finish =>
        cases one
        exact .inl ⟨rfl, rfl⟩
  | none =>
    simp only [control, bind, Except.bind] at one
    cases drive : p.drive s.driver s.status s.memory with
    | error misuse =>
      rw [drive] at one
      cases one
    | ok result =>
      obtain ⟨command, d, m⟩ := result
      rw [drive] at one
      cases command with
      | create h =>
        left
        have made := map_some_eq one
        unfold State.create at made
        split at made
        · cases made
          exact ⟨rfl, rfl⟩
        · cases made
      | resume target =>
        right
        have given : State.enter { s with driver := d, control := none, memory := m } target =
            .ok s' := map_some_eq one
        obtain ⟨g, rfl, running, longer⟩ := enter_entered given
        refine ⟨g, running, longer, s.status, ?_⟩
        simp only [gives, control, drive]
      | destroy h =>
        left
        have gone := map_some_eq one
        unfold State.destroy at gone
        cases allowed : destructible s.status h with
        | error misuse =>
          simp only [allowed, bind, Except.bind] at gone
          cases gone
        | ok _ =>
          simp only [allowed, bind, Except.bind] at gone
          cases gone
          exact ⟨rfl, rfl⟩
      | skip =>
        cases one
        exact .inl ⟨rfl, rfl⟩
      | «return» => cases one

/-- Nothing is on the stack that was not given control. -/
theorem stacked_le_entered (reached : Reaches p.stacked w w')
    (le : w.2.length ≤ w.1.entered.length) : w'.2.length ≤ w'.1.entered.length := by
  induction reached with
  | refl => exact le
  | tail _ one ih =>
    obtain ⟨ran, ⟨_, empty⟩ | ⟨h, control, pushed⟩⟩ := stacked_cases one
    · rw [empty]
      exact Nat.zero_le _
    · rcases step_entered ran with ⟨none, _⟩ | ⟨g, _, longer, _⟩
      · rw [none] at control
        cases control
      · rw [pushed, longer, List.length_append, List.length_cons, List.length_singleton]
        exact Nat.succ_le_succ ih

theorem entered_le (reached : Reaches p.step s s') : s.entered.length ≤ s'.entered.length := by
  induction reached with
  | refl => exact Nat.le_refl _
  | tail _ one ih =>
    apply Nat.le_trans ih
    rcases step_entered one with ⟨_, same⟩ | ⟨h, _, longer, _⟩
    · exact Nat.le_of_eq (congrArg List.length same.symm)
    · rw [longer, List.length_append]
      exact Nat.le_add_right _ _

end stacked

end Program

end Coroutines
