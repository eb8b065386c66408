import Mathlib.Data.List.Basic
import Valor.Lib.Completion

/-! Threads of control that run one at a time, in the order of a queue, until they let go of
control themselves. -/
namespace RoundRobin

/-- How a thread stops running: it goes to the back of the queue, waits for another thread
to be over, or is over. -/
inductive Ending (F : Type) where
  | yield
  | join (f : F)
  | exit

inductive Stuck where
  | deadlock

/-- What a thread does until it stops running, when the threads listed are over. -/
structure Program (F M : Type) where
  body : F → List F → M → Ending F × M

/-- `ran` is the history of the threads that were given control. -/
structure State (F M : Type) where
  ready : List F
  joining : List (F × F)
  finished : List F
  memory : M
  ran : List F

variable {F M : Type} [DecidableEq F]

namespace State

/-- Those who wait for a thread. -/
def waiters (s : State F M) (f : F) : List F :=
  (s.joining.filter fun w => w.2 = f).map Prod.fst

end State

namespace Program

def step (p : Program F M) (s : State F M) : Except Stuck (Option (State F M)) :=
  match s.ready with
  | [] => if s.joining.isEmpty then .ok none else .error .deadlock
  | f :: rest =>
    let (ending, m) := p.body f s.finished s.memory
    let s := { s with memory := m, ran := s.ran ++ [f] }
    match ending with
    | .yield => .ok (some { s with ready := rest ++ [f] })
    | .join g =>
      if g ∈ s.finished then .ok (some { s with ready := f :: rest })
      else .ok (some { s with ready := rest, joining := s.joining ++ [(f, g)] })
    | .exit => .ok (some { s with
        ready := rest ++ s.waiters f
        joining := s.joining.filter fun w => w.2 ≠ f
        finished := s.finished ++ [f] })

section rules

variable {p : Program F M} {s : State F M} {f g : F} {rest : List F} {m : M}

theorem step_yield (ready : s.ready = f :: rest) (body : p.body f s.finished s.memory = (.yield, m)) :
    p.step s = .ok (some { s with ready := rest ++ [f], memory := m, ran := s.ran ++ [f] }) := by
  simp only [step, ready, body]

theorem step_join (ready : s.ready = f :: rest) (body : p.body f s.finished s.memory = (.join g, m))
    (alive : g ∉ s.finished) : p.step s = .ok (some { s with
      ready := rest, joining := s.joining ++ [(f, g)], memory := m, ran := s.ran ++ [f] }) := by
  simp only [step, ready, body, if_neg alive]

theorem step_exit (ready : s.ready = f :: rest) (body : p.body f s.finished s.memory = (.exit, m)) :
    p.step s = .ok (some { s with
      ready := rest ++ s.waiters f, joining := s.joining.filter fun w => w.2 ≠ f
      finished := s.finished ++ [f], memory := m, ran := s.ran ++ [f] }) := by
  simp only [step, ready, body]
  rfl

end rules

end Program

end RoundRobin
