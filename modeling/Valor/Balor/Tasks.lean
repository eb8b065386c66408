import Valor.Lib.Coroutines

/-! The coroutines of the benchmark: `counter` waits for a second coroutine as long as that
is not done, and `timer` and `timer2` count down. -/
namespace Valor.Balor

open Coroutines Completion

/-- The two coroutines of a run, named as their owners are. -/
inductive Coro where
  | f1 | f2
  deriving DecidableEq

/-- What happens to the `then` of a promise. -/
inductive Mark where
  | set | taken
  deriving DecidableEq

structure PromiseType where
  then' : Option Coro
  val : Option Nat

/-- `c` is the local of the body; `marks` is the history of `then`. -/
structure Frame where
  promise : PromiseType
  c : Nat
  marks : List Mark

structure Memory where
  n : Int
  frame : Coro → Frame
  printed : Option (Nat × Nat)

namespace Memory

def modify (m : Memory) (h : Coro) (g : Frame → Frame) : Memory :=
  { m with frame := Function.update m.frame h (g (m.frame h)) }

def increment (m : Memory) (h : Coro) : Memory := m.modify h fun fr => { fr with c := fr.c + 1 }

end Memory

abbrev Fallible := Except (Misuse Coro)

structure Task where
  coro : Option Coro

namespace Task

/-- `get_return_object`. -/
def fromPromise (h : Coro) : Task := ⟨some h⟩

/-- `task::await_suspend`. -/
def awaitSuspend (t : Task) (h : Coro) (m : Memory) : Fallible (Option Coro × Memory) :=
  match t.coro with
  | none => .error .null
  | some coro => .ok (t.coro, m.modify coro fun fr =>
      { fr with promise.then' := some h, marks := fr.marks ++ [.set] })

def get (t : Task) (m : Memory) : Fallible Nat :=
  match t.coro with
  | none => .error .null
  | some coro =>
    match (m.frame coro).promise.val with
    | none => .error .unset
    | some val => .ok val

end Task

/-- `yielder::await_suspend`: the handle is taken out of the promise. -/
def yielderAwaitSuspend (h : Coro) (m : Memory) : Option Coro × Memory :=
  ((m.frame h).promise.then', m.modify h fun fr =>
    { fr with promise.then' := none, marks := fr.marks ++ [.taken] })

def returnValue (h : Coro) (m : Memory) : Memory :=
  m.modify h fun fr => { fr with promise.val := some fr.c }

/-- From its start, or from its `co_await`, to the next. -/
def counter (t : Task) (self : Coro) (status : Coro → Status) (m : Memory) :
    Fallible (Ending Coro × Memory) := do
  let m := m.increment self
  let done ← done status t.coro
  if !done then
    let (target, m) ← t.awaitSuspend self m
    return (.transfer target, m)
  else return (.finish, returnValue self m)

/-- The end of the body is taken to lead to the final suspension. -/
def timer (self : Coro) (m : Memory) : Ending Coro × Memory :=
  let n := m.n
  let m := { m with n := n - 1 }
  if n ≠ 0 then
    let (target, m) := yielderAwaitSuspend self m
    (.transfer target, m)
  else (.finish, m)

def timer2 (self : Coro) (m : Memory) : Ending Coro × Memory :=
  let m := m.increment self
  let n := m.n
  let m := { m with n := n - 1 }
  if n ≠ 0 then (.suspend, m) else (.finish, returnValue self m)

/-- Where `coro` and `coro2` are: the calls of the two coroutines, the resumption or the
loop of resumptions, and the destructors. -/
inductive Point where
  | makeF2 | makeF1 | resume | dropF1 | dropF2 | finished

def f1 : Task := .fromPromise .f1

def f2 : Task := .fromPromise .f2

/-- `~task`. -/
def drop (t : Task) (next : Point) (m : Memory) : Command Coro × Point × Memory :=
  match t.coro with
  | some h => (.destroy h, next, m)
  | none => (.skip, next, m)

def coro : Program Point Coro Memory where
  drive
    | .makeF2, _, m => .ok (.create .f2, .makeF1, m)
    | .makeF1, _, m => .ok (.create .f1, .resume, m)
    | .resume, _, m => .ok (.resume f1.coro, .dropF1, m)
    | .dropF1, _, m => .ok (drop f1 .dropF2 m)
    | .dropF2, _, m => .ok (drop f2 .finished m)
    | .finished, _, m => .ok (.return, .finished, m)
  body
    | .f1, status, m => counter f2 .f1 status m
    | .f2, _, m => .ok (timer .f2 m)

def coro2 : Program Point Coro Memory where
  drive
    | .makeF2, _, m => .ok (.create .f2, .makeF1, m)
    | .makeF1, _, m => .ok (.create .f1, .resume, m)
    | .resume, status, m => do
      let done ← done status f1.coro
      if !done then return (.resume f1.coro, .resume, m)
      else
        let c1 ← f1.get m
        let c2 ← f2.get m
        return drop f1 .dropF2 { m with printed := some (c1, c2) }
    | .dropF1, _, m => .ok (drop f1 .dropF2 m)
    | .dropF2, _, m => .ok (drop f2 .finished m)
    | .finished, _, m => .ok (.return, .finished, m)
  body
    | .f1, status, m => counter f2 .f1 status m
    | .f2, _, m => .ok (timer2 .f2 m)

def start (n : Int) : State Point Coro Memory :=
  ⟨.makeF2, none, fun _ => .absent, ⟨n, fun _ => ⟨⟨none, none⟩, 0, []⟩, none⟩, [], []⟩

end Valor.Balor
