import Valor.Runtime.Promise

/-! Coroutine frames and the instructions their bodies consist of. A program is any
control-flow graph over these; `k` and the output of Valet are instances. -/
namespace Valor

open Reactive Flow

variable {Pc Var : Type} {Val : Var → Type} {View Ev X R V : Type}

/-- User code is any function of the locals and of what happened before; it yields its
effects, the new locals and the next control point. `bind` consumes an await's result. -/
inductive Instr (Pc : Type) {Var : Type} (Val : Var → Type) (Ev X R V : Type) where
  | code (f : History Ev X → Store Val → List Ev × Store Val × Pc)
  | dispatch (assertLe : Option Nat) (table : List Pc) (start : Pc)
  | save (n : Nat) (vars : List Var) (next : Pc)
  | resize (n : Nat) (next : Pc)
  | load (vars : List Var) (next : Pc)
  | coawait (x : History Ev X → Store Val → X) (bind : R → Store Val → Store Val) (next : Pc)
  | guarded (i : Nat) (x : History Ev X → Store Val → X) (bind : R → Store Val → Store Val)
      (next : Pc)
  | coreturn (v : History Ev X → Store Val → V)

structure Program (Pc : Type) {Var : Type} (Val : Var → Type) (Ev X R V : Type) where
  entry : Pc
  params : List Var
  fetch : Pc → Instr Pc Val Ev X R V

structure Config (Pc : Type) {Var : Type} (Val : Var → Type) (Ev X R : Type) where
  pc : Pc
  locals : Store Val
  promise : Promise X R
  hist : History Ev X

inductive State (Pc : Type) {Var : Type} (Val : Var → Type) (Ev X R V : Type) where
  | created (c : Config Pc Val Ev X R)
  | running (c : Config Pc Val Ev X R)
  | suspended (c : Config Pc Val Ev X R) (a : Stored X R) (bind : R → Store Val → Store Val)
      (next : Pc)
  | finished (v : V) (hist : History Ev X)
  | faulted (f : Fault) (hist : History Ev X)

def State.out : State Pc Val Ev X R V → History Ev X × Status V Fault
  | .created c => (c.hist, .suspended)
  | .running c => (c.hist, .running)
  | .suspended c _ _ _ => (c.hist, .suspended)
  | .finished v h => (h, .finished v)
  | .faulted f h => (h, .faulted f)

/-- What the owner of a suspended coroutine does with it: resume it in place, the awaiter
answering `r`, or serialize and drop it and call `continue_from` with some results. The
locals of the new frame that are not parameters start as `junk`. -/
inductive Move {Var : Type} (Val : Var → Type) (R : Type) where
  | resume (r : R)
  | migrate (results : List R) (junk : Store Val)

section
variable [DecidableEq Var]

/-- A call of the coroutine function: the body waits at the initial suspension. -/
def Program.create (prog : Program Pc Val Ev X R V) (args junk : Store Val)
    (h : History Ev X) : Config Pc Val Ev X R :=
  ⟨prog.entry, overlay prog.params args junk, .initial, h⟩

def setAwRet (p : Promise X R) (r : R) : Promise X R :=
  { p with aw := p.aw.put (some (.result r)) }

def deserialize (p : Promise X R) (s : List UInt8) : Promise X R := { p with state := s }

/-- The promise of the coroutine that `continue_from` is about to start. -/
def restored (p : Promise X R) (ser : List UInt8) (results : List R) : Promise X R :=
  let p := deserialize p ser
  results.foldl setAwRet { p with aw := p.aw.resize results.length }

def continueFrom [∀ x, Inhabited (Val x)] (prog : Program Pc Val Ev X R V) (ser : List UInt8)
    (results : List R) (junk : Store Val) (h : History Ev X) : Config Pc Val Ev X R :=
  let c := prog.create (fun _ => default) junk h
  { c with promise := restored c.promise ser results }

/-- A `co_await` always suspends here: one that is ready at once is resumed at once. -/
def suspend (x : History Ev X → Store Val → X) (bind : R → Store Val → Store Val) (next : Pc)
    (c : Config Pc Val Ev X R) : State Pc Val Ev X R V :=
  let x := x c.hist c.locals
  let t := c.promise.awaitTransform x
  .suspended { c with promise := t.2, hist := c.hist ++ [.await x] } t.1 bind next

/-- One instruction. `ndebug` tells whether assertions are compiled out. -/
def execute (u : Ufser Val View) (ndebug : Bool) (c : Config Pc Val Ev X R) :
    Instr Pc Val Ev X R V → State Pc Val Ev X R V
  | .code f =>
    let t := f c.hist c.locals
    .running { c with pc := t.2.2, locals := t.2.1, hist := c.hist ++ t.1.map .effect }
  | .dispatch assertLe table start =>
    match c.promise.stage u with
    | .error f => .faulted f c.hist
    | .ok 0 => .running { c with pc := start }
    | .ok st =>
      if !ndebug && assertLe.any (· < st) then .faulted .abort c.hist
      else match table[st]? with
        | some pc => .running { c with pc := pc }
        | none => .faulted .undefined c.hist
  | .save n vars next => .running { c with pc := next, promise := c.promise.save u n vars c.locals }
  | .resize n next => .running { c with pc := next, promise.aw := c.promise.aw.resize n }
  | .load vars next =>
    match c.promise.load u vars c.locals with
    | .ok l => .running { c with pc := next, locals := l }
    | .error f => .faulted f c.hist
  | .coawait x bind next => suspend x bind next c
  | .guarded i x bind next =>
    if c.promise.aw.has i then
      match c.promise.aw.getAs i with
      | .ok r => .running { c with pc := next, locals := bind r c.locals }
      | .error f => .faulted f c.hist
    else suspend x bind next c
  | .coreturn v => .finished (v c.hist c.locals) c.hist

/-- `operator()` on a coroutine suspended at a `co_await` whose awaiter answers `r`. -/
def resume (c : Config Pc Val Ev X R) (a : Stored X R) (bind : R → Store Val → Store Val)
    (next : Pc) (r : R) : State Pc Val Ev X R V :=
  match a.awaitResume c.promise.aw with
  | .ok _ => .running { c with pc := next, locals := bind r c.locals }
  | .error f => .faulted f c.hist

variable [∀ x, Inhabited (Val x)]

def answer (prog : Program Pc Val Ev X R V) (c : Config Pc Val Ev X R)
    (resume : R → State Pc Val Ev X R V) : Move Val R → State Pc Val Ev X R V
  | .resume r => resume r
  | .migrate results junk => .running (continueFrom prog c.promise.state results junk c.hist)

/-- The machine of a coroutine and of the processes it moves through. -/
def machine (u : Ufser Val View) (ndebug : Bool) (prog : Program Pc Val Ev X R V) :
    Machine (State Pc Val Ev X R V) (Move Val R) (History Ev X × Status V Fault) where
  turn
    | .created c => .wait (answer prog c fun _ => .running c)
    | .running c => .step (execute u ndebug c (prog.fetch c.pc))
    | .suspended c a bind next => .wait (answer prog c (resume c a bind next))
    | .finished _ _ => .halt
    | .faulted _ _ => .halt
  out := State.out

/-- An observation of the run of `start(fun(args))` under the moves `ms`. -/
def Program.Observes (u : Ufser Val View) (ndebug : Bool) (prog : Program Pc Val Ev X R V)
    (args junk : Store Val) (ms : List (Move Val R)) (o : History Ev X × Status V Fault) : Prop :=
  (machine u ndebug prog).Observes ms (.running (prog.create args junk [])) o

end

theorem restored_state (p : Promise X R) (ser : List UInt8) (results : List R) :
    (restored p ser results).state = ser := by
  have fold : ∀ q : Promise X R, (results.foldl setAwRet q).state = q.state := by
    induction results with
    | nil => exact fun _ => rfl
    | cons r rs ih => exact fun q => (ih (setAwRet q r)).trans rfl
  exact fold _

theorem restored_elems (p : Promise X R) (ser : List UInt8) (results : List R) :
    (restored p ser results).aw.elems = results.map fun r => some (.result r) := by
  have fold : ∀ q : Promise X R, (results.foldl setAwRet q).aw.elems =
      q.aw.elems ++ results.map fun r => some (.result r) := by
    induction results with
    | nil => exact fun _ => (List.append_nil _).symm
    | cons r rs ih => exact fun q => by simp [ih, setAwRet]
  exact fold _

end Valor
