import Mathlib.Data.Set.Basic
import Valor.Lib.Reactive

/-! Control-flow graphs with await points, the variables live in them, and the run of
such a graph under a meaning of its nodes. A meaning may look at the locals a node reads
and at the history of the run, and at nothing else; awaits are answered from outside. -/
namespace Flow

open Reactive

/-- The locals: one value of its own type for each variable. -/
abbrev Store {Var : Type} (Val : Var → Type) := (x : Var) → Val x

def Agree {Var : Type} {Val : Var → Type} (xs : Set Var) (l m : Store Val) : Prop :=
  ∀ x ∈ xs, l x = m x

/-- What can be seen of a run: effects and awaits, in order. -/
inductive Event (Ev X : Type) where
  | effect (e : Ev)
  | await (x : X)
  deriving DecidableEq

abbrev History (Ev X : Type) := List (Event Ev X)

inductive Status (V F : Type) where
  | running | suspended
  | finished (v : V)
  | faulted (f : F)
  deriving DecidableEq

inductive Node (Pc Site Var : Type) where
  | code (reads writes : Set Var) (next : Pc) (others : List Pc)
  | await (s : Site)
  | ret (reads : Set Var)

/-- `operand` is read when an await suspends; `uses` and `binds` are read and written when
its result is bound. -/
structure Graph (Pc Site Var : Type) where
  entry : Pc
  node : Pc → Node Pc Site Var
  operand : Site → Set Var
  uses : Site → Set Var
  binds : Site → Set Var
  after : Site → Pc

variable {Pc Site Var : Type} {Val : Var → Type} {Ev X R V F : Type}

/-- The variable may be read from here on before it is written. -/
inductive Graph.Live (g : Graph Pc Site Var) (x : Var) : Pc → Prop where
  | read {p r w q qs} : g.node p = .code r w q qs → x ∈ r → g.Live x p
  | pass {p r w q qs q'} : g.node p = .code r w q qs → x ∉ w → q' ∈ q :: qs → g.Live x q' →
      g.Live x p
  | operand {p s} : g.node p = .await s → x ∈ g.operand s → g.Live x p
  | used {p s} : g.node p = .await s → x ∈ g.uses s → g.Live x p
  | resumed {p s} : g.node p = .await s → x ∉ g.binds s → g.Live x (g.after s) → g.Live x p
  | value {p r} : g.node p = .ret r → x ∈ r → g.Live x p

def Graph.live (g : Graph Pc Site Var) (p : Pc) : Set Var := {x | g.Live x p}

/-- What a run suspended at `s` still needs. -/
def Graph.liveAfter (g : Graph Pc Site Var) (s : Site) : Set Var :=
  {x | x ∈ g.uses s ∨ x ∉ g.binds s ∧ g.Live x (g.after s)}

structure Meaning (g : Graph Pc Site Var) (Val : Var → Type) (Ev X R V : Type) where
  effects : Pc → History Ev X → Store Val → List Ev
  assign : Pc → History Ev X → Store Val → Store Val
  branch : Pc → History Ev X → Store Val → Pc
  operand : Site → History Ev X → Store Val → X
  bind : Site → R → Store Val → Store Val
  value : Pc → History Ev X → Store Val → V
  effects_reads : ∀ {p r w q qs h l m}, g.node p = .code r w q qs → Agree r l m →
    effects p h l = effects p h m
  branch_reads : ∀ {p r w q qs h l m}, g.node p = .code r w q qs → Agree r l m →
    branch p h l = branch p h m
  branch_mem : ∀ {p r w q qs h l}, g.node p = .code r w q qs → branch p h l ∈ q :: qs
  assign_reads : ∀ {p r w q qs h l m}, g.node p = .code r w q qs → Agree r l m →
    Agree w (assign p h l) (assign p h m)
  assign_frame : ∀ {p r w q qs h l x}, g.node p = .code r w q qs → x ∉ w →
    assign p h l x = l x
  operand_reads : ∀ {s h l m}, Agree (g.operand s) l m → operand s h l = operand s h m
  bind_reads : ∀ {s r l m}, Agree (g.uses s) l m → Agree (g.binds s) (bind s r l) (bind s r m)
  bind_frame : ∀ {s r l x}, x ∉ g.binds s → bind s r l x = l x
  value_reads : ∀ {p r h l m}, g.node p = .ret r → Agree r l m → value p h l = value p h m

inductive State (Pc Site : Type) {Var : Type} (Val : Var → Type) (Ev X V : Type) where
  | running (p : Pc) (l : Store Val) (h : History Ev X)
  | waiting (s : Site) (l : Store Val) (h : History Ev X)
  | finished (v : V) (h : History Ev X)

def State.out : State Pc Site Val Ev X V → History Ev X × Status V F
  | .running _ _ h => (h, .running)
  | .waiting _ _ h => (h, .suspended)
  | .finished v h => (h, .finished v)

namespace Meaning

variable {g : Graph Pc Site Var} (m : Meaning g Val Ev X R V)

def execute (p : Pc) (l : Store Val) (h : History Ev X) : State Pc Site Val Ev X V :=
  match g.node p with
  | .code _ _ _ _ => .running (m.branch p h l) (m.assign p h l) (h ++ (m.effects p h l).map .effect)
  | .await s => .waiting s l (h ++ [.await (m.operand s h l)])
  | .ret _ => .finished (m.value p h l) h

def machine : Machine (State Pc Site Val Ev X V) R (History Ev X × Status V F) where
  turn
    | .running p l h => .step (m.execute p l h)
    | .waiting s l h => .wait fun r => .running (g.after s) (m.bind s r l) h
    | .finished _ _ => .halt
  out := State.out

variable {m} {p : Pc} {s : Site} {h : History Ev X} {l l' : Store Val}

theorem execute_code {r w q qs} (e : g.node p = .code r w q qs) : m.execute p l h =
    .running (m.branch p h l) (m.assign p h l) (h ++ (m.effects p h l).map .effect) := by
  simp only [execute, e]

theorem execute_await (e : g.node p = .await s) :
    m.execute p l h = .waiting s l (h ++ [.await (m.operand s h l)]) := by
  simp only [execute, e]

theorem execute_ret {r} (e : g.node p = .ret r) : m.execute p l h = .finished (m.value p h l) h := by
  simp only [execute, e]

/-- A step of code cannot tell stores apart that agree on what is live before it. -/
theorem code_agree {r w q qs} (e : g.node p = .code r w q qs) (agree : Agree (g.live p) l l') :
    m.effects p h l = m.effects p h l' ∧ m.branch p h l = m.branch p h l' ∧
      Agree (g.live (m.branch p h l)) (m.assign p h l) (m.assign p h l') := by
  have reads : Agree r l l' := fun x hx => agree x (.read e hx)
  refine ⟨m.effects_reads e reads, m.branch_reads e reads, fun x hx => ?_⟩
  by_cases hw : x ∈ w
  · exact m.assign_reads e reads x hw
  · have before : g.Live x p := .pass e hw (m.branch_mem e) hx
    rw [m.assign_frame e hw, m.assign_frame e hw]
    exact agree x before

theorem await_agree (e : g.node p = .await s) (agree : Agree (g.live p) l l') :
    m.operand s h l = m.operand s h l' ∧ Agree (g.liveAfter s) l l' := by
  refine ⟨m.operand_reads fun x hx => agree x (.operand e hx), fun x hx => ?_⟩
  rcases hx with hx | ⟨hb, hx⟩
  · exact agree x (.used e hx)
  · exact agree x (.resumed e hb hx)

theorem bind_agree {r : R} (agree : Agree (g.liveAfter s) l l') :
    Agree (g.live (g.after s)) (m.bind s r l) (m.bind s r l') := by
  intro x hx
  by_cases hb : x ∈ g.binds s
  · exact m.bind_reads (fun y hy => agree y (.inl hy)) x hb
  · rw [m.bind_frame hb, m.bind_frame hb]
    exact agree x (.inr ⟨hb, hx⟩)

theorem value_agree {r} (e : g.node p = .ret r) (agree : Agree (g.live p) l l') :
    m.value p h l = m.value p h l' :=
  m.value_reads e fun x hx => agree x (.value e hx)

end Meaning

end Flow
