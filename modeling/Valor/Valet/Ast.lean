import Mathlib.Data.List.Basic
import Mathlib.Data.List.Perm.Basic
import Mathlib.Data.List.Nodup

/-! What Valet's matchers see of a function: its compounds, variables, nested functions and
`co_await`s. The nodes are numbered in the order of the text, and a node's number is both
its identity and where it begins. -/
namespace Valor.Valet

/-- How a variable is declared: with a type of its own, after the previous declarator of the
same declaration, or as the variable of a range-`for`. -/
inductive Declarator where
  | first | joined | range
  deriving DecidableEq

/-- A list of sibling nodes. A `node` is any statement or expression that holds others: a
`for`, `if`, `while` or `switch` with the declarations of its header before the rest, a
`catch` with its variable, a substatement. The initializer of a range variable is the
range. -/
inductive Forest where
  | nil
  | compound (body rest : Forest)
  | var (how : Declarator) (name : String) (init rest : Forest)
  | function (params : List String) (body rest : Forest)
  | coawait (operand rest : Forest)
  | node (children rest : Forest)
  deriving DecidableEq

def Forest.size : Forest → Nat
  | nil => 0
  | compound body rest => 1 + body.size + rest.size
  | var _ _ init rest => 1 + init.size + rest.size
  | function params body rest => 1 + params.length + body.size + rest.size
  | coawait operand rest => 1 + operand.size + rest.size
  | node children rest => 1 + children.size + rest.size

/-- `start` is `getBeginLoc()`, which the declarators of one declaration share, and `block`
the nearest compound around the declaration. -/
structure VarDecl where
  at' : Nat
  start : Nat
  block : Nat
  parm : Bool
  name : String
  deriving DecidableEq

/-- `blocks` are the compounds around the expression. -/
structure CoawaitExpr where
  at' : Nat
  blocks : List Nat
  nested : Bool
  deriving DecidableEq

def Declarator.start : Declarator → Nat → Nat → Nat
  | joined, _, prev => prev
  | first, n, _ | range, n, _ => n

/-- The variable at `n` in the block `blk`, after a declarator that begins at `prev`. -/
def Declarator.decl (how : Declarator) (n blk prev : Nat) (name : String) : VarDecl :=
  ⟨n, how.start n prev, blk, false, name⟩

def parmDecls (n blk : Nat) : List String → List VarDecl
  | [] => []
  | name :: names => ⟨n, n, blk, true, name⟩ :: parmDecls (n + 1) blk names

namespace Forest

/-- `findAll(varDecl())`. The body of a nested function is a block of its own. -/
def findVars : Forest → Nat → Nat → Nat → List VarDecl
  | nil, _, _, _ => []
  | compound body rest, n, blk, _ =>
    body.findVars (n + 1) n (n + 1) ++
      rest.findVars (n + 1 + body.size) blk (n + 1 + body.size)
  | var how name init rest, n, blk, prev =>
    how.decl n blk prev name :: (init.findVars (n + 1) blk (n + 1) ++
      rest.findVars (n + 1 + init.size) blk (how.start n prev))
  | function params body rest, n, blk, _ =>
    parmDecls (n + 1) n params ++
      (body.findVars (n + 1 + params.length) n (n + 1 + params.length) ++
        rest.findVars (n + 1 + params.length + body.size) blk
          (n + 1 + params.length + body.size))
  | coawait operand rest, n, blk, _ =>
    operand.findVars (n + 1) blk (n + 1) ++
      rest.findVars (n + 1 + operand.size) blk (n + 1 + operand.size)
  | node children rest, n, blk, _ =>
    children.findVars (n + 1) blk (n + 1) ++
      rest.findVars (n + 1 + children.size) blk (n + 1 + children.size)

/-- `findAll(coawaitExpr())`. -/
def findAwaits : Forest → Nat → List Nat → Bool → List CoawaitExpr
  | nil, _, _, _ => []
  | compound body rest, n, blocks, nested =>
    body.findAwaits (n + 1) (n :: blocks) nested ++
      rest.findAwaits (n + 1 + body.size) blocks nested
  | var _ _ init rest, n, blocks, nested =>
    init.findAwaits (n + 1) blocks nested ++ rest.findAwaits (n + 1 + init.size) blocks nested
  | function params body rest, n, blocks, nested =>
    body.findAwaits (n + 1 + params.length) (n :: blocks) true ++
      rest.findAwaits (n + 1 + params.length + body.size) blocks nested
  | coawait operand rest, n, blocks, nested =>
    ⟨n, blocks, nested⟩ :: (operand.findAwaits (n + 1) blocks nested ++
      rest.findAwaits (n + 1 + operand.size) blocks nested)
  | node children rest, n, blocks, nested =>
    children.findAwaits (n + 1) blocks nested ++
      rest.findAwaits (n + 1 + children.size) blocks nested

end Forest

/-- A coroutine function. It is the node 0, and so is the compound that is its body. -/
structure FunctionDecl where
  params : List String
  body : Forest
  deriving DecidableEq

namespace FunctionDecl

def start (f : FunctionDecl) : Nat := 1 + f.params.length

def parms (f : FunctionDecl) : List VarDecl := parmDecls 1 0 f.params

def vars (f : FunctionDecl) : List VarDecl :=
  f.parms ++ f.body.findVars f.start 0 f.start

def awaits (f : FunctionDecl) : List CoawaitExpr := f.body.findAwaits f.start [0] false

/-- The `co_await`s whose innermost enclosing function is `f`. -/
def ownAwaits (f : FunctionDecl) : List CoawaitExpr := f.awaits.filter fun aw => !aw.nested

end FunctionDecl

/-! ## Where the nodes are -/

/-- Increasing positions from `n` up to `m`. -/
def Spans (n m : Nat) (ks : List Nat) : Prop :=
  (∀ k ∈ ks, n ≤ k ∧ k < m) ∧ ks.Pairwise (· < ·)

theorem Spans.nil (n m : Nat) : Spans n m [] := ⟨by simp, List.Pairwise.nil⟩

theorem Spans.append {n m k : Nat} {ks ls : List Nat} (left : Spans n m ks)
    (right : Spans m k ls) (le : n ≤ m) (le' : m ≤ k) : Spans n k (ks ++ ls) := by
  constructor
  · intro x mem
    rcases List.mem_append.mp mem with here | here
    · have := left.1 x here
      omega
    · have := right.1 x here
      omega
  · refine List.pairwise_append.mpr ⟨left.2, right.2, fun x hx y hy => ?_⟩
    have := left.1 x hx
    have := right.1 y hy
    omega

theorem Spans.cons {n m : Nat} {ks : List Nat} (h : Spans (n + 1) m ks) (lt : n < m) :
    Spans n m (n :: ks) :=
  Spans.append ⟨by simp, List.pairwise_singleton _ _⟩ h (Nat.le_succ n) lt

theorem Spans.widen {n n' m m' : Nat} {ks : List Nat} (h : Spans n' m' ks) (le : n ≤ n')
    (le' : m' ≤ m) : Spans n m ks :=
  ⟨fun k mem => ⟨Nat.le_trans le (h.1 k mem).1, Nat.lt_of_lt_of_le (h.1 k mem).2 le'⟩, h.2⟩

theorem Spans.nodup {n m : Nat} {ks : List Nat} (h : Spans n m ks) : ks.Nodup :=
  h.2.imp fun lt => Nat.ne_of_lt lt

theorem parmDecls_spans (n blk : Nat) (names : List String) :
    Spans n (n + names.length) ((parmDecls n blk names).map VarDecl.at') := by
  induction names generalizing n with
  | nil => exact Spans.nil _ _
  | cons name names ih =>
    have tail := ih (n + 1)
    rw [Nat.add_right_comm, Nat.add_assoc] at tail
    exact tail.cons (by simp)

theorem parmDecls_spec (n blk : Nat) (names : List String) : ∀ v ∈ parmDecls n blk names,
    n ≤ v.start ∧ v.start < n + names.length ∧ v.block = blk ∧ v.parm = true := by
  induction names generalizing n with
  | nil => simp [parmDecls]
  | cons name names ih =>
    intro v mem
    rcases List.mem_cons.mp mem with rfl | mem
    · simp
    · obtain ⟨low, high, rest⟩ := ih (n + 1) v mem
      simp only [List.length_cons]
      exact ⟨by omega, by omega, rest⟩

theorem Declarator.start_le (how : Declarator) {n prev : Nat} (le : prev ≤ n) :
    how.start n prev ≤ n := by
  cases how <;> simp [start, le]

theorem Declarator.start_eq (how : Declarator) (n prev : Nat) :
    how.start n prev = prev ∨ how.start n prev = n := by
  cases how <;> simp [start]

namespace Forest

theorem findVars_spans (F : Forest) (n blk prev : Nat) :
    Spans n (n + F.size) ((F.findVars n blk prev).map VarDecl.at') := by
  induction F generalizing n blk prev with
  | nil => exact Spans.nil _ _
  | compound body rest body_ih rest_ih =>
    have inner := body_ih (n + 1) n (n + 1)
    have later := rest_ih (n + 1 + body.size) blk (n + 1 + body.size)
    simp only [findVars, size, List.map_append]
    exact (inner.append later (by omega) (by omega)).widen (by omega) (by omega)
  | var how name init rest init_ih rest_ih =>
    have inner := init_ih (n + 1) blk (n + 1)
    have later := rest_ih (n + 1 + init.size) blk (how.start n prev)
    simp only [findVars, size, List.map_append, List.map_cons]
    exact ((inner.append later (by omega) (by omega)).widen (by omega) (by omega)).cons (by omega)
  | function params body rest body_ih rest_ih =>
    have parms := parmDecls_spans (n + 1) n params
    have inner := body_ih (n + 1 + params.length) n (n + 1 + params.length)
    have later := rest_ih (n + 1 + params.length + body.size) blk
      (n + 1 + params.length + body.size)
    simp only [findVars, size, List.map_append]
    exact (parms.append (inner.append later (by omega) (by omega)) (by omega) (by omega)).widen
      (by omega) (by omega)
  | coawait operand rest operand_ih rest_ih =>
    have inner := operand_ih (n + 1) blk (n + 1)
    have later := rest_ih (n + 1 + operand.size) blk (n + 1 + operand.size)
    simp only [findVars, size, List.map_append]
    exact (inner.append later (by omega) (by omega)).widen (by omega) (by omega)
  | node children rest children_ih rest_ih =>
    have inner := children_ih (n + 1) blk (n + 1)
    have later := rest_ih (n + 1 + children.size) blk (n + 1 + children.size)
    simp only [findVars, size, List.map_append]
    exact (inner.append later (by omega) (by omega)).widen (by omega) (by omega)

theorem findAwaits_spans (F : Forest) (n : Nat) (blocks : List Nat) (nested : Bool) :
    Spans n (n + F.size) ((F.findAwaits n blocks nested).map CoawaitExpr.at') := by
  induction F generalizing n blocks nested with
  | nil => exact Spans.nil _ _
  | compound body rest body_ih rest_ih =>
    have inner := body_ih (n + 1) (n :: blocks) nested
    have later := rest_ih (n + 1 + body.size) blocks nested
    simp only [findAwaits, size, List.map_append]
    exact (inner.append later (by omega) (by omega)).widen (by omega) (by omega)
  | var how name init rest init_ih rest_ih =>
    have inner := init_ih (n + 1) blocks nested
    have later := rest_ih (n + 1 + init.size) blocks nested
    simp only [findAwaits, size, List.map_append]
    exact (inner.append later (by omega) (by omega)).widen (by omega) (by omega)
  | function params body rest body_ih rest_ih =>
    have inner := body_ih (n + 1 + params.length) (n :: blocks) true
    have later := rest_ih (n + 1 + params.length + body.size) blocks nested
    simp only [findAwaits, size, List.map_append]
    exact (inner.append later (by omega) (by omega)).widen (by omega) (by omega)
  | coawait operand rest operand_ih rest_ih =>
    have inner := operand_ih (n + 1) blocks nested
    have later := rest_ih (n + 1 + operand.size) blocks nested
    simp only [findAwaits, size, List.map_append, List.map_cons]
    exact ((inner.append later (by omega) (by omega)).widen (by omega) (by omega)).cons (by omega)
  | node children rest children_ih rest_ih =>
    have inner := children_ih (n + 1) blocks nested
    have later := rest_ih (n + 1 + children.size) blocks nested
    simp only [findAwaits, size, List.map_append]
    exact (inner.append later (by omega) (by omega)).widen (by omega) (by omega)

/-- Where a variable among the nodes from `n` up to `m` begins, and its block. -/
structure Placed (n m blk prev : Nat) (v : VarDecl) : Prop where
  start : v.start = prev ∨ n ≤ v.start
  start_lt : v.start < m
  block : v.block = blk ∨ n ≤ v.block ∧ v.block < m

theorem Placed.widen {n n' m m' blk blk' prev prev' : Nat} {v : VarDecl}
    (h : Placed n' m' blk' prev' v) (le : n ≤ n') (le' : m' ≤ m) (start : prev' = prev ∨ n ≤ prev')
    (block : blk' = blk ∨ n ≤ blk' ∧ blk' < m) : Placed n m blk prev v := by
  obtain ⟨hs, hl, hb⟩ := h
  constructor <;> omega

theorem findVars_placed (F : Forest) (n blk prev : Nat) (le : prev ≤ n) :
    ∀ v ∈ F.findVars n blk prev, Placed n (n + F.size) blk prev v := by
  induction F generalizing n blk prev with
  | nil => simp [findVars]
  | compound body rest body_ih rest_ih =>
    intro v mem
    simp only [findVars, List.mem_append] at mem
    simp only [size]
    rcases mem with mem | mem
    · exact (body_ih _ _ _ (Nat.le_refl _) v mem).widen (by omega) (by omega) (by omega) (by omega)
    · exact (rest_ih _ _ _ (Nat.le_refl _) v mem).widen (by omega) (by omega) (by omega) (by omega)
  | var how name init rest init_ih rest_ih =>
    intro v mem
    have start := how.start_eq n prev
    simp only [findVars, List.mem_cons, List.mem_append] at mem
    simp only [size]
    rcases mem with rfl | mem | mem
    · have le := how.start_le le
      exact ⟨by simp only [Declarator.decl]; omega, by simp only [Declarator.decl]; omega, .inl rfl⟩
    · exact (init_ih _ _ _ (Nat.le_refl _) v mem).widen (by omega) (by omega) (by omega) (by omega)
    · exact (rest_ih _ _ _ (by omega) v mem).widen (by omega) (by omega) (by omega) (by omega)
  | function params body rest body_ih rest_ih =>
    intro v mem
    simp only [findVars, List.mem_append] at mem
    simp only [size]
    rcases mem with mem | mem | mem
    · have parm := parmDecls_spec _ _ _ v mem
      constructor <;> omega
    · exact (body_ih _ _ _ (Nat.le_refl _) v mem).widen (by omega) (by omega) (by omega) (by omega)
    · exact (rest_ih _ _ _ (Nat.le_refl _) v mem).widen (by omega) (by omega) (by omega) (by omega)
  | coawait operand rest operand_ih rest_ih =>
    intro v mem
    simp only [findVars, List.mem_append] at mem
    simp only [size]
    rcases mem with mem | mem
    · exact (operand_ih _ _ _ (Nat.le_refl _) v mem).widen (by omega) (by omega) (by omega) (by omega)
    · exact (rest_ih _ _ _ (Nat.le_refl _) v mem).widen (by omega) (by omega) (by omega) (by omega)
  | node children rest children_ih rest_ih =>
    intro v mem
    simp only [findVars, List.mem_append] at mem
    simp only [size]
    rcases mem with mem | mem
    · exact (children_ih _ _ _ (Nat.le_refl _) v mem).widen (by omega) (by omega) (by omega) (by omega)
    · exact (rest_ih _ _ _ (Nat.le_refl _) v mem).widen (by omega) (by omega) (by omega) (by omega)

end Forest

theorem FunctionDecl.vars_nodup (f : FunctionDecl) : f.vars.Nodup := by
  have parms := parmDecls_spans 1 0 f.params
  have inner := f.body.findVars_spans f.start 0 f.start
  have all := parms.append inner (by omega) (by simp [start])
  rw [← List.map_append] at all
  exact all.nodup.of_map _

theorem FunctionDecl.awaits_nodup (f : FunctionDecl) : f.awaits.Nodup :=
  (f.body.findAwaits_spans f.start [0] false).nodup.of_map _

end Valor.Valet
