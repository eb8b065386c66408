import Valor.Runtime.Rewritten
import Valor.Valet.Collect
import Valor.Valet.Reparse

/-! What statements do. A control point is the list of statements that are still to be done;
the bodies of loops come before the loops in it. The same expressions give the body its
meaning before Valet rewrites it and after. -/
namespace Valor.Valet

open Reactive Flow Code

variable {N : Type} {Val : Local → Type} {View Ev X R V : Type}

/-- Name lookup, the innermost declaration first. -/
def lookup (env : List Local) (name : String) : Option Local :=
  if name = "" then none else env.find? fun x => x.name = name

/-- Every name in the expression denotes the variable that is meant. -/
def Expr.named (env : List Local) (e : Expr) : Bool :=
  (e.reads ++ e.writes).all fun x => lookup env x.name = some x

def declare (x : Option Local) (env : List Local) : List Local := x.toList ++ env

/-- The names of the calls looked up in their scopes; `none` is a name that is not declared. -/
def resolve : List Local → Source → Option (Code Local)
  | _, nil => some nil
  | env, block b rest => do
    let b ← resolve env b
    let rest ← resolve env rest
    return block b rest
  | env, expr x e rest =>
    if e.named (declare x env) then (resolve (declare x env) rest).map (expr x e) else none
  | env, coawait s e rest => if e.named env then (resolve env rest).map (coawait s e) else none
  | env, if' c t e rest =>
    if c.named (declare c.var env) then do
      let t ← resolve (declare c.var env) t
      let e ← resolve (declare c.var env) e
      let rest ← resolve env rest
      return if' c t e rest
    else none
  | env, while' c b rest =>
    if c.named (declare c.var env) then do
      let b ← resolve (declare c.var env) b
      let rest ← resolve env rest
      return while' c b rest
    else none
  | env, for' x i c inc b rest =>
    let inner := declare c.var (declare x env)
    if i.named (declare x env) ∧ c.named inner ∧ inc.named inner then do
      let b ← resolve inner b
      let rest ← resolve env rest
      return for' x i c inc b rest
    else none
  | env, save n vars rest => do
    let vars ← vars.mapM (lookup env)
    let rest ← resolve env rest
    return save n vars rest
  | env, load n vars rest => do
    let vars ← vars.mapM (lookup env)
    let rest ← resolve env rest
    return load n vars rest
  | env, preamble n rest => (resolve env rest).map (preamble n)

/-- What is declared behind some statements. -/
def scopeAfter : List Local → Code N → List Local
  | env, nil => env
  | env, expr x _ rest => scopeAfter (declare x env) rest
  | env, block _ rest | env, coawait _ _ rest | env, if' _ _ _ rest | env, while' _ _ rest
  | env, for' _ _ _ _ _ rest | env, save _ _ rest | env, load _ _ rest | env, preamble _ rest =>
    scopeAfter env rest

/-- The `co_await`s, each with what is declared where it stands. -/
def scopes : List Local → Source → List (Nat × List Local)
  | _, nil => []
  | env, block b rest => scopes env b ++ scopes env rest
  | env, expr x _ rest => scopes (declare x env) rest
  | env, coawait s _ rest => (s, env) :: scopes env rest
  | env, if' c t e rest =>
    scopes (declare c.var env) t ++ (scopes (declare c.var env) e ++ scopes env rest)
  | env, while' c b rest => scopes (declare c.var env) b ++ scopes env rest
  | env, for' x _ c _ b rest => scopes (declare c.var (declare x env)) b ++ scopes env rest
  | env, save _ _ rest | env, load _ _ rest | env, preamble _ rest => scopes env rest

/-- A loop of a `for`, in front of what comes after it. -/
def forLoop (c : Cond) (inc : Expr) (b k : Code N) : Code N := while' c (b.append (expr none inc nil)) k

/-- The `co_await`s in some statements, each with what is done after it. -/
def awaitsIn : Code N → Code N → List (Nat × Expr × Code N)
  | nil, _ => []
  | block b rest, k => awaitsIn b (rest.append k) ++ awaitsIn rest k
  | expr _ _ rest, k | save _ _ rest, k | load _ _ rest, k | preamble _ rest, k => awaitsIn rest k
  | coawait s e rest, k => (s, e, rest.append k) :: awaitsIn rest k
  | if' _ t e rest, k =>
    awaitsIn t (rest.append k) ++ (awaitsIn e (rest.append k) ++ awaitsIn rest k)
  | while' c b rest, k => awaitsIn b (while' c b (rest.append k)) ++ awaitsIn rest k
  | for' _ _ c inc b rest, k =>
    awaitsIn b (expr none inc (forLoop c inc b (rest.append k))) ++ awaitsIn rest k

/-- The labels in some statements, each with what stands behind it. -/
def labels : Code N → Code N → List (Nat × Code N)
  | nil, _ => []
  | block b rest, k => labels b (rest.append k) ++ labels rest k
  | expr _ _ rest, k | coawait _ _ rest, k | save _ _ rest, k | preamble _ rest, k => labels rest k
  | load n vars rest, k => (n, load n vars (rest.append k)) :: labels rest k
  | if' _ t e rest, k => labels t (rest.append k) ++ (labels e (rest.append k) ++ labels rest k)
  | while' c b rest, k => labels b (while' c b (rest.append k)) ++ labels rest k
  | for' _ _ c inc b rest, k =>
    labels b (expr none inc (forLoop c inc b (rest.append k))) ++ labels rest k

/-- What the expressions of a body do. -/
structure Sem (Val : Local → Type) (Ev X V : Type) where
  effects : Expr → History Ev X → Store Val → List Ev
  assign : Expr → History Ev X → Store Val → Store Val
  test : Expr → History Ev X → Store Val → Bool
  operand : Expr → History Ev X → Store Val → X
  value : Expr → History Ev X → Store Val → V
  effects_reads : ∀ {e h l m}, Agree {x | x ∈ e.reads} l m → effects e h l = effects e h m
  assign_reads : ∀ {e h l m}, Agree {x | x ∈ e.reads} l m →
    Agree {x | x ∈ e.writes} (assign e h l) (assign e h m)
  assign_frame : ∀ {e h l x}, x ∉ e.writes → assign e h l x = l x
  test_reads : ∀ {e h l m}, Agree {x | x ∈ e.reads} l m → test e h l = test e h m
  operand_reads : ∀ {e h l m}, Agree {x | x ∈ e.reads} l m → operand e h l = operand e h m
  value_reads : ∀ {e h l m}, Agree {x | x ∈ e.reads} l m → value e h l = value e h m

/-- The run of a body with the calls in it. -/
def program (sem : Sem Val Ev X V) (params : List Local) (ret : Expr) (body : Code Local) :
    Program (Code Local) Val Ev X R V where
  entry := body
  params := params
  fetch
    | nil => .coreturn (sem.value ret)
    | block b rest => .code fun _ l => ([], l, b.append rest)
    | expr _ e rest => .code fun h l => (sem.effects e h l, sem.assign e h l, rest)
    | coawait _ e rest => .coawait (sem.operand e) (fun _ l => l) rest
    | if' c t e rest => .code fun h l => (sem.effects c.toExpr h l, sem.assign c.toExpr h l,
        if sem.test c.toExpr h l then t.append rest else e.append rest)
    | while' c b rest => .code fun h l => (sem.effects c.toExpr h l, sem.assign c.toExpr h l,
        if sem.test c.toExpr h l then b.append (while' c b rest) else rest)
    | for' _ i c inc b rest =>
      .code fun h l => (sem.effects i h l, sem.assign i h l, forLoop c inc b rest)
    | save n vars rest => .save n vars rest
    | load _ vars rest => .load vars rest
    | preamble p rest => .dispatch (some p.labels) (rest :: (List.range p.labels).map fun i =>
        (((labels body nil).find? fun p => p.1 = i + 1).map Prod.snd).getD nil) rest

/-! ## Name lookup, one case for each kind of statement -/

inductive Resolves : List Local → Source → Code Local → Prop where
  | nil {env} : Resolves env nil nil
  | block {env b b' rest rest'} : Resolves env b b' → Resolves env rest rest' →
      Resolves env (block b rest) (block b' rest')
  | expr {env x e rest rest'} : e.named (declare x env) → Resolves (declare x env) rest rest' →
      Resolves env (expr x e rest) (expr x e rest')
  | coawait {env s e rest rest'} : e.named env → Resolves env rest rest' →
      Resolves env (coawait s e rest) (coawait s e rest')
  | if' {env c t t' e e' rest rest'} : c.named (declare c.var env) →
      Resolves (declare c.var env) t t' → Resolves (declare c.var env) e e' →
      Resolves env rest rest' → Resolves env (if' c t e rest) (if' c t' e' rest')
  | while' {env c b b' rest rest'} : c.named (declare c.var env) →
      Resolves (declare c.var env) b b' → Resolves env rest rest' →
      Resolves env (while' c b rest) (while' c b' rest')
  | for' {env x i c inc b b' rest rest'} : i.named (declare x env) ∧
      c.named (declare c.var (declare x env)) ∧ inc.named (declare c.var (declare x env)) →
      Resolves (declare c.var (declare x env)) b b' → Resolves env rest rest' →
      Resolves env (for' x i c inc b rest) (for' x i c inc b' rest')
  | save {env n names vars rest rest'} : names.mapM (lookup env) = some vars →
      Resolves env rest rest' → Resolves env (save n names rest) (save n vars rest')
  | load {env n names vars rest rest'} : names.mapM (lookup env) = some vars →
      Resolves env rest rest' → Resolves env (load n names rest) (load n vars rest')
  | preamble {env n rest rest'} : Resolves env rest rest' →
      Resolves env (preamble n rest) (preamble n rest')

variable {env : List Local} {c : Source} {r : Code Local}

theorem resolves (h : resolve env c = some r) : Resolves env c r := by
  induction c generalizing env r with
  | nil =>
    cases h
    exact .nil
  | block b rest ih ih' =>
    obtain ⟨b', hb, h⟩ := Option.bind_eq_some_iff.mp h
    obtain ⟨rest', hrest, h⟩ := Option.bind_eq_some_iff.mp h
    cases h
    exact .block (ih hb) (ih' hrest)
  | expr x e rest ih =>
    obtain ⟨named, h⟩ := Option.ite_none_right_eq_some.mp h
    obtain ⟨rest', hrest, rfl⟩ := Option.map_eq_some_iff.mp h
    exact .expr named (ih hrest)
  | coawait s e rest ih =>
    obtain ⟨named, h⟩ := Option.ite_none_right_eq_some.mp h
    obtain ⟨rest', hrest, rfl⟩ := Option.map_eq_some_iff.mp h
    exact .coawait named (ih hrest)
  | if' c t e rest iht ihe ih =>
    obtain ⟨named, h⟩ := Option.ite_none_right_eq_some.mp h
    obtain ⟨t', ht, h⟩ := Option.bind_eq_some_iff.mp h
    obtain ⟨e', he, h⟩ := Option.bind_eq_some_iff.mp h
    obtain ⟨rest', hrest, h⟩ := Option.bind_eq_some_iff.mp h
    cases h
    exact .if' named (iht ht) (ihe he) (ih hrest)
  | while' c b rest ihb ih =>
    obtain ⟨named, h⟩ := Option.ite_none_right_eq_some.mp h
    obtain ⟨b', hb, h⟩ := Option.bind_eq_some_iff.mp h
    obtain ⟨rest', hrest, h⟩ := Option.bind_eq_some_iff.mp h
    cases h
    exact .while' named (ihb hb) (ih hrest)
  | for' x i c inc b rest ihb ih =>
    obtain ⟨named, h⟩ := Option.ite_none_right_eq_some.mp h
    obtain ⟨b', hb, h⟩ := Option.bind_eq_some_iff.mp h
    obtain ⟨rest', hrest, h⟩ := Option.bind_eq_some_iff.mp h
    cases h
    exact .for' named (ihb hb) (ih hrest)
  | save n names rest ih =>
    obtain ⟨vars, found, h⟩ := Option.bind_eq_some_iff.mp h
    obtain ⟨rest', hrest, h⟩ := Option.bind_eq_some_iff.mp h
    cases h
    exact .save found (ih hrest)
  | load n names rest ih =>
    obtain ⟨vars, found, h⟩ := Option.bind_eq_some_iff.mp h
    obtain ⟨rest', hrest, h⟩ := Option.bind_eq_some_iff.mp h
    cases h
    exact .load found (ih hrest)
  | preamble n rest ih =>
    obtain ⟨rest', hrest, rfl⟩ := Option.map_eq_some_iff.mp h
    exact .preamble (ih hrest)

theorem Resolves.resolved (h : Resolves env c r) : resolve env c = some r := by
  induction h <;> simp [Valet.resolve, *]

/-! ## Coroutines -/

def Code.numbers (c : Code N) : List Nat := (awaitsIn c nil).map Prod.fst

/-- There is no `co_await` below the node. -/
def Forest.Awaitless : Forest → Prop
  | nil => True
  | compound body rest | function _ body rest => Awaitless body ∧ Awaitless rest
  | var _ _ init rest => Awaitless init ∧ Awaitless rest
  | coawait _ _ => False
  | node children rest => Awaitless children ∧ Awaitless rest

/-- Each `co_await` is a whole statement: there are none inside the expressions. -/
def Code.Whole : Code N → Prop
  | nil => True
  | block b rest => Whole b ∧ Whole rest
  | expr _ e rest | coawait _ e rest => e.inner.Awaitless ∧ Whole rest
  | if' c t e rest => c.inner.Awaitless ∧ Whole t ∧ Whole e ∧ Whole rest
  | while' c b rest => c.inner.Awaitless ∧ Whole b ∧ Whole rest
  | for' _ i c inc b rest =>
    i.inner.Awaitless ∧ c.inner.Awaitless ∧ inc.inner.Awaitless ∧ Whole b ∧ Whole rest
  | save _ _ rest | load _ _ rest | preamble _ rest => Whole rest

/-- A coroutine function that compiles; its body ends with `co_return ret`, and its
`co_await`s have the numbers of their places in the text. One without any is not matched.
`returnType` is what Clang prints for the type of what it returns, `ctx` the class of that, and
`denotes` the class with a `get_promise` that a text names in the function. -/
structure Coroutine where
  returnType : String
  ctx : Nat
  denotes : String → Option Nat
  params : List Local
  body : Source
  ret : Expr
  formed : body.Formed
  whole : body.Whole
  named : (resolve params body).isSome
  returns : ret.named (scopeAfter params body)
  numbered : body.numbers = List.range body.numbers.length
  awaited : body.numbers ≠ []
  conds : body.conds.Nodup
  operands : body.operands.Nodup

/-- What the texts that name `valor::ser_ctx<int>` denote. -/
def intCtx (text : String) : Option Nat :=
  if text = "ser_ctx<int>" ∨ text = "valor::ser_ctx<int>" then some 0 else none

/-- An expression, or the declaration that it initializes. -/
def Expr.node (e : Expr) : Option Local → Forest → Forest
  | none, rest => .node e.inner rest
  | some x, rest => .var .first x.name e.inner rest

def Cond.node (c : Cond) (rest : Forest) : Forest := c.toExpr.node c.var rest

/-- What the matchers see of some statements. -/
def forest : Source → Forest
  | nil => .nil
  | block b rest => .compound (forest b) (forest rest)
  | expr x e rest => e.node x (forest rest)
  | coawait _ e rest => .coawait e.inner (forest rest)
  | if' c t e rest => .node (c.node (.node (forest t) (.node (forest e) .nil))) (forest rest)
  | while' c b rest => .node (c.node (.node (forest b) .nil)) (forest rest)
  | for' x i c inc b rest =>
    .node (i.node x (c.node (.node inc.inner (.node (forest b) .nil)))) (forest rest)
  | save _ _ rest | load _ _ rest | preamble _ rest => .node .nil (forest rest)

namespace Coroutine

variable (f : Coroutine)

def decl : FunctionDecl := ⟨f.params.map Local.name, forest f.body⟩

/-- The stages, reported in the order of the text. -/
def stages : List Stage := (collect (TranslationUnit.matches' [f.decl])).get 0

def opening : Preamble := ⟨f.returnType, f.stages.length⟩

def names (s : Nat) : List String := (f.stages[s]?.map fun st => st.vars.map VarDecl.name).getD []

/-- The body as Valet leaves it, if it is made of statements and its names are declared. -/
def rewritten : Option (Code Local) := do
  let ts ← rewriteBody f.opening f.names (bodyText f.body)
  let c ← parseBody ts
  resolve f.params c

/-- The `co_await`s. -/
abbrev count : Nat := f.body.numbers.length

def awaitAt (s : Nat) : Option (Expr × Source) :=
  ((awaitsIn f.body nil).find? fun p => p.1 = s).map Prod.snd

/-- The expression of a statement that has none. -/
def noExpr : Expr := ⟨0, [], [], .nil⟩

def node : Source → Node Source (Fin f.count) Local
  | nil => .ret {x | x ∈ f.ret.reads}
  | block b rest => .code ∅ ∅ (b.append rest) []
  | expr _ e rest => .code {x | x ∈ e.reads} {x | x ∈ e.writes} rest []
  | coawait s _ _ => if h : s < f.count then .await ⟨s, h⟩ else .ret ∅
  | if' c t e rest =>
    .code {x | x ∈ c.reads} {x | x ∈ c.writes} (t.append rest) [e.append rest]
  | while' c b rest =>
    .code {x | x ∈ c.reads} {x | x ∈ c.writes} (b.append (while' c b rest)) [rest]
  | for' _ i c inc b rest =>
    .code {x | x ∈ i.reads} {x | x ∈ i.writes} (forLoop c inc b rest) []
  | save _ _ _ | load _ _ _ | preamble _ _ => .ret ∅

/-- The coroutine as it is written. -/
def graph : Graph Source (Fin f.count) Local where
  entry := f.body
  node := f.node
  operand s := {x | x ∈ (((f.awaitAt s).map Prod.fst).getD noExpr).reads}
  uses _ := ∅
  binds _ := ∅
  after s := ((f.awaitAt s).map Prod.snd).getD nil

/-- The expression at a control point. -/
def headExpr : Source → Expr
  | nil => f.ret
  | expr _ e _ | for' _ e _ _ _ _ => e
  | if' c _ _ _ | while' c _ _ => c.toExpr
  | _ => noExpr

def meaning (sem : Sem Val Ev X V) : Meaning f.graph Val Ev X R V where
  effects p h l := match p with
    | expr _ e _ | for' _ e _ _ _ _ => sem.effects e h l
    | if' c _ _ _ | while' c _ _ => sem.effects c.toExpr h l
    | _ => []
  assign p h l := match p with
    | expr _ e _ | for' _ e _ _ _ _ => sem.assign e h l
    | if' c _ _ _ | while' c _ _ => sem.assign c.toExpr h l
    | _ => l
  branch p h l := match p with
    | block b rest => b.append rest
    | expr _ _ rest => rest
    | if' c t e rest => if sem.test c.toExpr h l then t.append rest else e.append rest
    | while' c b rest => if sem.test c.toExpr h l then b.append (while' c b rest) else rest
    | for' _ _ c inc b rest => forLoop c inc b rest
    | _ => nil
  operand s h l := sem.operand (((f.awaitAt s).map Prod.fst).getD noExpr) h l
  bind _ _ l := l
  value p h l := sem.value (f.headExpr p) h l
  effects_reads := by
    intro p r w q qs h l m e agree
    cases p <;> simp only [graph, node] at e <;>
      first | rfl | (cases e; exact sem.effects_reads agree)
  branch_reads := by
    intro p r w q qs h l m e agree
    cases p <;> simp only [graph, node] at e <;>
      first | rfl | (cases e; simp only [sem.test_reads agree])
  branch_mem := by
    intro p r w q qs h l e
    cases p with
    | coawait s x rest =>
      simp only [graph, node] at e
      split at e <;> cases e
    | if' | while' =>
      cases e
      dsimp only
      split <;> simp
    | nil | save | load | preamble => cases e
    | _ =>
      cases e
      exact List.mem_singleton_self _
  assign_reads := by
    intro p r w q qs h l m e agree
    cases p with
    | coawait s x rest =>
      simp only [graph, node] at e
      split at e <;> cases e
    | nil | save | load | preamble => cases e
    | block =>
      cases e
      exact fun x hx => absurd hx (Set.notMem_empty x)
    | _ =>
      cases e
      exact sem.assign_reads agree
  assign_frame := by
    intro p r w q qs h l x e hx
    cases p with
    | coawait s x rest =>
      simp only [graph, node] at e
      split at e <;> cases e
    | nil | save | load | preamble => cases e
    | block => rfl
    | _ =>
      cases e
      exact sem.assign_frame hx
  operand_reads := fun agree => sem.operand_reads agree
  bind_reads := fun _ x hx => absurd hx (Set.notMem_empty x)
  bind_frame := fun _ => rfl
  value_reads := by
    intro p r h l m e agree
    apply sem.value_reads
    cases p with
    | nil =>
      cases e
      exact agree
    | coawait | save | load | preamble => exact fun x hx => absurd hx List.not_mem_nil
    | _ => cases e

end Coroutine

end Valor.Valet
