import Valor.Valet.Ast

/-! Statements of a coroutine body as text and as trees. The expressions inside them are
whole: a declaration, an expression or a header is one token, which ends in no semicolon, and
what Valet inserts for a `co_await` is one token before it and, with its label, one behind. -/
namespace Valor.Valet

/-- What the language and ufser allow for the type `T` of a variable, with no reference
around it: `T{}`, an assignment (not to `const` objects and arrays), writing and reading. -/
structure CxxType where
  defaults : Bool
  assigns : Bool
  serializes : Bool
  deserializes : Bool
  deriving DecidableEq

namespace CxxType

def plain : CxxType := ⟨true, true, true, true⟩

def const (t : CxxType) : CxxType := { t with assigns := false }

/-- `load` sets a variable by `t = T{}` before it reads the value. -/
def loads (t : CxxType) : Bool := t.defaults && t.assigns && t.deserializes

def restorable (t : CxxType) : Bool := t.serializes && t.loads

end CxxType

/-- A declared variable. -/
structure Local where
  id : Nat
  name : String
  type : CxxType
  deriving DecidableEq

/-- An expression, by its place, with the variables that it reads and writes. Inside there
may be functions and variables of its own. -/
structure Expr where
  id : Nat
  reads : List Local
  writes : List Local
  inner : Forest
  deriving DecidableEq

/-- A condition, which may declare a variable for the statement. -/
structure Cond extends Expr where
  var : Option Local
  deriving DecidableEq

/-- The preamble names the type that the coroutine returns, with `valor::` in front. -/
structure Preamble where
  ctxType : String
  labels : Nat
  deriving DecidableEq

/-- A list of statements, each with what follows it. A substatement is a list of one. The
expression of a declaration initializes its variable. A variable in an inserted call is a
name in the text, and what the name denotes after name lookup. -/
inductive Code (N : Type) where
  | nil
  | block (body rest : Code N)
  | expr (x : Option Local) (e : Expr) (rest : Code N)
  | coawait (s : Nat) (e : Expr) (rest : Code N)
  | if' (c : Cond) (then' else' rest : Code N)
  | while' (c : Cond) (body rest : Code N)
  | for' (x : Option Local) (init : Expr) (c : Cond) (inc : Expr) (body rest : Code N)
  | save (n : Nat) (vars : List N) (rest : Code N)
  | load (n : Nat) (vars : List N) (rest : Code N)
  | preamble (p : Preamble) (rest : Code N)
  deriving DecidableEq

abbrev Source := Code String

inductive Tok where
  | lbrace | rbrace | semi
  | expr (x : Option Local) (e : Expr)
  | coawait (s : Nat) (e : Expr)
  | if' (c : Cond)
  | else'
  | while' (c : Cond)
  | for' (x : Option Local) (init : Expr) (c : Cond) (inc : Expr)
  | save (n : Nat) (vars : List String)
  | load (n : Nat) (vars : List String)
  | preamble (p : Preamble)
  deriving DecidableEq

namespace Code

variable {N : Type}

def append : Code N → Code N → Code N
  | nil, k => k
  | block b rest, k => block b (rest.append k)
  | expr x e rest, k => expr x e (rest.append k)
  | coawait s e rest, k => coawait s e (rest.append k)
  | if' c t e rest, k => if' c t e (rest.append k)
  | while' c b rest, k => while' c b (rest.append k)
  | for' x i c inc b rest, k => for' x i c inc b (rest.append k)
  | save n vars rest, k => save n vars (rest.append k)
  | load n vars rest, k => load n vars (rest.append k)
  | preamble p rest, k => preamble p (rest.append k)

@[simp] theorem append_nil (c : Code N) : c.append nil = c := by
  induction c <;> simp [append, *]

theorem append_assoc (a b c : Code N) : (a.append b).append c = a.append (b.append c) := by
  induction a <;> simp [append, *]

/-- The first statement alone. -/
def head : Code N → Code N
  | nil => nil
  | block b _ => block b nil
  | expr x e _ => expr x e nil
  | coawait s e _ => coawait s e nil
  | if' c t e _ => if' c t e nil
  | while' c b _ => while' c b nil
  | for' x i c inc b _ => for' x i c inc b nil
  | save n vars _ => save n vars nil
  | load n vars _ => load n vars nil
  | preamble p _ => preamble p nil

def Single (c : Code N) : Prop := c ≠ nil ∧ c.head = c

/-- The first statement ends in an `if` without an `else`. -/
def Open : Code N → Prop
  | if' _ _ e _ => e = nil ∨ Open e
  | while' _ b _ | for' _ _ _ _ b _ => Open b
  | _ => False

/-- A body as it is written: substatements are statements, and an `else` belongs to the
nearest `if`. -/
def Formed : Code N → Prop
  | nil => True
  | block b rest => Formed b ∧ Formed rest
  | expr _ _ rest | coawait _ _ rest => Formed rest
  | if' _ t e rest => Single t ∧ Formed t ∧ (e = nil ∨ Single e ∧ ¬ Open t) ∧ Formed e ∧ Formed rest
  | while' _ b rest | for' _ _ _ _ b rest => Single b ∧ Formed b ∧ Formed rest
  | save _ _ _ | load _ _ _ | preamble _ _ => False

/-- The conditions. -/
def conds : Code N → List Nat
  | nil => []
  | expr _ _ rest | coawait _ _ rest | save _ _ rest | load _ _ rest | preamble _ rest => conds rest
  | block b rest => conds b ++ conds rest
  | if' c t e rest => c.id :: (conds t ++ (conds e ++ conds rest))
  | while' c b rest | for' _ _ c _ b rest => c.id :: (conds b ++ conds rest)

/-- The operands of the `co_await`s. -/
def operands : Code N → List Nat
  | nil => []
  | expr _ _ rest | save _ _ rest | load _ _ rest | preamble _ rest => operands rest
  | coawait _ e rest => e.id :: operands rest
  | block b rest | while' _ b rest | for' _ _ _ _ b rest => operands b ++ operands rest
  | if' _ t e rest => operands t ++ (operands e ++ operands rest)

/-- The text of some statements. -/
def print : Source → List Tok
  | nil => []
  | block b rest => .lbrace :: (b.print ++ .rbrace :: rest.print)
  | expr x e rest => .expr x e :: .semi :: rest.print
  | coawait s e rest => .coawait s e :: .semi :: rest.print
  | if' c t e rest =>
    .if' c :: (t.print ++ ((if e = nil then [] else .else' :: e.print) ++ rest.print))
  | while' c b rest => .while' c :: (b.print ++ rest.print)
  | for' x i c inc b rest => .for' x i c inc :: (b.print ++ rest.print)
  | save n vars rest => .save n vars :: .semi :: rest.print
  | load n vars rest => .load n vars :: .semi :: rest.print
  | preamble p rest => .preamble p :: rest.print

end Code

/-! ## The parser -/

/-- What is open around the next statement. -/
inductive Frame where
  | block (before : Source)
  | if' (c : Cond)
  | ifThen (c : Cond) (then' : Source)
  | else' (c : Cond) (then' : Source)
  | while' (c : Cond)
  | for' (x : Option Local) (init : Expr) (c : Cond) (inc : Expr)
  deriving DecidableEq

/-- A statement is complete; `isElse` tells whether the next token is an `else`. -/
def reduce (isElse : Bool) : Source → List Frame → Option (List Frame)
  | _, [] => none
  | s, .block before :: st => if isElse then none else some (.block (before.append s) :: st)
  | s, .if' c :: st => if isElse then some (.ifThen c s :: st) else reduce isElse (.if' c s .nil .nil) st
  | _, .ifThen _ _ :: _ => none
  | s, .else' c t :: st => reduce isElse (.if' c t s .nil) st
  | s, .while' c :: st => reduce isElse (.while' c s .nil) st
  | s, .for' x i c inc :: st => reduce isElse (.for' x i c inc s .nil) st

def startsElse : List Tok → Bool
  | .else' :: _ => true
  | _ => false

/-- The statements of a body, up to the brace at its end. -/
def parse : List Tok → List Frame → Option Source
  | [.rbrace], [.block body] => some body
  | .lbrace :: ts, st => parse ts (.block .nil :: st)
  | .rbrace :: ts, .block body :: st =>
    (reduce (startsElse ts) (.block body .nil) st).bind fun st => parse ts st
  | .expr x e :: .semi :: ts, st =>
    (reduce (startsElse ts) (.expr x e .nil) st).bind fun st => parse ts st
  | .coawait s e :: .semi :: ts, st =>
    (reduce (startsElse ts) (.coawait s e .nil) st).bind fun st => parse ts st
  | .save n vars :: .semi :: ts, st =>
    (reduce (startsElse ts) (.save n vars .nil) st).bind fun st => parse ts st
  | .load n vars :: .semi :: ts, st =>
    (reduce (startsElse ts) (.load n vars .nil) st).bind fun st => parse ts st
  | .preamble p :: ts, st => (reduce (startsElse ts) (.preamble p .nil) st).bind fun st => parse ts st
  | .if' c :: ts, st => parse ts (.if' c :: st)
  | .else' :: ts, .ifThen c t :: st => parse ts (.else' c t :: st)
  | .while' c :: ts, st => parse ts (.while' c :: st)
  | .for' x i c inc :: ts, st => parse ts (.for' x i c inc :: st)
  | _, _ => none

/-- A function body, with its braces. -/
def parseBody : List Tok → Option Source
  | .lbrace :: ts => parse ts [.block .nil]
  | _ => none

end Valor.Valet
