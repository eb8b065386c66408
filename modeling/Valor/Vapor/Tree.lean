import Valor.Lib.Bytes

/-! The part of GCC's trees that Vapor reads and patches, and the meaning of the two
accessor functions it patches. Sizes of expressions are those of their types, in bytes. -/
namespace Valor.Vapor

open Bytes

inductive DeclCode where
  | fieldDecl | typeDecl | functionDecl | varDecl | parmDecl | resultDecl | constDecl
  | templateDecl | usingDecl
  deriving DecidableEq

inductive TypeCode where
  | recordType | unionType | pointerType | referenceType | integerType | functionType
  | enumeralType | booleanType | realType | arrayType | voidType
  deriving DecidableEq

/-- `size` and `fieldBitOffset` are in bits, `fieldOffset` in bytes; `type` names a type. -/
structure Decl where
  code : DeclCode
  name : Option String
  type : Nat
  size : Nat
  fieldOffset : Nat
  fieldBitOffset : Nat
  deriving DecidableEq

/-- `type` is what a pointer points to. -/
structure TypeNode where
  code : TypeCode
  type : Nat
  fields : List Decl

abbrev Types := Nat → TypeNode

def Decl.nameStr (d : Decl) : String := d.name.getD "<anon>"

inductive ExprCode where
  | returnExpr | initExpr | indirectRef | nopExpr | pointerPlusExpr | addrExpr | componentRef
  | cleanupPointExpr | exprStmt | convertExpr | modifyExpr | statementList
  deriving DecidableEq

inductive Expr where
  | cst (value : Nat)
  | decl (d : Decl)
  | unary (code : ExprCode) (size : Nat) (e : Expr)
  | binary (code : ExprCode) (size : Nat) (a b : Expr)
  deriving DecidableEq

namespace Expr

def code : Expr → Option ExprCode
  | cst _ | decl _ => none
  | unary c _ _ | binary c _ _ _ => some c

def operand : Expr → Nat → Option Expr
  | unary _ _ e, 0 => some e
  | binary _ _ a _, 0 => some a
  | binary _ _ _ b, 1 => some b
  | _, _ => none

def setOperand : Expr → Nat → Expr → Option Expr
  | unary c s _, 0, new => some (unary c s new)
  | binary c s _ b, 0, new => some (binary c s new b)
  | binary c s a _, 1, new => some (binary c s a new)
  | _, _, _ => none

/-- The operand at the end of a path of operand numbers. -/
def at' : List Nat → Expr → Option Expr
  | [], e => some e
  | i :: path, e => (e.operand i).bind (at' path)

def setAt : List Nat → Expr → Expr → Option Expr
  | [], _, new => some new
  | i :: path, e, new => do
    let o ← e.operand i
    let o' ← setAt path o new
    e.setOperand i o'

/-- The first declaration in the order of the tree walk that `p` holds of. -/
def findDecl (p : Decl → Bool) : Expr → Option Decl
  | cst _ => none
  | decl d => if p d then some d else none
  | unary _ _ e => e.findDecl p
  | binary _ _ a b => (a.findDecl p).or (b.findDecl p)

mutual

/-- The value of an expression; `env` is where the variables of the call are. -/
def value (env : Decl → Nat) (m : Memory) : Expr → Option Nat
  | cst v => some v
  | decl d => some (load m (d.size / 8) (env d))
  | unary .addrExpr _ e => address env m e
  | unary .nopExpr _ e | unary .convertExpr _ e => value env m e
  | unary .indirectRef size e => (value env m e).map (load m size)
  | binary .pointerPlusExpr _ a b => do
    let p ← value env m a
    let i ← value env m b
    return p + i
  | _ => none

def address (env : Decl → Nat) (m : Memory) : Expr → Option Nat
  | decl d => some (env d)
  | unary .indirectRef _ e => value env m e
  | binary .componentRef _ a (decl f) =>
    (address env m a).map (· + f.fieldOffset + f.fieldBitOffset / 8)
  | _ => none

end

/-- A statement: the memory behind it, and what it returns if it returns. -/
def exec (env : Decl → Nat) (m : Memory) : Expr → Option (Memory × Option Nat)
  | unary .returnExpr _ (binary .initExpr _ _ e) => (value env m e).map fun v => (m, some v)
  | unary .cleanupPointExpr _ e | unary .exprStmt _ e | unary .convertExpr _ e => exec env m e
  | binary .modifyExpr size a b => do
    let p ← address env m a
    let v ← value env m b
    return (store m size p v, none)
  | _ => none

end Expr

/-- A function with its `DECL_SAVED_TREE`. -/
structure Function where
  decl : Decl
  coroutine : Bool
  body : Option Expr

end Valor.Vapor
