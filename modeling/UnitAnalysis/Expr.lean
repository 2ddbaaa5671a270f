import UnitAnalysis.Binary64
import UnitAnalysis.Operator
import UnitAnalysis.Ty.Basic

/-!
# Typed expressions and statements

Every expression node carries its type and its value category.  Conversions
and loads are nodes of their own, so that an analysed expression shows each
step from the source to the value that is used.
-/

namespace UnitAnalysis

/-- Does an expression denote storage or a passing value? -/
inductive ValueCategory where
  | lvalue
  | rvalue
  deriving DecidableEq, Repr

structure Typing where
  ty : Ty
  category : ValueCategory
  deriving DecidableEq, Repr

inductive CastKind where
  | integralWiden
  | floatingWiden
  | pointerToVoid
  | qualification
  deriving DecidableEq, Repr

inductive Expr where
  | int (typing : Typing) (value : Int64)
  | float (typing : Typing) (value : Binary64)
  | bool (typing : Typing) (value : Bool)
  | ref (typing : Typing) (decl : DeclId)
  | binary (typing : Typing) (op : BinaryOp) (lhs rhs : Expr)
  | cast (typing : Typing) (kind : CastKind) (operand : Expr)
  | load (typing : Typing) (operand : Expr)
  | call (typing : Typing) (callee : DeclId) (args : List Expr)
  deriving Repr

/-- A statement; a function body is a list of them. -/
inductive Stmt where
  | compound (body : List Stmt)
  | decl (id : DeclId)
  | expr (value : Expr)
  | ret (value : Option Expr)
  deriving Repr

namespace Expr

def typing : Expr → Typing
  | .int t _ | .float t _ | .bool t _ | .ref t _ | .binary t _ _ _ | .cast t _ _ | .load t _
  | .call t _ _ => t

def ty (e : Expr) : Ty :=
  e.typing.ty

def isLvalue (e : Expr) : Bool :=
  e.typing.category == .lvalue

def isRvalue (e : Expr) : Bool :=
  e.typing.category == .rvalue

theorem isRvalue_eq_not_isLvalue (e : Expr) : e.isRvalue = !e.isLvalue := by
  unfold isRvalue isLvalue
  cases e.typing.category <;> rfl

end Expr

end UnitAnalysis
