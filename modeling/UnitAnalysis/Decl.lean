import UnitAnalysis.Expr

/-!
# Declarations

A declaration has a name, the context that owns it, and a kind.  The unit
itself, classes and enums are contexts: they list their members in order of
declaration.
-/

namespace UnitAnalysis

/-- A function: a prototype as long as it has no body. -/
structure Func where
  params : List DeclId
  returnTy : Ty
  body : Option (List Stmt)
  /-- The latest earlier declaration of the same function. -/
  previous : Option DeclId
  deriving Repr

def Func.prototype (returnTy : Ty) : Func :=
  ⟨[], returnTy, none, none⟩

def Func.arity (f : Func) : Nat :=
  f.params.length

def Func.isDefinition (f : Func) : Bool :=
  f.body.isSome

inductive DeclKind where
  | unit (members : List DeclId)
  | var (ty : Ty) (init : Option Expr)
  | field (ty : Ty)
  | func (function : Func)
  | tag (kind : TagKind) (members : List DeclId)
  | enumerator (value : Int64)
  deriving Repr

structure Decl where
  /-- A declaration without a name cannot be looked up. -/
  name : Option String
  /-- Only the unit itself has no owner. -/
  parent : Option DeclId
  kind : DeclKind
  deriving Repr

/-- The kind of a declaration without its contents. -/
inductive DeclSort where
  | unit
  | var
  | field
  | func
  | tag (kind : TagKind)
  | enumerator
  deriving DecidableEq, Repr

namespace DeclKind

def sort : DeclKind → DeclSort
  | .unit _ => .unit
  | .var _ _ => .var
  | .field _ => .field
  | .func _ => .func
  | .tag kind _ => .tag kind
  | .enumerator _ => .enumerator

def members? : DeclKind → Option (List DeclId)
  | .unit members | .tag _ members => some members
  | _ => none

def func? : DeclKind → Option Func
  | .func f => some f
  | _ => none

def varTy? : DeclKind → Option Ty
  | .var ty _ => some ty
  | _ => none

def enumeratorValue? : DeclKind → Option Int64
  | .enumerator value => some value
  | _ => none

/-- A context with one more member; other kinds stay as they are. -/
def addMember (id : DeclId) : DeclKind → DeclKind
  | .unit members => .unit (members ++ [id])
  | .tag kind members => .tag kind (members ++ [id])
  | kind => kind

def mapFunc (change : Func → Func) : DeclKind → DeclKind
  | .func f => .func (change f)
  | kind => kind

def setInit (init : Expr) : DeclKind → DeclKind
  | .var ty _ => .var ty (some init)
  | kind => kind

@[simp]
theorem sort_addMember (id : DeclId) (k : DeclKind) : (k.addMember id).sort = k.sort := by
  cases k <;> rfl

@[simp]
theorem sort_mapFunc (change : Func → Func) (k : DeclKind) :
    (k.mapFunc change).sort = k.sort := by
  cases k <;> rfl

@[simp]
theorem sort_setInit (init : Expr) (k : DeclKind) : (k.setInit init).sort = k.sort := by
  cases k <;> rfl

end DeclKind

end UnitAnalysis
