import UnitAnalysis.Decl

/-!
# What declarations hold

The expressions in an expression, and the expressions that statements and
declarations hold.  A statement that declares a variable holds nothing itself:
the initializer belongs to the variable.
-/

namespace UnitAnalysis

/-! ## Expressions -/

mutual

/-- An expression and all expressions in it, outer ones first. -/
def Expr.parts (e : Expr) : List Expr :=
  e ::
    match e with
    | .int _ _ | .float _ _ | .bool _ _ | .ref _ _ => []
    | .binary _ _ lhs rhs => lhs.parts ++ rhs.parts
    | .cast _ _ operand | .load _ operand => operand.parts
    | .call _ _ args => Expr.partsAll args

def Expr.partsAll : List Expr → List Expr
  | [] => []
  | e :: es => e.parts ++ Expr.partsAll es

end

theorem Expr.mem_partsAll {x : Expr} {es : List Expr} :
    x ∈ Expr.partsAll es ↔ ∃ e ∈ es, x ∈ e.parts := by
  induction es with
  | nil => simp [Expr.partsAll]
  | cons e es ih => simp [Expr.partsAll, ih]

mutual

/-- The declarations that an expression refers to, other than as callees. -/
def Expr.refs : Expr → List DeclId
  | .int _ _ | .float _ _ | .bool _ _ => []
  | .ref _ id => [id]
  | .binary _ _ lhs rhs => lhs.refs ++ rhs.refs
  | .cast _ _ operand | .load _ operand => operand.refs
  | .call _ _ args => Expr.refsAll args

def Expr.refsAll : List Expr → List DeclId
  | [] => []
  | e :: es => e.refs ++ Expr.refsAll es

end

theorem Expr.mem_refsAll {id : DeclId} {es : List Expr} :
    id ∈ Expr.refsAll es ↔ ∃ e ∈ es, id ∈ e.refs := by
  induction es with
  | nil => simp [Expr.refsAll]
  | cons e es ih => simp [Expr.refsAll, ih]

theorem Expr.refsAll_append (es fs : List Expr) :
    Expr.refsAll (es ++ fs) = Expr.refsAll es ++ Expr.refsAll fs := by
  induction es with
  | nil => rfl
  | cons e es ih => simp [Expr.refsAll, ih]

/-! ## Statements -/

mutual

/-- The expressions of a statement: those that it evaluates and those that it returns. -/
def Stmt.roots : Stmt → List Expr
  | .compound body => Stmt.rootsAll body
  | .decl _ => []
  | .expr e => [e]
  | .ret none => []
  | .ret (some e) => [e]

def Stmt.rootsAll : List Stmt → List Expr
  | [] => []
  | stmt :: stmts => stmt.roots ++ Stmt.rootsAll stmts

end

mutual

def Stmt.returns : Stmt → List (Option Expr)
  | .compound body => Stmt.returnsAll body
  | .decl _ | .expr _ => []
  | .ret value => [value]

def Stmt.returnsAll : List Stmt → List (Option Expr)
  | [] => []
  | stmt :: stmts => stmt.returns ++ Stmt.returnsAll stmts

end

mutual

/-- A statement and all statements in it, outer ones first. -/
def Stmt.parts (stmt : Stmt) : List Stmt :=
  stmt ::
    match stmt with
    | .compound body => Stmt.partsAll body
    | .decl _ | .expr _ | .ret _ => []

def Stmt.partsAll : List Stmt → List Stmt
  | [] => []
  | stmt :: stmts => stmt.parts ++ Stmt.partsAll stmts

end

mutual

/-- The declarations that a statement makes, at any depth. -/
def Stmt.decls : Stmt → List DeclId
  | .compound body => Stmt.declsAll body
  | .decl id => [id]
  | .expr _ | .ret _ => []

def Stmt.declsAll : List Stmt → List DeclId
  | [] => []
  | stmt :: stmts => stmt.decls ++ Stmt.declsAll stmts

end

mutual

def Stmt.blocks : Stmt → List (List Stmt)
  | .compound body => body :: Stmt.blocksAll body
  | .decl _ | .expr _ | .ret _ => []

def Stmt.blocksAll : List Stmt → List (List Stmt)
  | [] => []
  | stmt :: stmts => stmt.blocks ++ Stmt.blocksAll stmts

end

/-! ## Declarations -/

/-- The initializer of a variable and the expressions in the body of a function. -/
def DeclKind.roots : DeclKind → List Expr
  | .var _ init => init.toList
  | .func f => Stmt.rootsAll (f.body.getD [])
  | _ => []

def DeclKind.stmts : DeclKind → List Stmt
  | .func f => Stmt.partsAll (f.body.getD [])
  | _ => []

/-- The declarations that a declaration owns: members, or parameters and local variables. -/
def DeclKind.children : DeclKind → List DeclId
  | .unit members | .tag _ members => members
  | .func f => f.params ++ Stmt.declsAll (f.body.getD [])
  | _ => []

end UnitAnalysis
