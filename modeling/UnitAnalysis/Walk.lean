import UnitAnalysis.Arena

/-!
# Walking an arena

A walk lists declarations, statements and expressions before what they contain,
from left to right.  A condition says which nodes are entered; the others are
listed without their contents.
-/

namespace UnitAnalysis

inductive Node where
  | decl (id : DeclId)
  | stmt (stmt : Stmt)
  | expr (expr : Expr)
  deriving Repr

mutual

def Expr.nodes (enter : Node → Bool) (e : Expr) : List Node :=
  .expr e ::
    if enter (.expr e) then
      match e with
      | .int _ _ | .float _ _ | .bool _ _ | .ref _ _ => []
      | .binary _ _ lhs rhs => lhs.nodes enter ++ rhs.nodes enter
      | .cast _ _ operand | .load _ operand => operand.nodes enter
      | .call _ _ args => Expr.nodesAll enter args
    else []

def Expr.nodesAll (enter : Node → Bool) : List Expr → List Node
  | [] => []
  | e :: es => e.nodes enter ++ Expr.nodesAll enter es

end

mutual

/-- The nodes of a statement, given those of the declarations that it makes. -/
def Stmt.nodes (enter : Node → Bool) (declNodes : DeclId → List Node) (stmt : Stmt) : List Node :=
  .stmt stmt ::
    if enter (.stmt stmt) then
      match stmt with
      | .compound body => Stmt.nodesAll enter declNodes body
      | .decl id => declNodes id
      | .expr value => value.nodes enter
      | .ret none => []
      | .ret (some value) => value.nodes enter
    else []

def Stmt.nodesAll (enter : Node → Bool) (declNodes : DeclId → List Node) : List Stmt → List Node
  | [] => []
  | stmt :: stmts => stmt.nodes enter declNodes ++ Stmt.nodesAll enter declNodes stmts

end

namespace Arena

/-- The nodes of a declaration, with declarations nested at most `depth` deep. -/
def nodesWithin (a : Arena) (enter : Node → Bool) : Nat → DeclId → List Node
  | 0, id => [.decl id]
  | depth + 1, id =>
      .decl id ::
        if enter (.decl id) then
          match a.kind? id with
          | some (.unit members) | some (.tag _ members) =>
              members.flatMap (a.nodesWithin enter depth)
          | some (.var _ (some init)) => init.nodes enter
          | some (.func f) =>
              f.params.flatMap (a.nodesWithin enter depth) ++
                Stmt.nodesAll enter (a.nodesWithin enter depth) (f.body.getD [])
          | _ => []
        else []

/-- The nodes of the whole unit.  Declarations do not nest deeper than there are declarations. -/
def walk (a : Arena) (enter : Node → Bool) : List Node :=
  a.nodesWithin enter a.size root

end Arena

end UnitAnalysis
