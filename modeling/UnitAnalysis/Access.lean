import UnitAnalysis.Bracket
import UnitAnalysis.Call
import UnitAnalysis.Declaring

/-!
# Access to a store

The analysis of a unit makes no access to declarations and scopes by itself.  It
asks queries and performs effects, and does not depend on how these go about the
declarations and scopes that they meet.
-/

namespace UnitAnalysis

/-- Queries on a state, with answers that may fail. -/
class Queries (σ : Type) (q : outParam (Type → Type)) where
  namedTy : σ → Place → Path → q Ty
  nameExpr : σ → Place → Path → q Expr
  callExpr : σ → Place → Path → List Expr → q Expr
  returnStmt : σ → Place → Option Expr → q Stmt
  checkFresh : σ → Place → String → Bool → q Unit
  checkContext : σ → Place → TagKind → q Unit
  lastEnumerator? : σ → DeclId → q (Option Int64)

/-- Effects on a state, of which queries can be asked at any time. -/
class Effects (m : Type → Type) (σ : outParam Type) (q : outParam (Type → Type)) where
  ask {α : Type} (query : σ → q α) : m α
  declare : Place → String → DeclKind → m DeclId
  addParam : DeclId → DeclId → m Unit
  reveal : Place → DeclId → m Unit
  enlist : Place → DeclId → m Unit
  storeInit : DeclId → Expr → m Unit
  enterTag : Place → DeclId → m Place
  leaveTag : Place → m Place
  enterParams : Place → m Place
  leaveParams : Place → DeclId → m Place
  enterBlock : Place → m Place
  leaveBlock : Place → m Place
  enterBody : Place → DeclId → m Place
  leaveBody : Place → List Stmt → m Place

instance : Queries Store (Except Error) where
  namedTy := Store.namedTy
  nameExpr := Store.nameExpr
  callExpr := Store.callExpr
  returnStmt := Store.returnStmt
  checkFresh := Store.checkFresh
  checkContext := Store.checkContext
  lastEnumerator? s context := pure (s.lastEnumerator? context)

instance : Effects Action Store (Except Error) where
  ask query := do query (← get)
  declare := declare
  addParam := addParam
  reveal := reveal
  enlist := enlist
  storeInit := storeInit
  enterTag := enterTag
  leaveTag := leaveTag
  enterParams := enterParams
  leaveParams := leaveParams
  enterBlock := enterBlock
  leaveBlock := leaveBlock
  enterBody := enterBody
  leaveBody := leaveBody

end UnitAnalysis
