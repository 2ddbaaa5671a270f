import UnitAnalysis.Scope
import UnitAnalysis.Typing

/-!
# The store and actions on it

The store holds what is known of a unit so far: its declarations and its
scopes.  An action reads and changes the store and may fail; a failure keeps
the changes made before it.
-/

namespace UnitAnalysis

structure Store where
  arena : Arena
  scopes : ScopeTree
  deriving Repr

def Store.empty : Store :=
  ⟨.empty, .empty⟩

/-- Where the analysis stands. -/
structure Place where
  /-- The innermost scope. -/
  scope : ScopeId
  /-- The context that owns new declarations. -/
  context : DeclId
  /-- The function whose body is being analysed. -/
  function : Option DeclId
  deriving DecidableEq, Repr

/-- The outermost place of a unit. -/
def Place.top : Place :=
  ⟨ScopeTree.root, Arena.root, none⟩

abbrev Action := EStateM Error Store

def Action.ofExcept {α : Type} (result : Except Error α) : Action α :=
  match result with
  | .ok a => pure a
  | .error e => throw e

instance : MonadLift (Except Error) Action where
  monadLift := Action.ofExcept

namespace Store

def lookup (s : Store) (p : Place) (name : String) (sel : Selector) : List DeclId :=
  s.scopes.lookup s.arena p.scope name sel

def lookupPath (s : Store) (p : Place) (path : Path) (sel : Selector) :
    Except Error (List DeclId) :=
  s.scopes.lookupPath s.arena p.scope path sel

def refer (s : Store) (id : DeclId) : Except Error Expr :=
  match s.arena.kind? id with
  | some (.var ty _) | some (.field ty) => .ok (.ref ⟨ty, .lvalue⟩ id)
  | some (.enumerator _) =>
      match s.arena.valueTy? id with
      | some ty => .ok (.ref ⟨ty, .rvalue⟩ id)
      | none => .error (.outOfOrder "enumerator outside of an enum")
  | _ => .error (.notAValue (s.arena.displayName id))

def nameExpr (s : Store) (p : Place) (path : Path) : Except Error Expr := do
  match ← s.lookupPath p path .everything with
  | id :: _ => s.refer id
  | [] => throw (.undeclared path.text)

def namedTy (s : Store) (p : Place) (path : Path) : Except Error Ty := do
  match ← s.lookupPath p path .context with
  | [id] =>
      match s.arena.tagTy? id with
      | some ty => pure ty
      | none => throw (.outOfOrder "tag lookup returned a non-tag")
  | [] => throw (.undeclared path.text)
  | _ => throw (.ambiguous path.text)

def returnStmt (s : Store) (p : Place) (value : Option Expr) : Except Error Stmt := do
  let some function := p.function | throw (.outOfOrder "return outside of a function")
  let returnTy := (← s.arena.func function).returnTy
  match value with
  | some value =>
      if returnTy.isVoid then throw (.unexpectedReturnValue (s.arena.displayName function))
      pure (.ret (some (← value.pass returnTy)))
  | none =>
      if !returnTy.isVoid then throw (.missingReturnValue (s.arena.displayName function))
      pure (.ret none)

end Store

end UnitAnalysis
