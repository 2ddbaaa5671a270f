import UnitAnalysis.Analysis

/-!
# The analysis with every access checked

A store answers questions about a declaration or a scope that it does not have
with a default.  Here are its queries and effects once more, on a store that
answers them with a failure: whatever they read or change goes through
`Checked.decl`, `Checked.scope`, `Checked.modifyDecl` and `Checked.modifyScope`.
The analysis is the same over either of them.
-/

namespace UnitAnalysis

/-- A declaration or scope that does not exist, or an error of the analysis. -/
inductive Failure where
  | noDecl (id : DeclId)
  | noScope (id : ScopeId)
  | error (e : Error)
  deriving DecidableEq, Repr

abbrev Checked := EStateM Failure Store

def Checked.ofExcept {α : Type} (result : Except Error α) : Checked α :=
  match result with
  | .ok a => pure a
  | .error e => throw (.error e)

instance : MonadLift (Except Error) Checked where
  monadLift := Checked.ofExcept

def Decl.displayName (d : Decl) : String :=
  d.name.getD "<anonymous>"

namespace Checked

/-! ## Access -/

def fail {α : Type} (e : Error) : Checked α :=
  throw (.error e)

def decl (id : DeclId) : Checked Decl := do
  match (← get).arena.decl? id with
  | some d => pure d
  | none => throw (.noDecl id)

def scope (id : ScopeId) : Checked Scope := do
  match (← get).scopes.scope? id with
  | some scope => pure scope
  | none => throw (.noScope id)

def modifyDecl (id : DeclId) (change : DeclKind → DeclKind) : Checked Unit := do
  let _ ← decl id
  modify fun s => { s with arena := s.arena.modifyKind id change }

def modifyScope (id : ScopeId) (change : List DeclId → List DeclId) : Checked Unit := do
  let _ ← scope id
  modify fun s => { s with scopes := s.scopes.modifyVisible id change }

/-- Those of some declarations that are as asked for. -/
def select (wanted : Decl → Bool) : List DeclId → Checked (List DeclId)
  | [] => pure []
  | id :: ids => do
      let d ← decl id
      let rest ← select wanted ids
      pure (if wanted d then id :: rest else rest)

/-! ## Functions and variables -/

def func (id : DeclId) : Checked Func := do
  let d ← decl id
  match d.kind.func? with
  | some f => pure f
  | none => fail (.outOfOrder (Error.quoted d.displayName ++ " is not a function"))

def varTy (id : DeclId) : Checked Ty := do
  let d ← decl id
  match d.kind.varTy? with
  | some ty => pure ty
  | none => fail (.outOfOrder (Error.quoted d.displayName ++ " is not a variable"))

def paramTys (id : DeclId) : Checked (List Ty) := do
  (← func id).params.mapM varTy

def firstWithin : Nat → DeclId → Checked DeclId
  | 0, id => pure id
  | steps + 1, id => do
      match (← func id).previous with
      | some earlier => firstWithin steps earlier
      | none => pure id

def firstDeclaration (id : DeclId) : Checked DeclId := do
  firstWithin (← get).arena.size id

def definedWithin : Nat → DeclId → Checked Bool
  | 0, _ => pure false
  | steps + 1, id => do
      let f ← func id
      if f.isDefinition then
        pure true
      else
        match f.previous with
        | some earlier => definedWithin steps earlier
        | none => pure false

def isDefined (id : DeclId) : Checked Bool := do
  definedWithin (← get).arena.size id

def tagTy? (id : DeclId) : Checked (Option Ty) := do
  let d ← decl id
  match d.kind.sort with
  | .tag kind => pure (some (.tag .none kind id d.displayName))
  | _ => pure none

/-! ## Names -/

def lookupLocal (id : ScopeId) (name : String) (sel : Selector) : Checked (List DeclId) := do
  select (fun d => d.name == some name && sel.accepts d.kind.sort) (← scope id).visible

def lookup (id : ScopeId) (name : String) (sel : Selector) : Checked (List DeclId) := do
  match ← lookupLocal id name sel with
  | [] =>
      match (← scope id).parent with
      | some parent => if parent < id then lookup parent name sel else pure []
      | none => pure []
  | found => pure found
termination_by id

def descend (resolved : String) (found : List DeclId) : List String → Checked (List DeclId)
  | [] => pure found
  | segment :: segments =>
      match found with
      | [] => fail (.undeclared resolved)
      | [context] => do
          match (← decl context).kind.members? with
          | some members =>
              let named ← select (fun d => d.name == some segment) members
              descend (resolved ++ "::" ++ segment) named segments
          | none => fail (.notAContext resolved)
      | _ => fail (.ambiguous resolved)

def lookupPath (p : Place) (path : Path) (sel : Selector) : Checked (List DeclId) :=
  if path.rest.isEmpty then lookup p.scope path.first sel
  else do
    let found ← descend path.first (← lookup p.scope path.first .context) path.rest
    select (fun d => sel.accepts d.kind.sort) found

def refer (id : DeclId) : Checked Expr := do
  let d ← decl id
  match d.kind with
  | .var ty _ | .field ty => pure (.ref ⟨ty, .lvalue⟩ id)
  | .enumerator _ =>
      let ty? ← match d.parent with
        | some parent => tagTy? parent
        | none => pure none
      match ty? with
      | some ty => pure (.ref ⟨ty, .rvalue⟩ id)
      | none => fail (.outOfOrder "enumerator outside of an enum")
  | _ => fail (.notAValue d.displayName)

def nameExpr (p : Place) (path : Path) : Checked Expr := do
  match ← lookupPath p path .everything with
  | id :: _ => refer id
  | [] => fail (.undeclared path.text)

def namedTy (p : Place) (path : Path) : Checked Ty := do
  match ← lookupPath p path .context with
  | [id] =>
      match ← tagTy? id with
      | some ty => pure ty
      | none => fail (.outOfOrder "tag lookup returned a non-tag")
  | [] => fail (.undeclared path.text)
  | _ => fail (.ambiguous path.text)

def returnStmt (p : Place) (value : Option Expr) : Checked Stmt := do
  let some function := p.function | fail (.outOfOrder "return outside of a function")
  let returnTy := (← func function).returnTy
  let name := (← decl function).displayName
  match value with
  | some value =>
      if returnTy.isVoid then fail (.unexpectedReturnValue name)
      pure (.ret (some (← value.pass returnTy)))
  | none =>
      if !returnTy.isVoid then fail (.missingReturnValue name)
      pure (.ret none)

/-! ## Calls -/

def candidates (p : Place) (path : Path) : Checked (List DeclId) := do
  let found ← lookupPath p path .function
  pure (← found.mapM firstDeclaration).eraseDups

/-- Do the parameters accept the arguments that they are paired with? -/
def acceptAll : List (DeclId × Expr) → Checked Bool
  | [] => pure true
  | (param, arg) :: rest => do
      match (← decl param).kind.varTy? with
      | some ty => if arg.canPass ty then acceptAll rest else pure false
      | none => pure false

def isViable (args : List Expr) (function : DeclId) : Checked Bool := do
  match (← decl function).kind.func? with
  | some f => if f.arity == args.length then acceptAll (f.params.zip args) else pure false
  | none => pure false

def findViable (args : List Expr) : List DeclId → Checked (Option DeclId)
  | [] => pure none
  | function :: functions => do
      if ← isViable args function then pure (some function) else findViable args functions

def passArg (param : DeclId) (arg : Expr) : Checked Expr := do
  arg.pass (← varTy param)

def callExpr (p : Place) (path : Path) (args : List Expr) : Checked Expr := do
  let candidates ← candidates p path
  if candidates.isEmpty then fail (.unknownFunction path.text)
  let some callee := ← findViable args candidates
    | fail (.noViableCall path.text candidates.length)
  let f ← func callee
  let passed ← (f.params.zip args).mapM fun (param, arg) => passArg param arg
  pure (.call ⟨f.returnTy, .rvalue⟩ callee passed)

/-! ## Declaring -/

def checkFresh (p : Place) (name : String) (overloadable : Bool) : Checked Unit := do
  let found ← lookupLocal p.scope name .everything
  let clashes ← select (fun d => !(overloadable && d.kind.sort == .func)) found
  if !clashes.isEmpty then fail (.redefinition name)

def checkContext (p : Place) (kind : TagKind) : Checked Unit := do
  if (← decl p.context).kind.sort ≠ .tag kind then
    fail <| .outOfOrder <|
      match kind with
      | .classTag => "field declared outside of a Class context"
      | .enumTag => "enumerator declared outside of a Enum context"

/-- The value of the first enumerator among some declarations. -/
def firstValue? : List DeclId → Checked (Option Int64)
  | [] => pure none
  | id :: ids => do
      match (← decl id).kind.enumeratorValue? with
      | some value => pure (some value)
      | none => firstValue? ids

def lastEnumerator? (context : DeclId) : Checked (Option Int64) := do
  firstValue? ((← decl context).kind.members?.getD []).reverse

def declare (p : Place) (name : String) (kind : DeclKind) : Checked DeclId :=
  modifyGet fun s =>
    (s.arena.size, { s with arena := (s.arena.intern name).push ⟨some name, some p.context, kind⟩ })

def addParam (function param : DeclId) : Checked Unit := do
  let _ ← func function
  modifyDecl function (.mapFunc fun f => { f with params := f.params ++ [param] })

def reveal (p : Place) (id : DeclId) : Checked Unit :=
  modifyScope p.scope (· ++ [id])

def enlist (p : Place) (id : DeclId) : Checked Unit := do
  let d ← decl p.context
  if d.kind.members?.isNone then
    fail (.outOfOrder (Error.quoted d.displayName ++ " is not a declaration context"))
  modifyDecl p.context (.addMember id)

def storeInit (id : DeclId) (init : Expr) : Checked Unit := do
  let init ← init.initFor (← varTy id)
  modifyDecl id (.setInit init)

/-! ## Brackets -/

def openScope (p : Place) : Checked Place := do
  let _ ← scope p.scope
  modifyGet fun s =>
    ({ p with scope := s.scopes.size }, { s with scopes := s.scopes.push p.scope })

def closeScope (p : Place) : Checked Place := do
  match (← scope p.scope).parent with
  | some outer =>
      modifyScope p.scope fun _ => []
      pure { p with scope := outer }
  | none => fail (.outOfOrder "cannot pop the root scope")

def enterTag (p : Place) (tag : DeclId) : Checked Place := do
  let d ← decl tag
  match d.kind.sort with
  | .tag _ => pure { ← openScope p with context := tag }
  | _ => fail (.outOfOrder (Error.quoted d.displayName ++ " is not a class or enum"))

def leaveTag (p : Place) : Checked Place := do
  match (← decl p.context).parent with
  | some context => pure { ← closeScope p with context := context }
  | none => fail (.outOfOrder "no tag definition to finish")

def redeclares (name : String) (function other : DeclId) : Checked Bool := do
  if other = function then return false
  let earlier ← paramTys other
  let later ← paramTys function
  if !Ty.sameAll earlier later then return false
  let expected := (← func other).returnTy
  let found := (← func function).returnTy
  if !expected.same found then fail (.conflictingDeclaration name expected.text found.text)
  return true

def previous? (name : String) (function : DeclId) (last : Option DeclId) :
    List DeclId → Checked (Option DeclId)
  | [] => pure last
  | other :: others => do
      if ← redeclares name function other then
        previous? name function (some other) others
      else
        previous? name function last others

def leaveParams (p : Place) (function : DeclId) : Checked Place := do
  let outer ← closeScope p
  let name := (← decl function).displayName
  let others ← lookupLocal outer.scope name .function
  match ← previous? name function none others with
  | some previous =>
      modifyDecl function (.mapFunc fun f => { f with previous := some previous })
  | none => pure ()
  pure outer

def enterBody (p : Place) (function : DeclId) : Checked Place := do
  if ← isDefined function then fail (.redefinition (← decl function).displayName)
  let params := (← func function).params
  let inner ← openScope p
  params.forM fun param => modifyScope inner.scope (· ++ [param])
  pure { inner with function := some function }

def leaveBody (p : Place) (body : List Stmt) : Checked Place := do
  let some function := p.function | fail (.outOfOrder "no function definition to finish")
  let _ ← func function
  modifyDecl function (.mapFunc fun f => { f with body := some body })
  pure { ← closeScope p with function := none }

end Checked

instance : Queries Unit Checked where
  namedTy _ := Checked.namedTy
  nameExpr _ := Checked.nameExpr
  callExpr _ := Checked.callExpr
  returnStmt _ := Checked.returnStmt
  checkFresh _ := Checked.checkFresh
  checkContext _ := Checked.checkContext
  lastEnumerator? _ := Checked.lastEnumerator?

instance : Effects Checked Unit Checked where
  ask query := query ()
  declare := Checked.declare
  addParam := Checked.addParam
  reveal := Checked.reveal
  enlist := Checked.enlist
  storeInit := Checked.storeInit
  enterTag := Checked.enterTag
  leaveTag := Checked.leaveTag
  enterParams := Checked.openScope
  leaveParams := Checked.leaveParams
  enterBlock := Checked.openScope
  leaveBlock := Checked.closeScope
  enterBody := Checked.enterBody
  leaveBody := Checked.leaveBody

/-- The declarations of a unit, or the first failure of its analysis. -/
def analyzeChecked (tokens : List Token) : Except Failure Arena :=
  match (analyzeItems (readItems tokens) : Checked Unit).run .empty with
  | .ok () s => .ok s.arena
  | .error e _ => .error e

end UnitAnalysis
