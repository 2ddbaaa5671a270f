import UnitAnalysis.Access
import UnitAnalysis.Tree.Item

/-!
# Analysis of a unit

The trees of a unit are gone through from left to right, and each construct is
handed to the store as soon as it is complete.  The first error ends the
analysis, be it a fault of the tree or an error of meaning.

All this is stated over any `Queries` and `Effects`, and `analyze` is the analysis
on a store.
-/

namespace UnitAnalysis

def Fault.error (f : Fault) : Error :=
  .malformed f.text

/-- The outcome of a piece that is not there. -/
def Fault.raise {α : Type} (f : Fault) : Except Error α :=
  .error f.error

def Required.check {α : Type} (piece : Required α) : Except Error α :=
  piece.mapError Fault.error

/-! ## Types and expressions -/

def TypeSuffix.apply (t : Ty) : TypeSuffix → Ty
  | .qualifier word => t.qualify word
  | .pointer => t.pointerTo
  | .reference => t.referenceTo

section Queries

variable {σ : Type} {q : Type → Type} [Queries σ q] [Monad q] [MonadLiftT (Except Error) q]

def TypeTree.analyze (s : σ) (p : Place) (tree : TypeTree) : q Ty := do
  let base ← match ← tree.base.check with
    | .builtin kind => pure (.ofBuiltin kind)
    | .named path => Queries.namedTy s p path
  pure (tree.suffixes.foldl TypeSuffix.apply (base.withQuals tree.quals))

mutual

def ExprTree.analyze (s : σ) (p : Place) : ExprTree → q Expr
  | .int value => pure (.ofInt value)
  | .float value => pure (.ofFloat value)
  | .bool value => pure (.ofBool value)
  | .name path => Queries.nameExpr s p path
  | .call path args => do Queries.callExpr s p path (← ExprTree.analyzeAll s p args)
  | .binary op lhs rhs => do
      let lhs ← lhs.analyze s p
      let rhs ← rhs.analyze s p
      Expr.combine op lhs rhs
  | .broken parts fault => do
      let _ ← ExprTree.analyzeAll s p parts
      fault.raise

def ExprTree.analyzeAll (s : σ) (p : Place) : List ExprTree → q (List Expr)
  | [] => pure []
  | tree :: trees => do
      let e ← tree.analyze s p
      let es ← ExprTree.analyzeAll s p trees
      pure (e :: es)

end

end Queries

section Effects

variable {σ : Type} {q m : Type → Type} [Queries σ q] [Effects m σ q] [Monad q] [Monad m]
  [MonadLiftT (Except Error) q] [MonadLiftT (Except Error) m]

/-! ## Declarations -/

def declareVar (p : Place) (name : String) (ty : Ty) : m DeclId := do
  Effects.ask (Queries.checkFresh · p name false)
  checkObject name ty
  Effects.declare p name (.var ty none)

def declareField (p : Place) (name : String) (ty : Ty) : m DeclId := do
  Effects.ask (Queries.checkContext · p .classTag)
  Effects.ask (Queries.checkFresh · p name false)
  checkObject name ty
  Effects.declare p name (.field ty)

def declareTag (kind : TagKind) (p : Place) (name : String) : m DeclId := do
  Effects.ask (Queries.checkFresh · p name false)
  Effects.declare p name (.tag kind [])

/-- Declares an enumerator; without a value it takes the one after its predecessor's. -/
def declareEnumerator (p : Place) (name : String) (value : Option Int64) : m DeclId := do
  Effects.ask (Queries.checkContext · p .enumTag)
  Effects.ask (Queries.checkFresh · p name false)
  match value <|> nextEnumerator? (← Effects.ask (Queries.lastEnumerator? · p.context)) with
  | some value => Effects.declare p name (.enumerator value)
  | none => enumeratorPastRange name

def declareFunc (p : Place) (name : String) (returnTy : Ty) : m DeclId := do
  Effects.ask (Queries.checkFresh · p name true)
  Effects.declare p name (.func (.prototype returnTy))

def declareParam (p : Place) (function : DeclId) (name : String) (ty : Ty) : m DeclId := do
  Effects.ask (Queries.checkFresh · p name false)
  checkObject name ty
  let param ← Effects.declare p name (.var ty none)
  Effects.addParam function param
  pure param

/-! ## Variables and statements -/

/-- A variable is visible only after its initializer. -/
def VarTree.analyze (p : Place) (tree : VarTree) : m DeclId := do
  let ty ← Effects.ask (tree.type.analyze · p)
  let id ← declareVar p (← tree.name.check) ty
  match tree.init with
  | some init => Effects.storeInit id (← Effects.ask (init.analyze · p))
  | none => pure ()
  tree.semi.check
  Effects.reveal p id
  pure id

mutual

def StmtTree.analyze (p : Place) : StmtTree → m Stmt
  | .block body => do
      let inner ← Effects.enterBlock p
      let body ← StmtTree.analyzeAll inner body
      let _ ← Effects.leaveBlock inner
      pure (.compound body)
  | .var tree => do pure (.decl (← tree.analyze p))
  | .ret none semi => do
      semi.check
      Effects.ask (Queries.returnStmt · p none)
  | .ret (some value) semi => do
      let value ← Effects.ask (value.analyze · p)
      semi.check
      Effects.ask (Queries.returnStmt · p (some value))
  | .expr value semi => do
      let value ← Effects.ask (value.analyze · p)
      semi.check
      pure (.expr value)
  | .broken fault => fault.raise

def StmtTree.analyzeAll (p : Place) : List StmtTree → m (List Stmt)
  | [] => pure []
  | tree :: trees => do
      let stmt ← tree.analyze p
      let stmts ← StmtTree.analyzeAll p trees
      pure (stmt :: stmts)

end

/-! ## Functions -/

def ParamTree.analyze (p : Place) (function : DeclId) (tree : ParamTree) : m Unit := do
  let ty ← Effects.ask (tree.type.analyze · p)
  let id ← declareParam p function (← tree.name.check) ty
  Effects.reveal p id

def BodyTree.analyze (p : Place) (function : DeclId) : BodyTree → m Unit
  | .prototype => pure ()
  | .block body => do
      let inner ← Effects.enterBody p function
      let body ← StmtTree.analyzeAll inner body
      let _ ← Effects.leaveBody inner body
  | .broken fault => fault.raise

/-- The return type of a function, which stands after its parameters but is needed first. -/
def FuncTree.analyzeReturn (p : Place) (tree : FuncTree) : m Ty :=
  match tree.returnType with
  | some type => Effects.ask (type.analyze · p)
  | none => pure (.ofBuiltin .void)

/-- A function through the parenthesis that closes its parameters, with the place inside it. -/
def FuncTree.analyzeParams (p : Place) (tree : FuncTree) : m (Place × DeclId) := do
  let name ← tree.name.check
  tree.parens.check
  let returnTy ← tree.analyzeReturn p
  let id ← declareFunc p name returnTy
  let inner ← Effects.enterParams p
  tree.params.forM (·.analyze inner id)
  tree.rparen.check
  pure (inner, id)

/-- A function up to its body, with the place it stands at. -/
def FuncTree.sign (p : Place) (tree : FuncTree) : m (Place × DeclId) := do
  let (inner, id) ← tree.analyzeParams p
  let outer ← Effects.leaveParams inner id
  Effects.reveal outer id
  Effects.enlist outer id
  pure (outer, id)

/-- A function is visible in its own body. -/
def FuncTree.analyze (p : Place) (tree : FuncTree) : m Unit := do
  let (outer, id) ← tree.sign p
  tree.body.analyze outer id

/-! ## Classes and enums -/

def FieldTree.analyze (p : Place) (tree : FieldTree) : m Unit := do
  let ty ← Effects.ask (tree.type.analyze · p)
  let id ← declareField p (← tree.name.check) ty
  tree.semi.check
  Effects.reveal p id
  Effects.enlist p id

def MemberTree.analyze (p : Place) : MemberTree → m Unit
  | .field tree => tree.analyze p
  | .func tree => tree.analyze p
  | .broken fault => fault.raise

/-- A class or enum up to its opening brace.  It is visible in its own body. -/
def openTag (kind : TagKind) (p : Place) (name : Required String) (lbrace : Required Unit) :
    m Place := do
  let id ← declareTag kind p (← name.check)
  Effects.reveal p id
  Effects.enlist p id
  lbrace.check
  Effects.enterTag p id

def ClassTree.analyze (p : Place) (tree : ClassTree) : m Unit := do
  let inner ← openTag .classTag p tree.name tree.lbrace
  tree.members.forM (·.analyze inner)
  let _ ← Effects.leaveTag inner

def EnumeratorTree.analyze (p : Place) (tree : EnumeratorTree) : m Unit := do
  let name ← tree.name.check
  let value ← match tree.value with
    | some value => some <$> value.check
    | none => pure none
  let id ← declareEnumerator p name value
  Effects.reveal p id
  Effects.enlist p id

def EnumTree.analyze (p : Place) (tree : EnumTree) : m Unit := do
  let inner ← openTag .enumTag p tree.name tree.lbrace
  tree.members.forM (·.analyze inner)
  tree.rbrace.check
  let _ ← Effects.leaveTag inner

/-! ## Units -/

def ItemTree.analyze (p : Place) : ItemTree → m Unit
  | .classItem item => item.analyze p
  | .enumItem item => item.analyze p
  | .funcItem item => item.analyze p
  | .varItem item => do Effects.enlist p (← item.analyze p)
  | .broken fault => fault.raise

def analyzeItems (items : List ItemTree) : m Unit :=
  items.forM (·.analyze .top)

end Effects

/-- The declarations of a unit, or its first error. -/
def analyze (tokens : List Token) : Except Error Arena :=
  match (analyzeItems (readItems tokens) : Action Unit).run .empty with
  | .ok () s => .ok s.arena
  | .error e _ => .error e

end UnitAnalysis
