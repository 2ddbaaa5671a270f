import UnitAnalysis.Store

/-!
# Brackets

Bodies of classes and enums, parameter lists, blocks and function bodies open a
scope and close it again.  Entering takes the outer place and gives the inner
one; leaving does the reverse.
-/

namespace UnitAnalysis

def openScope (p : Place) : Action Place :=
  modifyGet fun s =>
    ({ p with scope := s.scopes.size }, { s with scopes := s.scopes.push p.scope })

def closeScope (p : Place) : Action Place := do
  let (outer, scopes) ← (← get).scopes.pop p.scope
  modify fun s => { s with scopes := scopes }
  pure { p with scope := outer }

/-! ## Classes and enums -/

def enterTag (p : Place) (tag : DeclId) : Action Place := do
  let s ← get
  match s.arena.sort? tag with
  | some (.tag _) => pure { ← openScope p with context := tag }
  | _ =>
      throw (.outOfOrder (Error.quoted (s.arena.displayName tag) ++ " is not a class or enum"))

def leaveTag (p : Place) : Action Place := do
  match (← get).arena.parent? p.context with
  | some context => pure { ← closeScope p with context := context }
  | none => throw (.outOfOrder "no tag definition to finish")

/-! ## Parameter lists -/

def enterParams (p : Place) : Action Place :=
  openScope p

/--
Compares a function with an earlier one of its name.  Equal parameter types make
it a redeclaration, which must agree on the return type.
-/
def Store.redeclares (s : Store) (name : String) (function other : DeclId) :
    Except Error Bool := do
  if other = function then return false
  let earlier ← s.arena.paramTys other
  let later ← s.arena.paramTys function
  if !Ty.sameAll earlier later then return false
  let expected := (← s.arena.func other).returnTy
  let found := (← s.arena.func function).returnTy
  if !expected.same found then throw (.conflictingDeclaration name expected.text found.text)
  return true

/-- The last of some functions that the given one redeclares. -/
def Store.previous? (s : Store) (name : String) (function : DeclId) (last : Option DeclId) :
    List DeclId → Except Error (Option DeclId)
  | [] => .ok last
  | other :: others => do
      if ← s.redeclares name function other then
        s.previous? name function (some other) others
      else
        s.previous? name function last others

/-- Closes a parameter list and links the function to its earlier declaration. -/
def leaveParams (p : Place) (function : DeclId) : Action Place := do
  let outer ← closeScope p
  let s ← get
  let name := s.arena.displayName function
  let others := s.scopes.lookupLocal s.arena outer.scope name .function
  match ← s.previous? name function none others with
  | some previous =>
      set { s with
        arena := s.arena.modifyKind function (.mapFunc fun f =>
          { f with previous := some previous }) }
  | none => pure ()
  pure outer

/-! ## Blocks -/

def enterBlock (p : Place) : Action Place :=
  openScope p

def leaveBlock (p : Place) : Action Place :=
  closeScope p

/-! ## Function bodies -/

/-- Opens the body of a function that has none yet, with its parameters visible. -/
def enterBody (p : Place) (function : DeclId) : Action Place := do
  let s ← get
  if ← s.arena.isDefined function then throw (.redefinition (s.arena.displayName function))
  let params := (← s.arena.func function).params
  let inner ← openScope p
  modify fun s => { s with scopes := params.foldl (·.add inner.scope ·) s.scopes }
  pure { inner with function := some function }

/-- Stores the body of the current function and leaves it.  Functions do not nest. -/
def leaveBody (p : Place) (body : List Stmt) : Action Place := do
  let some function := p.function | throw (.outOfOrder "no function definition to finish")
  let _ ← (← get).arena.func function
  modify fun s =>
    { s with arena := s.arena.modifyKind function (.mapFunc fun f => { f with body := some body }) }
  pure { ← closeScope p with function := none }

end UnitAnalysis
