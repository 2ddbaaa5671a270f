import UnitAnalysis.Decl
import UnitAnalysis.Error

/-!
# The declaration arena

All declarations of one unit, addressed by their index.  The first one is the
unit itself.  Declarations are never removed, and beside them the arena keeps
every name that was ever given to one.
-/

namespace UnitAnalysis

structure Arena where
  decls : Array Decl
  names : List String
  deriving Repr

namespace Arena

def empty : Arena :=
  ⟨#[⟨none, none, .unit []⟩], []⟩

def root : DeclId := 0

def size (a : Arena) : Nat :=
  a.decls.size

def decl? (a : Arena) (id : DeclId) : Option Decl :=
  a.decls[id]?

def kind? (a : Arena) (id : DeclId) : Option DeclKind :=
  (a.decl? id).map (·.kind)

def sort? (a : Arena) (id : DeclId) : Option DeclSort :=
  (a.kind? id).map (·.sort)

def parent? (a : Arena) (id : DeclId) : Option DeclId :=
  (a.decl? id).bind (·.parent)

def name? (a : Arena) (id : DeclId) : Option String :=
  (a.decl? id).bind (·.name)

def displayName (a : Arena) (id : DeclId) : String :=
  (a.name? id).getD "<anonymous>"

/-! ## Growing the arena -/

/-- Keeps a name, once. -/
def intern (a : Arena) (name : String) : Arena :=
  if a.names.contains name then a else { a with names := name :: a.names }

def knows (a : Arena) (name : String) : Bool :=
  a.names.contains name

/-- Appends a declaration, whose index is the old size. -/
def push (a : Arena) (d : Decl) : Arena :=
  { a with decls := a.decls.push d }

def modifyKind (a : Arena) (id : DeclId) (change : DeclKind → DeclKind) : Arena :=
  { a with decls := a.decls.modify id fun d => { d with kind := change d.kind } }

@[simp]
theorem size_push (a : Arena) (d : Decl) : (a.push d).size = a.size + 1 := by
  simp [push, size]

@[simp]
theorem size_intern (a : Arena) (name : String) : (a.intern name).size = a.size := by
  unfold intern
  split <;> rfl

@[simp]
theorem size_modifyKind (a : Arena) (id : DeclId) (change : DeclKind → DeclKind) :
    (a.modifyKind id change).size = a.size := by
  simp [modifyKind, size]

theorem decl?_push (a : Arena) (d : Decl) (id : DeclId) :
    (a.push d).decl? id = if id = a.size then some d else a.decl? id := by
  simp only [push, decl?, size, Array.getElem?_push]
  rfl

/-! ## Contexts -/

def members? (a : Arena) (id : DeclId) : Option (List DeclId) :=
  (a.kind? id).bind (·.members?)

def isContext (a : Arena) (id : DeclId) : Bool :=
  (a.members? id).isSome

def addMember (a : Arena) (context id : DeclId) : Except Error Arena :=
  if a.isContext context then .ok (a.modifyKind context (.addMember id))
  else .error (.outOfOrder (Error.quoted (a.displayName context) ++
    " is not a declaration context"))

/-- The members of a context that have a name, in order of declaration. -/
def membersNamed (a : Arena) (context : DeclId) (name : String) : List DeclId :=
  ((a.members? context).getD []).filter fun id => a.name? id == some name

/-! ## Functions and variables -/

def func (a : Arena) (id : DeclId) : Except Error Func :=
  match (a.kind? id).bind (·.func?) with
  | some f => .ok f
  | none => .error (.outOfOrder (Error.quoted (a.displayName id) ++ " is not a function"))

def varTy (a : Arena) (id : DeclId) : Except Error Ty :=
  match (a.kind? id).bind (·.varTy?) with
  | some ty => .ok ty
  | none => .error (.outOfOrder (Error.quoted (a.displayName id) ++ " is not a variable"))

def paramTys (a : Arena) (id : DeclId) : Except Error (List Ty) := do
  (← a.func id).params.mapM a.varTy

/-- Follows the redeclarations of a function back, at most `steps` times. -/
def firstWithin (a : Arena) : Nat → DeclId → Except Error DeclId
  | 0, id => .ok id
  | steps + 1, id => do
      match (← a.func id).previous with
      | some earlier => a.firstWithin steps earlier
      | none => pure id

/--
The first declaration of a function.  The earlier declarations are different
ones, so that there are fewer of them than declarations in the arena.
-/
def firstDeclaration (a : Arena) (id : DeclId) : Except Error DeclId :=
  a.firstWithin a.size id

/-- Has one of the latest `steps` declarations of a function a body? -/
def definedWithin (a : Arena) : Nat → DeclId → Except Error Bool
  | 0, _ => .ok false
  | steps + 1, id => do
      let f ← a.func id
      if f.isDefinition then
        pure true
      else
        match f.previous with
        | some earlier => a.definedWithin steps earlier
        | none => pure false

/-- Has this declaration of a function or an earlier one a body? -/
def isDefined (a : Arena) (id : DeclId) : Except Error Bool :=
  a.definedWithin a.size id

/-! ## Types of declarations -/

def tagTy? (a : Arena) (id : DeclId) : Option Ty :=
  match a.sort? id with
  | some (.tag kind) => some (.tag .none kind id (a.displayName id))
  | _ => none

/-- The type of the value that a declaration denotes. -/
def valueTy? (a : Arena) (id : DeclId) : Option Ty :=
  match a.kind? id with
  | some (.var ty _) | some (.field ty) => some ty
  | some (.enumerator _) => (a.parent? id).bind a.tagTy?
  | _ => none

end Arena

end UnitAnalysis
