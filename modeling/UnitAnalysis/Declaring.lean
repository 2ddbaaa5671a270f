import UnitAnalysis.Store

/-!
# Declaring

What adds declarations and checks them against the scope they stand in.  A new
declaration is neither visible there nor a member of its context until `reveal`
and `enlist` say so.
-/

namespace UnitAnalysis

namespace Store

/--
A name may be declared once in a scope, except that functions may share a name
with functions.
-/
def checkFresh (s : Store) (p : Place) (name : String) (overloadable : Bool) :
    Except Error Unit :=
  let clash := (s.scopes.lookupLocal s.arena p.scope name .everything).any fun id =>
    !(overloadable && s.arena.sort? id == some .func)
  if clash then .error (.redefinition name) else .ok ()

/-- A class member needs a class around it, and an enumerator an enum. -/
def checkContext (s : Store) (p : Place) (kind : TagKind) : Except Error Unit :=
  if s.arena.sort? p.context = some (.tag kind) then .ok ()
  else
    .error <| .outOfOrder <|
      match kind with
      | .classTag => "field declared outside of a Class context"
      | .enumTag => "enumerator declared outside of a Enum context"

/-- The value of the enumerator that was last listed in a context. -/
def lastEnumerator? (s : Store) (context : DeclId) : Option Int64 :=
  ((s.arena.members? context).getD []).reverse.findSome? fun id =>
    (s.arena.kind? id).bind (·.enumeratorValue?)

end Store

/-- No object has the type `void`. -/
def checkObject (name : String) (ty : Ty) : Except Error Unit :=
  if ty.isVoid then .error (.voidObject name) else .ok ()

/-- The value that follows the last one, starting at zero, unless it is out of range. -/
def nextEnumerator? : Option Int64 → Option Int64
  | none => some 0
  | some last => if last = Int64.maxValue then none else some (last + 1)

def enumeratorPastRange {α : Type} (name : String) : Except Error α :=
  .error (.unsupported ("enumerator " ++ Error.quoted name ++ " past the vi64 range"))

def declare (p : Place) (name : String) (kind : DeclKind) : Action DeclId :=
  modifyGet fun s =>
    (s.arena.size, { s with arena := (s.arena.intern name).push ⟨some name, some p.context, kind⟩ })

/-- Appends a parameter to those of a function. -/
def addParam (function param : DeclId) : Action Unit := do
  let _ ← (← get).arena.func function
  modify fun s =>
    { s with
      arena := s.arena.modifyKind function (.mapFunc fun f =>
        { f with params := f.params ++ [param] }) }

/-- Makes a declaration visible in the current scope. -/
def reveal (p : Place) (id : DeclId) : Action Unit :=
  modify fun s => { s with scopes := s.scopes.add p.scope id }

/-- Lists a declaration as a member of the current context. -/
def enlist (p : Place) (id : DeclId) : Action Unit := do
  let arena ← (← get).arena.addMember p.context id
  modify fun s => { s with arena := arena }

def storeInit (id : DeclId) (init : Expr) : Action Unit := do
  let init ← init.initFor (← (← get).arena.varTy id)
  modify fun s => { s with arena := s.arena.modifyKind id (.setInit init) }

end UnitAnalysis
