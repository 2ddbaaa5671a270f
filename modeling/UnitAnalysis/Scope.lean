import UnitAnalysis.Arena

/-!
# Lexical scopes and name lookup

Scopes form a tree in which every scope knows its parent only.  A scope lists
the declarations visible in it; the declarations themselves live in the arena.
A lookup takes what it finds in the innermost scope that has anything, so that
an inner declaration hides the outer ones.
-/

namespace UnitAnalysis

abbrev ScopeId := Nat

/-- Which declarations a lookup looks for. -/
inductive Selector where
  | everything
  | variable
  | function
  | tag (kind : TagKind)
  | context
  deriving DecidableEq, Repr

def Selector.accepts : Selector → DeclSort → Bool
  | .everything, _ => true
  | .variable, .var | .variable, .field => true
  | .function, .func => true
  | .tag kind, .tag other => kind == other
  | .context, .tag _ => true
  | _, _ => false

/-- A name, possibly qualified by the contexts that lead to it: `x` or `A::B::x`. -/
structure Path where
  first : String
  rest : List String
  deriving DecidableEq, Repr

def Path.text (p : Path) : String :=
  p.rest.foldl (fun text segment => text ++ "::" ++ segment) p.first

structure Scope where
  parent : Option ScopeId
  depth : Nat
  visible : List DeclId
  deriving DecidableEq, Repr

structure ScopeTree where
  scopes : Array Scope
  deriving DecidableEq, Repr

namespace ScopeTree

def empty : ScopeTree :=
  ⟨#[⟨none, 0, []⟩]⟩

def root : ScopeId := 0

def size (t : ScopeTree) : Nat :=
  t.scopes.size

def scope? (t : ScopeTree) (id : ScopeId) : Option Scope :=
  t.scopes[id]?

def parent? (t : ScopeTree) (id : ScopeId) : Option ScopeId :=
  (t.scope? id).bind (·.parent)

def depth (t : ScopeTree) (id : ScopeId) : Nat :=
  ((t.scope? id).map (·.depth)).getD 0

/-- The declarations visible in a scope itself. -/
def visible (t : ScopeTree) (id : ScopeId) : List DeclId :=
  ((t.scope? id).map (·.visible)).getD []

/-! ## Changing the tree -/

/-- Appends a child of `parent`, whose index is the old size. -/
def push (t : ScopeTree) (parent : ScopeId) : ScopeTree :=
  ⟨t.scopes.push ⟨some parent, t.depth parent + 1, []⟩⟩

def modifyVisible (t : ScopeTree) (id : ScopeId) (change : List DeclId → List DeclId) : ScopeTree :=
  ⟨t.scopes.modify id fun s => { s with visible := change s.visible }⟩

/-- Leaves a scope: nothing is visible in it any more.  Returns its parent too. -/
def pop (t : ScopeTree) (id : ScopeId) : Except Error (ScopeId × ScopeTree) :=
  match t.parent? id with
  | some parent => .ok (parent, t.modifyVisible id fun _ => [])
  | none => .error (.outOfOrder "cannot pop the root scope")

def add (t : ScopeTree) (id : ScopeId) (decl : DeclId) : ScopeTree :=
  t.modifyVisible id (· ++ [decl])

def remove (t : ScopeTree) (id : ScopeId) (decl : DeclId) : ScopeTree :=
  t.modifyVisible id (·.filter (· != decl))

@[simp]
theorem size_push (t : ScopeTree) (parent : ScopeId) : (t.push parent).size = t.size + 1 := by
  simp [push, size]

@[simp]
theorem size_modifyVisible (t : ScopeTree) (id : ScopeId) (change : List DeclId → List DeclId) :
    (t.modifyVisible id change).size = t.size := by
  simp [modifyVisible, size]

theorem visible_modifyVisible (t : ScopeTree) (id other : ScopeId)
    (change : List DeclId → List DeclId) (h : id < t.size) :
    (t.modifyVisible id change).visible other =
      if id = other then change (t.visible id) else t.visible other := by
  have hid : id < t.scopes.size := h
  by_cases hother : id = other
  · subst hother
    simp [visible, scope?, modifyVisible, hid, Array.getElem_modify]
  · simp [visible, scope?, modifyVisible, Array.getElem?_modify, hother]

/-! ## Lookup -/

/-- Is a declaration of the sort looked for, and of the name? -/
def matchesDecl (a : Arena) (name : String) (sel : Selector) (id : DeclId) : Bool :=
  a.name? id == some name && (a.sort? id).any sel.accepts

/-- The matching declarations of one scope, in the order in which they became visible. -/
def lookupLocal (t : ScopeTree) (a : Arena) (id : ScopeId) (name : String) (sel : Selector) :
    List DeclId :=
  (t.visible id).filter (matchesDecl a name sel)

/--
The matching declarations of the innermost scope that has any.  A parent is
older than its children, so the walk outwards ends.
-/
def lookup (t : ScopeTree) (a : Arena) (id : ScopeId) (name : String) (sel : Selector) :
    List DeclId :=
  match t.lookupLocal a id name sel with
  | [] =>
      match t.parent? id with
      | some parent => if parent < id then t.lookup a parent name sel else []
      | none => []
  | found => found
termination_by id

/--
Resolves the remaining segments of a path.  All that was found for the part
already read must be one single context.
-/
def descend (a : Arena) (resolved : String) (found : List DeclId) :
    List String → Except Error (List DeclId)
  | [] => .ok found
  | segment :: segments =>
      match found with
      | [] => .error (.undeclared resolved)
      | [context] =>
          if a.isContext context then
            descend a (resolved ++ "::" ++ segment) (a.membersNamed context segment) segments
          else .error (.notAContext resolved)
      | _ => .error (.ambiguous resolved)

/--
Resolves a path.  A single name is looked up in the scopes.  Of a qualified name
the first segment is a class or enum looked up in the scopes, and each further
segment a member of what the segments before it name.
-/
def lookupPath (t : ScopeTree) (a : Arena) (id : ScopeId) (p : Path) (sel : Selector) :
    Except Error (List DeclId) :=
  if p.rest.isEmpty then .ok (t.lookup a id p.first sel)
  else
    (descend a p.first (t.lookup a id p.first .context) p.rest).map
      (·.filter fun d => (a.sort? d).any sel.accepts)

end ScopeTree

end UnitAnalysis
