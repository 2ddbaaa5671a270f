import UnitAnalysis.Call
import UnitAnalysis.Proofs.Update

/-!
# Runs of the analysis

The successful analyses of a unit, as relations between stores.  There is one
relation for each construct.  It says what the construct does to the store and
under which conditions, and leaves aside the tree that the construct was read
from.  Every property of accepted units is proved by going through these
relations; `Proofs.Acceptance` shows that they cover every accepted unit.
-/

namespace UnitAnalysis

/-! ## Expressions -/

/-- The expressions that can be written at a place. -/
inductive ExprAt (s : Store) (p : Place) : Expr → Prop where
  | int (value : Int64) : ExprAt s p (.ofInt value)
  | float (value : Binary64) : ExprAt s p (.ofFloat value)
  | bool (value : Bool) : ExprAt s p (.ofBool value)
  | name {path : Path} {e : Expr} (hname : s.nameExpr p path = .ok e) : ExprAt s p e
  | call {path : Path} {args : List Expr} {e : Expr}
      (hargs : ∀ arg ∈ args, ExprAt s p arg)
      (hcall : s.callExpr p path args = .ok e) : ExprAt s p e
  | binary {op : BinaryOp} {lhs rhs e : Expr}
      (hlhs : ExprAt s p lhs) (hrhs : ExprAt s p rhs)
      (hcombine : Expr.combine op lhs rhs = .ok e) : ExprAt s p e

/-! ## Variables and statements -/

/-- A name is free in the scope of a place, functions aside if it is overloadable. -/
def Store.Fresh (s : Store) (p : Place) (name : String) (overloadable : Bool) : Prop :=
  ∀ id ∈ s.scopes.visible p.scope, s.arena.name? id = some name →
    overloadable = true ∧ s.arena.sort? id = some .func

/--
The initializer of a variable is written where the variable is declared but not
yet visible.
-/
inductive VarStep (p : Place) (s : Store) : DeclId → Store → Prop where
  | plain {name : String} {ty : Ty}
      (hfresh : s.Fresh p name false) (hobject : ty.isVoid = false) :
      VarStep p s s.arena.size
        ((s.declared p name (.var ty none)).revealed p s.arena.size)
  | init {name : String} {ty : Ty} {e init : Expr}
      (hfresh : s.Fresh p name false) (hobject : ty.isVoid = false)
      (hexpr : ExprAt (s.declared p name (.var ty none)) p e)
      (hinit : e.initFor ty = .ok init) :
      VarStep p s s.arena.size
        ((s.declared p name (.var ty (some init))).revealed p s.arena.size)

inductive BlockRun : Place → Store → List Stmt → Store → Prop where
  | nil {p : Place} {s : Store} : BlockRun p s [] s
  | block {p : Place} {s s₁ s' : Store} {body rest : List Stmt}
      (hbody : BlockRun (p.inside s) (s.opened p) body s₁)
      (hrest : BlockRun p (s₁.closed s.scopes.size) rest s') :
      BlockRun p s (.compound body :: rest) s'
  | var {p : Place} {s s₁ s' : Store} {id : DeclId} {rest : List Stmt}
      (hvar : VarStep p s id s₁) (hrest : BlockRun p s₁ rest s') :
      BlockRun p s (.decl id :: rest) s'
  | expr {p : Place} {s s' : Store} {e : Expr} {rest : List Stmt}
      (hexpr : ExprAt s p e) (hrest : BlockRun p s rest s') :
      BlockRun p s (.expr e :: rest) s'
  | ret {p : Place} {s s' : Store} {function : DeclId} {f : Func} {rest : List Stmt}
      (hfunction : p.function = some function) (hfunc : s.arena.func function = .ok f)
      (hvoid : f.returnTy.isVoid = true) (hrest : BlockRun p s rest s') :
      BlockRun p s (.ret none :: rest) s'
  | retValue {p : Place} {s s' : Store} {function : DeclId} {f : Func} {e value : Expr}
      {rest : List Stmt}
      (hfunction : p.function = some function) (hfunc : s.arena.func function = .ok f)
      (hvoid : f.returnTy.isVoid = false) (hexpr : ExprAt s p e)
      (hpass : e.pass f.returnTy = .ok value) (hrest : BlockRun p s rest s') :
      BlockRun p s (.ret (some value) :: rest) s'

/-! ## Functions -/

/-- Steps of one kind, one after the other, with the declarations they make. -/
inductive Runs (step : Store → DeclId → Store → Prop) :
    Store → List DeclId → Store → Prop where
  | nil {s : Store} : Runs step s [] s
  | cons {s s₁ s' : Store} {id : DeclId} {ids : List DeclId}
      (hstep : step s id s₁) (hrest : Runs step s₁ ids s') : Runs step s (id :: ids) s'

inductive ParamStep (p : Place) (function : DeclId) (s : Store) : DeclId → Store → Prop where
  | mk {name : String} {ty : Ty}
      (hfresh : s.Fresh p name false) (hobject : ty.isVoid = false) :
      ParamStep p function s s.arena.size
        (((s.declared p name (.var ty none)).mapFunc function fun f =>
          { f with params := f.params ++ [s.arena.size] }).revealed p s.arena.size)

/--
The store after the signature of the function that comes next in `s`, with the
parameters already made.
-/
def Store.concluded (s₁ : Store) (p : Place) (s : Store) (previous : Option DeclId) : Store :=
  (((s₁.closed s.scopes.size).linked s.arena.size previous).revealed p
    s.arena.size).enlisted p s.arena.size

/--
A function up to its body.  The parameters have a scope of their own, which is
closed before the function is compared with the others of its name.
-/
inductive SignatureStep (p : Place) (s : Store) : DeclId → Store → Prop where
  | mk {name : String} {returnTy : Ty} {params : List DeclId} {s₁ : Store}
      {previous : Option DeclId}
      (hfresh : s.Fresh p name true)
      (hparams : Runs (ParamStep (p.inside s) s.arena.size)
        ((s.declared p name (.func (.prototype returnTy))).opened p) params s₁)
      (hprevious : (s₁.closed s.scopes.size).previous? name s.arena.size none
        ((s₁.closed s.scopes.size).scopes.lookupLocal s₁.arena p.scope name .function) =
          .ok previous) :
      SignatureStep p s s.arena.size (s₁.concluded p s previous)

inductive FuncStep (p : Place) (s : Store) : DeclId → Store → Prop where
  | prototype {id : DeclId} {s₁ : Store} (hsignature : SignatureStep p s id s₁) :
      FuncStep p s id s₁
  | definition {id : DeclId} {s₁ s₂ : Store} {f : Func} {body : List Stmt}
      (hsignature : SignatureStep p s id s₁)
      (hdefined : s₁.arena.isDefined id = .ok false)
      (hfunc : s₁.arena.func id = .ok f)
      (hbody : BlockRun { p.inside s₁ with function := some id }
        ((s₁.opened p).revealedAll s₁.scopes.size f.params) body s₂) :
      FuncStep p s id
        ((s₂.mapFunc id fun f => { f with body := some body }).closed s₁.scopes.size)

/-! ## Classes, enums and items -/

inductive FieldStep (p : Place) (s : Store) : DeclId → Store → Prop where
  | mk {name : String} {ty : Ty}
      (hcontext : s.arena.sort? p.context = some (.tag .classTag))
      (hfresh : s.Fresh p name false) (hobject : ty.isVoid = false) :
      FieldStep p s s.arena.size
        (((s.declared p name (.field ty)).revealed p s.arena.size).enlisted p s.arena.size)

inductive MemberStep (p : Place) (s : Store) : DeclId → Store → Prop where
  | field {id : DeclId} {s' : Store} (hfield : FieldStep p s id s') : MemberStep p s id s'
  | func {id : DeclId} {s' : Store} (hfunc : FuncStep p s id s') : MemberStep p s id s'

inductive EnumeratorStep (p : Place) (s : Store) : DeclId → Store → Prop where
  | mk {name : String} {value : Int64}
      (hcontext : s.arena.sort? p.context = some (.tag .enumTag))
      (hfresh : s.Fresh p name false) :
      EnumeratorStep p s s.arena.size
        (((s.declared p name (.enumerator value)).revealed p s.arena.size).enlisted p
          s.arena.size)

/-- The store in which the body of a class or enum begins, still outside its scope. -/
def Store.tagged (s : Store) (p : Place) (name : String) (kind : TagKind) : Store :=
  ((s.declared p name (.tag kind [])).revealed p s.arena.size).enlisted p s.arena.size

/-- A class or enum, whose members are made by steps of the given kind. -/
inductive TagStep (kind : TagKind) (member : Place → Store → DeclId → Store → Prop)
    (p : Place) (s : Store) : DeclId → Store → Prop where
  | mk {name : String} {members : List DeclId} {s₁ : Store}
      (hfresh : s.Fresh p name false)
      (hmembers : Runs (member { p.inside s with context := s.arena.size })
        ((s.tagged p name kind).opened p) members s₁) :
      TagStep kind member p s s.arena.size (s₁.closed s.scopes.size)

inductive ItemStep (p : Place) (s : Store) : DeclId → Store → Prop where
  | classItem {id : DeclId} {s' : Store} (hclass : TagStep .classTag MemberStep p s id s') :
      ItemStep p s id s'
  | enumItem {id : DeclId} {s' : Store} (henum : TagStep .enumTag EnumeratorStep p s id s') :
      ItemStep p s id s'
  | func {id : DeclId} {s' : Store} (hfunc : FuncStep p s id s') : ItemStep p s id s'
  | var {id : DeclId} {s₁ : Store} (hvar : VarStep p s id s₁) :
      ItemStep p s id (s₁.enlisted p id)

def UnitRun (ids : List DeclId) (s : Store) : Prop :=
  Runs (ItemStep .top) .empty ids s

end UnitAnalysis
