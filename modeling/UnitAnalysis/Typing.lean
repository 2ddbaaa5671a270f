import UnitAnalysis.Conversion

/-!
# Building typed expressions

Each constructor of an analysed expression has its rule here: literals, loads,
conversions to a wanted type, and the binary operators.  None of them needs to
know any declaration.
-/

namespace UnitAnalysis

namespace Expr

/-! ## Literals -/

/-- An integer literal has the narrowest kind that holds its value. -/
def ofInt (value : Int64) : Expr :=
  .int ⟨.ofBuiltin (.ofInt value), .rvalue⟩ value

def ofFloat (value : Binary64) : Expr :=
  .float ⟨.ofBuiltin .vr32, .rvalue⟩ value

def ofBool (value : Bool) : Expr :=
  .bool ⟨.ofBuiltin .bool, .rvalue⟩ value

/-! ## Conversions -/

/-- The value of an expression: storage is loaded, through a reference if need be. -/
def loaded (e : Expr) : Expr :=
  if e.isRvalue then e else .load ⟨e.ty.deref, .rvalue⟩ e

def casted (e : Expr) (target : Ty) : Option CastKind → Expr
  | none => e
  | some kind => .cast ⟨target, .rvalue⟩ kind e

def convert (e : Expr) (target : Ty) : Except Error Expr := do
  let kind ← e.ty.requireCast target
  pure (e.casted target kind).loaded

/-- Binds a reference; the expression stays as it is. -/
def bindTo (e : Expr) (referent : Ty) : Except Error Expr := do
  e.requireBind referent
  pure e

/-- Passes a value into a parameter or out of a function of the given type. -/
def pass (e : Expr) (target : Ty) : Except Error Expr :=
  match target with
  | .reference _ referent => e.bindTo referent
  | _ => e.convert target

def canPass (e : Expr) (target : Ty) : Bool :=
  match target with
  | .reference _ referent => e.canBind referent
  | _ => e.ty.canCast target

/-- Other variables than builtins and references have no initializers. -/
def noInit (e : Expr) (target : Ty) : Error :=
  .unsupported ("initializing " ++ Error.quoted target.text ++ " from " ++ Error.quoted e.ty.text)

def initFor (e : Expr) (target : Ty) : Except Error Expr :=
  match target with
  | .reference _ referent => e.bindTo referent
  | .builtin _ _ =>
      if e.ty.deref.isBuiltin then
        match e.ty.castRule target with
        | .ok kind => .ok (e.casted target kind).loaded
        | .error _ => .error (.cannotInit target.text e.ty.text)
      else .error (e.noInit target)
  | _ => .error (e.noInit target)

@[simp]
theorem isRvalue_loaded (e : Expr) : e.loaded.isRvalue = true := by
  unfold loaded
  split
  · assumption
  · rfl

/-! ## Binary operators -/

/-- Assignment needs storage that is not constant, on the way to it or at its end. -/
def assign (lhs rhs : Expr) : Except Error Expr := do
  if !lhs.isLvalue then throw .notAnLvalue
  if lhs.ty.isConst || lhs.ty.deref.isConst then throw (.assignToConst lhs.ty.text)
  let rhs ← rhs.convert lhs.ty.deref
  pure (.binary ⟨lhs.ty, .rvalue⟩ .assign lhs rhs)

/-- An operand of a logical operator must be of kind `bool`. -/
def requireBool (op : BinaryOp) (e : Expr) : Except Error Unit :=
  if e.ty.deref.isBool then .ok () else .error (.nonBoolOperand op e.ty.text)

def logical (op : BinaryOp) (lhs rhs : Expr) : Except Error Expr := do
  lhs.requireBool op
  rhs.requireBool op
  pure (.binary ⟨.ofBuiltin .bool, .rvalue⟩ op lhs.loaded rhs.loaded)

/-- Arithmetic and comparison: both operands convert to their common type. -/
def algebra (op : BinaryOp) (lhs rhs : Expr) : Except Error Expr := do
  let some common := lhs.ty.common? rhs.ty
    | throw (.noCommonType op lhs.ty.text rhs.ty.text)
  let lhs ← lhs.convert common
  let rhs ← rhs.convert common
  pure (.binary ⟨if op.isComparison then .ofBuiltin .bool else common, .rvalue⟩ op lhs rhs)

def combine (op : BinaryOp) (lhs rhs : Expr) : Except Error Expr :=
  if op = .assign then lhs.assign rhs
  else if op.isLogical then logical op lhs rhs
  else algebra op lhs rhs

end Expr

end UnitAnalysis
