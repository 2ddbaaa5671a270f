import UnitAnalysis.Error
import UnitAnalysis.Expr

/-!
# Implicit conversions, reference bindings and common types

The cast rule says which conversion, if any, leads from one type to another,
or why there is none.  Qualifiers may only be added; a builtin kind widens
inside its category; a pointer converts to a pointer to `void`.  A reference
converts through the type it refers to, and binds only to exactly its type.
-/

namespace UnitAnalysis

namespace Ty

/-- The conversion between two types of different shapes, qualifiers aside. -/
def castShape : Ty → Ty → Except CastFailure CastKind
  | .builtin _ k, .builtin _ l =>
      match k.category?, l.category? with
      | some a, some b =>
          if a = b then
            if l.rank < k.rank then .error .narrowing
            else if k.isInteger then .ok .integralWiden
            else .ok .floatingWiden
          else .error .categoryMismatch
      | _, _ => .error .incompatible
  | .pointer _ _, .pointer _ pointee =>
      if pointee.isVoid then .ok .pointerToVoid else .error .unrelatedPointee
  | _, _ => .error .incompatible

/--
The conversion from `source` to `target`: `none` if the types agree already, a
cast otherwise, or the reason for which there is no conversion.
-/
def castRule (source target : Ty) : Except CastFailure (Option CastKind) :=
  if source.same target then .ok none
  else if source.isReference && target.isReference then .error .referenceRebind
  else if !target.quals.includes source.deref.quals then .error .qualifierDowngrade
  else if source.deref.same target then .ok none
  else if source.deref.sameShape target then .ok (some .qualification)
  else (source.deref.castShape target).map some

def canCast (source target : Ty) : Bool :=
  (source.castRule target).isOk

def requireCast (source target : Ty) : Except Error (Option CastKind) :=
  (source.castRule target).mapError (Error.invalidCast source.text target.text)

/--
The common type of two operands: the higher-ranked kind of their category, with
the qualifiers of both.
-/
def common? (lhs rhs : Ty) : Option Ty :=
  match lhs.deref, rhs.deref with
  | .builtin q k, .builtin r l =>
      if k.category?.isSome && k.category? == l.category? then
        some (.builtin (q.union r) (if k.rank < l.rank then l else k))
      else none
  | _, _ => none

theorem canCast_self (t : Ty) : t.canCast t = true := by
  simp [canCast, castRule, Except.isOk, Except.toBool]

end Ty

inductive BindFailure where
  | rvalueToNonConst
  | typeMismatch
  deriving DecidableEq, Repr

namespace Expr

/--
Does a reference to `referent` bind to the expression?  A passing value needs a
constant referent, and nothing converts on the way.
-/
def bindRule (referent : Ty) (e : Expr) : Except BindFailure Unit :=
  if e.isRvalue && !referent.isConst then .error .rvalueToNonConst
  else if !referent.same e.ty.deref then .error .typeMismatch
  else .ok ()

def canBind (referent : Ty) (e : Expr) : Bool :=
  (e.bindRule referent).isOk

def requireBind (referent : Ty) (e : Expr) : Except Error Unit :=
  (e.bindRule referent).mapError fun
    | .rvalueToNonConst => .rvalueToNonConst referent.text
    | .typeMismatch => .referenceMismatch referent.text e.ty.deref.text

end Expr

end UnitAnalysis
