import UnitAnalysis.Operator

/-!
# Errors

The causes for which the analysis of a unit stops, with a stable code and a
message for each.  Types appear in an error by their text.
-/

namespace UnitAnalysis

/-- Why an implicit conversion is refused. -/
inductive CastFailure where
  | qualifierDowngrade
  | categoryMismatch
  | narrowing
  | unrelatedPointee
  | referenceRebind
  | incompatible
  deriving DecidableEq, Repr

def CastFailure.text : CastFailure → String
  | .qualifierDowngrade => "conversion would discard qualifiers"
  | .categoryMismatch => "conversion crosses arithmetic categories"
  | .narrowing => "conversion would narrow the value"
  | .unrelatedPointee => "pointers only convert implicitly to void pointers"
  | .referenceRebind => "a reference cannot be re-bound to another reference type"
  | .incompatible => "no implicit conversion between these types"

inductive Error where
  | redefinition (name : String)
  | conflictingDeclaration (name previous found : String)
  | undeclared (name : String)
  | unknownFunction (name : String)
  | noViableCall (name : String) (candidates : Nat)
  | ambiguous (name : String)
  | notAContext (name : String)
  | notAValue (name : String)
  | invalidCast (source target : String) (reason : CastFailure)
  | cannotInit (target source : String)
  | rvalueToNonConst (referent : String)
  | referenceMismatch (referent source : String)
  | notAnLvalue
  | assignToConst (ty : String)
  | nonBoolOperand (op : BinaryOp) (ty : String)
  | noCommonType (op : BinaryOp) (lhs rhs : String)
  | voidObject (name : String)
  | missingReturnValue (function : String)
  | unexpectedReturnValue (function : String)
  | unsupported (what : String)
  | outOfOrder (what : String)
  | malformed (what : String)
  deriving DecidableEq, Repr

namespace Error

def code : Error → String
  | .redefinition .. => "E0001"
  | .undeclared .. => "E0002"
  | .unknownFunction .. => "E0003"
  | .noViableCall .. => "E0004"
  | .ambiguous .. => "E0005"
  | .notAContext .. => "E0006"
  | .notAValue .. => "E0007"
  | .conflictingDeclaration .. => "E0008"
  | .invalidCast .. => "E0010"
  | .cannotInit .. => "E0011"
  | .rvalueToNonConst .. => "E0012"
  | .referenceMismatch .. => "E0013"
  | .notAnLvalue => "E0020"
  | .assignToConst .. => "E0021"
  | .nonBoolOperand .. => "E0022"
  | .noCommonType .. => "E0023"
  | .voidObject .. => "E0024"
  | .missingReturnValue .. => "E0025"
  | .unexpectedReturnValue .. => "E0026"
  | .unsupported .. => "E0090"
  | .outOfOrder .. => "E0098"
  | .malformed .. => "E0099"

/-- A name or type between grave accents. -/
def quoted (text : String) : String :=
  "`" ++ text ++ "`"

def message : Error → String
  | .redefinition name => "redefinition of " ++ quoted name
  | .conflictingDeclaration name previous found =>
      "conflicting declaration of " ++ quoted name ++ ": return type " ++ quoted found ++
        " differs from " ++ quoted previous
  | .undeclared name => "use of undeclared identifier " ++ quoted name
  | .unknownFunction name => "unknown function " ++ quoted name
  | .noViableCall name candidates =>
      "no viable call to function " ++ quoted name ++ ", " ++ toString candidates ++
        " candidate(s) considered"
  | .ambiguous name => "name " ++ quoted name ++ " is ambiguous here"
  | .notAContext name => quoted name ++ " is not a class or enum and cannot be used as a qualifier"
  | .notAValue name => quoted name ++ " does not name a value"
  | .invalidCast source target reason =>
      "cannot implicitly convert " ++ quoted source ++ " to " ++ quoted target ++ ": " ++
        reason.text
  | .cannotInit target source => "cannot initialize " ++ quoted target ++ " with " ++ quoted source
  | .rvalueToNonConst referent =>
      "binding rvalue to non-const lvalue reference of type " ++ quoted referent
  | .referenceMismatch referent source =>
      "cannot initialize reference to " ++ quoted referent ++ " with " ++ quoted source
  | .notAnLvalue => "expected lvalue at the left hand side of assignment"
  | .assignToConst ty => "cannot assign to const-qualified " ++ quoted ty
  | .nonBoolOperand op ty =>
      "non-bool operand of type " ++ quoted ty ++ " used with " ++ quoted op.text
  | .noCommonType op lhs rhs =>
      "no common type for " ++ quoted lhs ++ " " ++ op.text ++ " " ++ quoted rhs
  | .voidObject name => quoted name ++ " cannot have type `void`"
  | .missingReturnValue function =>
      "non-void function " ++ quoted function ++ " must return a value"
  | .unexpectedReturnValue function =>
      "void function " ++ quoted function ++ " cannot return a value"
  | .unsupported what => what ++ " is not supported"
  | .outOfOrder what => "protocol violation: " ++ what
  | .malformed what => "syntax error: " ++ what

end Error

end UnitAnalysis
