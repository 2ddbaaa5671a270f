import UnitAnalysis.Analysis
import UnitAnalysis.Diagnostic

/-!
# Sessions

A session analyses several units one after the other.  Each unit starts from an
empty store, so that nothing of a failed unit is left for the next one.
-/

namespace UnitAnalysis

structure SourceUnit where
  name : String
  tokens : List Token
  deriving Repr

structure Policy where
  /-- Skip the units after the first one that fails. -/
  stopOnError : Bool := true
  /-- Report each failure when it happens. -/
  emitDiagnostics : Bool := true
  deriving DecidableEq, Repr

structure Outcome where
  name : String
  result : Except Error Arena
  deriving Repr

def Outcome.failed (o : Outcome) : Bool :=
  !o.result.isOk

def Outcome.diagnostic? (o : Outcome) : Option Diagnostic :=
  match o.result with
  | .ok _ => none
  | .error e => some (e.diagnostic o.name)

def Policy.report? (policy : Policy) (o : Outcome) : Option String :=
  if policy.emitDiagnostics then o.diagnostic?.map (·.render) else none

def SourceUnit.analyze (u : SourceUnit) : Outcome :=
  ⟨u.name, UnitAnalysis.analyze u.tokens⟩

def Policy.analyzeUnits (policy : Policy) : List SourceUnit → List Outcome
  | [] => []
  | u :: us =>
      let outcome := u.analyze
      if outcome.failed && policy.stopOnError then [outcome]
      else outcome :: policy.analyzeUnits us

end UnitAnalysis
