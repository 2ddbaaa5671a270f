/-!
# Binary operators

The operators with their spelling, precedence and grouping.  Assignment binds
loosest and is the only operator that groups to the right.
-/

namespace UnitAnalysis

inductive BinaryOp where
  | assign
  | or
  | and
  | eq
  | ne
  | lt
  | gt
  | le
  | ge
  | add
  | sub
  | mul
  | div
  deriving DecidableEq, Repr

namespace BinaryOp

def text : BinaryOp → String
  | .assign => "="
  | .or => "||"
  | .and => "&&"
  | .eq => "=="
  | .ne => "!="
  | .lt => "<"
  | .gt => ">"
  | .le => "<="
  | .ge => ">="
  | .add => "+"
  | .sub => "-"
  | .mul => "*"
  | .div => "/"

/-- A higher precedence binds tighter. -/
def precedence : BinaryOp → Nat
  | .assign => 1
  | .or => 2
  | .and => 3
  | .eq | .ne => 4
  | .lt | .gt | .le | .ge => 5
  | .add | .sub => 6
  | .mul | .div => 7

def groupsRight (op : BinaryOp) : Bool :=
  op == .assign

/-- The least precedence that an operator in the right operand may have. -/
def rightPrecedence (op : BinaryOp) : Nat :=
  if op.groupsRight then op.precedence else op.precedence + 1

def isComparison : BinaryOp → Bool
  | .eq | .ne | .lt | .gt | .le | .ge => true
  | _ => false

def isLogical : BinaryOp → Bool
  | .or | .and => true
  | _ => false

end BinaryOp

end UnitAnalysis
