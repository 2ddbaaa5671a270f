import UnitAnalysis.Decimal

/-!
# Binary64 literals

A floating literal is kept as its 64 bits, so that two literals are equal
exactly when their bits are.  Only its text looks inside: the shortest decimal
that reads back, in positional notation.
-/

namespace UnitAnalysis

structure Binary64 where
  bits : UInt64
  deriving DecidableEq, Repr

namespace Binary64

def isNegative (x : Binary64) : Bool :=
  Nat.pow 2 63 ≤ x.bits.toNat

def exponentField (x : Binary64) : Nat :=
  x.bits.toNat / Nat.pow 2 52 % Nat.pow 2 11

def fraction (x : Binary64) : Nat :=
  x.bits.toNat % Nat.pow 2 52

def isNaN (x : Binary64) : Bool :=
  x.exponentField == 2047 && x.fraction != 0

/-- The reals that round to a finite nonzero value, sign aside. -/
def range (x : Binary64) : RoundingRange :=
  if x.exponentField = 0 then .ofBinary x.fraction (-1074) false
  else .ofBinary (Nat.pow 2 52 + x.fraction) (x.exponentField - 1075) (x.fraction == 0)

def magnitudeText (x : Binary64) : String :=
  if x.exponentField = 2047 then "inf"
  else if x.exponentField = 0 ∧ x.fraction = 0 then "0"
  else x.range.shortest.text

/-- A minus sign stands before every negative value, zero included; a NaN has no sign. -/
def text (x : Binary64) : String :=
  if x.isNaN then "NaN"
  else if x.isNegative then "-" ++ x.magnitudeText
  else x.magnitudeText

end Binary64

end UnitAnalysis
