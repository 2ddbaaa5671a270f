/-!
# Shortest decimals

A binary value stands for all the reals that round to it.  Among the powers of
ten, from coarse to fine, the first one with a multiple in that range gives the
decimal with the fewest digits; of two such multiples the nearer one is taken,
and the upper one if both are equally near.
-/

namespace UnitAnalysis

/-- The number `digits * 10 ^ exponent`. -/
structure Decimal where
  digits : Nat
  exponent : Int
  deriving DecidableEq, Repr

/--
The reals that round to `value / den`, between `low / den` and `high / den`.
The two ends belong to the range exactly when `closed` holds.
-/
structure RoundingRange where
  low : Nat
  value : Nat
  high : Nat
  den : Nat
  closed : Bool
  deriving DecidableEq, Repr

/--
The range of `m * 2 ^ q`.  It reaches half a step of the last place to each
side, but only a quarter below a value whose lower neighbour is twice as near.
A tie rounds to the even significand, so the ends count when `m` is even.
-/
def RoundingRange.ofBinary (m : Nat) (q : Int) (nearBelow : Bool) : RoundingRange :=
  let scale := Nat.pow 2 (q - 2).toNat
  { low := (4 * m - if nearBelow then 1 else 2) * scale
    value := 4 * m * scale
    high := (4 * m + 2) * scale
    den := Nat.pow 2 (2 - q).toNat
    closed := m % 2 == 0 }

def RoundingRange.holds (r : RoundingRange) (e : Int) (n : Nat) : Bool :=
  let point := n * Nat.pow 10 e.toNat * r.den
  let scale := Nat.pow 10 (-e).toNat
  if r.closed then r.low * scale ≤ point && point ≤ r.high * scale
  else r.low * scale < point && point < r.high * scale

/-- The largest multiple of `10 ^ e` that is not above the value. -/
def RoundingRange.floor (r : RoundingRange) (e : Int) : Nat :=
  r.value * Nat.pow 10 (-e).toNat / (r.den * Nat.pow 10 e.toNat)

def RoundingRange.belowMiddle (r : RoundingRange) (e : Int) (n : Nat) : Bool :=
  2 * r.value * Nat.pow 10 (-e).toNat < (2 * n + 1) * (r.den * Nat.pow 10 e.toNat)

/-- The multiple of `10 ^ e` in the range that is nearest to the value, if there is one. -/
def RoundingRange.nearest? (r : RoundingRange) (e : Int) : Option Decimal :=
  let n := r.floor e
  match r.holds e n, r.holds e (n + 1) with
  | true, true => some ⟨if r.belowMiddle e n then n else n + 1, e⟩
  | true, false => some ⟨n, e⟩
  | false, true => some ⟨n + 1, e⟩
  | false, false => none

/--
The shortest decimal of a range.  The powers of ten tried are those between the
largest and the smallest binary64 value, and the finest of them is smaller than
any range, so one of them always has a multiple there.
-/
def RoundingRange.shortest (r : RoundingRange) : Decimal :=
  ((List.range 640).findSome? fun (i : Nat) => r.nearest? (310 - i)).getD ⟨0, 0⟩

/-- Positional notation, with a point only where digits follow it. -/
def Decimal.text (d : Decimal) : String :=
  let digits := Nat.toDigits 10 d.digits
  let places := (-d.exponent).toNat
  let whole := digits.length - places
  String.ofList <|
    if places = 0 then digits ++ List.replicate d.exponent.toNat '0'
    else if 0 < whole then digits.take whole ++ '.' :: digits.drop whole
    else '0' :: '.' :: (List.replicate (places - digits.length) '0' ++ digits)

end UnitAnalysis
