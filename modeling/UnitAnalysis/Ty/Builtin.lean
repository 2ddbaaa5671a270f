/-!
# Builtin kinds

The eight builtin kinds.  A kind belongs to at most one arithmetic category,
and widening goes up the ranks inside one category.
-/

namespace UnitAnalysis

inductive Builtin where
  | vi8
  | vi16
  | vi32
  | vi64
  | vr32
  | vr64
  | bool
  | void
  deriving DecidableEq, Repr

inductive Category where
  | integer
  | floating
  | logical
  deriving DecidableEq, Repr

namespace Builtin

/-- The category of a kind; `void` has none. -/
def category? : Builtin → Option Category
  | .vi8 | .vi16 | .vi32 | .vi64 => some .integer
  | .vr32 | .vr64 => some .floating
  | .bool => some .logical
  | .void => none

/-- The rank inside the category.  Ranks of different categories do not compare. -/
def rank : Builtin → Nat
  | .vi8 | .vr32 => 1
  | .vi16 | .vr64 => 2
  | .vi32 => 3
  | .vi64 => 4
  | .bool | .void => 0

def isInteger (k : Builtin) : Bool :=
  k.category? == some .integer

def isFloating (k : Builtin) : Bool :=
  k.category? == some .floating

def text : Builtin → String
  | .vi8 => "vi8"
  | .vi16 => "vi16"
  | .vi32 => "vi32"
  | .vi64 => "vi64"
  | .vr32 => "vr32"
  | .vr64 => "vr64"
  | .bool => "bool"
  | .void => "void"

/-- Category and rank together determine the kind. -/
theorem eq_of_category_rank {k l : Builtin} (hcategory : k.category? = l.category?)
    (hrank : k.rank = l.rank) : k = l := by
  cases k <;> cases l <;> first | rfl | simp_all [category?, rank]

/-- The narrowest integer kind that holds a value. -/
def ofInt (v : Int64) : Builtin :=
  if -128 ≤ v.toInt ∧ v.toInt < 128 then .vi8
  else if -32768 ≤ v.toInt ∧ v.toInt < 32768 then .vi16
  else if -2147483648 ≤ v.toInt ∧ v.toInt < 2147483648 then .vi32
  else .vi64

end Builtin

end UnitAnalysis
