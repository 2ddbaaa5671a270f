/-!
# Type qualifiers

The two qualifiers `const` and `volatile`, sets of them, and the inclusion
order on the sets.
-/

namespace UnitAnalysis

inductive Qualifier where
  | const
  | volatile
  deriving DecidableEq, Repr

structure Qualifiers where
  isConst : Bool
  isVolatile : Bool
  deriving DecidableEq, Repr

/-- How one set of qualifiers stands to another. -/
inductive QualifierOrder where
  | equal
  | more
  | less
  | unordered
  deriving DecidableEq, Repr

namespace Qualifiers

def none : Qualifiers := ⟨false, false⟩

def insert (q : Qualifiers) : Qualifier → Qualifiers
  | .const => { q with isConst := true }
  | .volatile => { q with isVolatile := true }

def union (q r : Qualifiers) : Qualifiers :=
  ⟨q.isConst || r.isConst, q.isVolatile || r.isVolatile⟩

/-- Every qualifier of `r` is one of `q`. -/
def includes (q r : Qualifiers) : Bool :=
  (q.isConst || !r.isConst) && (q.isVolatile || !r.isVolatile)

def compare (q r : Qualifiers) : QualifierOrder :=
  match q.includes r, r.includes q with
  | true, true => .equal
  | true, false => .more
  | false, true => .less
  | false, false => .unordered

def text (q : Qualifiers) : String :=
  match q.isConst, q.isVolatile with
  | true, true => "const volatile"
  | true, false => "const"
  | false, true => "volatile"
  | false, false => ""

theorem includes_refl (q : Qualifiers) : q.includes q = true := by
  simp [includes]

theorem union_comm (q r : Qualifiers) : q.union r = r.union q := by
  simp [union, Bool.or_comm]

theorem union_includes_left (q r : Qualifiers) : (q.union r).includes q = true := by
  cases q; cases r; simp [union, includes]; grind

theorem compare_eq_equal_iff {q r : Qualifiers} : q.compare r = .equal ↔ q = r := by
  rcases q with ⟨_ | _, _ | _⟩ <;> rcases r with ⟨_ | _, _ | _⟩ <;> decide

end Qualifiers

end UnitAnalysis
