import UnitAnalysis.Ty.Builtin
import UnitAnalysis.Ty.Qualifiers

/-!
# Types

A type is a builtin kind, a pointer, a reference, or the tag type of a class
or enum, and carries a set of qualifiers at every layer.  A tag type is
identified by its declaration; the name in it is for messages only, so types
are compared by `Ty.same`, which passes over names.
-/

namespace UnitAnalysis

abbrev DeclId := Nat

inductive TagKind where
  | classTag
  | enumTag
  deriving DecidableEq, Repr

def TagKind.text : TagKind → String
  | .classTag => "class"
  | .enumTag => "enum"

inductive Ty where
  | builtin (quals : Qualifiers) (kind : Builtin)
  | pointer (quals : Qualifiers) (pointee : Ty)
  | reference (quals : Qualifiers) (referent : Ty)
  | tag (quals : Qualifiers) (kind : TagKind) (decl : DeclId) (name : String)
  deriving DecidableEq, Repr

namespace Ty

def ofBuiltin (kind : Builtin) : Ty :=
  .builtin .none kind

def quals : Ty → Qualifiers
  | .builtin q _ | .pointer q _ | .reference q _ | .tag q _ _ _ => q

/-- The same type with other qualifiers at the outermost layer. -/
def withQuals (q : Qualifiers) : Ty → Ty
  | .builtin _ kind => .builtin q kind
  | .pointer _ pointee => .pointer q pointee
  | .reference _ referent => .reference q referent
  | .tag _ kind decl name => .tag q kind decl name

def qualify (t : Ty) (q : Qualifier) : Ty :=
  t.withQuals (t.quals.insert q)

def pointerTo (t : Ty) : Ty :=
  .pointer .none t

def referenceTo (t : Ty) : Ty :=
  .reference .none t

def builtin? : Ty → Option Builtin
  | .builtin _ kind => some kind
  | _ => none

def referent? : Ty → Option Ty
  | .reference _ t => some t
  | _ => none

def isBuiltin (t : Ty) : Bool :=
  t.builtin?.isSome

def isReference (t : Ty) : Bool :=
  t.referent?.isSome

def isVoid (t : Ty) : Bool :=
  t.builtin? == some .void

def isBool (t : Ty) : Bool :=
  t.builtin? == some .bool

def isConst (t : Ty) : Bool :=
  t.quals.isConst

/-- The type behind one reference; any other type is its own. -/
def deref (t : Ty) : Ty :=
  t.referent?.getD t

/-- Equality of types up to the names of tags. -/
def same : Ty → Ty → Bool
  | .builtin q k, .builtin r l => q == r && k == l
  | .pointer q s, .pointer r t => q == r && s.same t
  | .reference q s, .reference r t => q == r && s.same t
  | .tag q k c _, .tag r l d _ => q == r && k == l && c == d
  | _, _ => false

/-- Equality of types up to the names of tags and the outermost qualifiers. -/
def sameShape (s t : Ty) : Bool :=
  (s.withQuals .none).same (t.withQuals .none)

def sameAll : List Ty → List Ty → Bool
  | [], [] => true
  | s :: ss, t :: ts => s.same t && sameAll ss ts
  | _, _ => false

/-- The words for the qualifiers of a layer, each set followed by a blank. -/
def qualsText (q : Qualifiers) : String :=
  if q = .none then "" else q.text ++ " "

/-- The type in words, as messages show it. -/
def text : Ty → String
  | .builtin q kind => qualsText q ++ kind.text
  | .pointer q pointee => qualsText q ++ "pointer to " ++ pointee.text
  | .reference q referent => qualsText q ++ "reference to " ++ referent.text
  | .tag q kind _ name => qualsText q ++ kind.text ++ " " ++ name

@[simp]
theorem same_refl (t : Ty) : t.same t = true := by
  induction t <;> simp_all [same]

theorem same_comm (s t : Ty) : s.same t = t.same s := by
  induction s generalizing t <;> cases t <;> simp_all [same, Bool.beq_comm]

theorem same_trans {s t u : Ty} (hst : s.same t = true) (htu : t.same u = true) :
    s.same u = true := by
  induction s generalizing t u with
  | builtin | tag => cases t <;> cases u <;> simp_all [same]
  | pointer _ _ ih | reference _ _ ih =>
      cases t <;> cases u <;> simp only [same, Bool.and_eq_true, Bool.false_eq_true] at hst htu ⊢
      exact ⟨by simp_all, ih hst.2 htu.2⟩

theorem quals_eq_of_same {s t : Ty} (h : s.same t = true) : s.quals = t.quals := by
  cases s <;> cases t <;> simp_all [same, quals]

@[simp]
theorem quals_withQuals (q : Qualifiers) (t : Ty) : (t.withQuals q).quals = q := by
  cases t <;> rfl

end Ty

end UnitAnalysis
