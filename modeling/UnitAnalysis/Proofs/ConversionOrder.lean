import UnitAnalysis.Proofs.Elaboration
import UnitAnalysis.Proofs.FirstFit

/-!
# The order of implicit conversions

Types are ordered by the conversions between them.  The cast rule is a cascade
of early exits; as a condition it says that the types agree up to names, or
that the target has all qualifiers of the source, one reference off, and the
shape converts (`Ty.canCast_iff`).  Qualifiers, builtin kinds and shapes each
have an order of their own, and the order of types is put together from these.

Main statements: conversion is a preorder (`Ty.castRule_preorder`), and the
common type of two operands is their join in it (`common?_isJoin`).
-/

namespace UnitAnalysis

/-! ## Outcomes of checks -/

namespace Check

variable {ε α β : Type}

@[simp] theorem isOk_ok (a : α) : (.ok a : Except ε α).isOk = true :=
  rfl

@[simp] theorem isOk_error (e : ε) : (.error e : Except ε α).isOk = false :=
  rfl

@[simp] theorem isOk_map (x : Except ε α) (f : α → β) : (x.map f).isOk = x.isOk := by
  cases x <;> rfl

end Check

open Check

/-! ## Qualifiers -/

namespace Qualifiers

variable {q r s : Qualifiers}

theorem includes_trans (hqr : q.includes r = true) (hrs : r.includes s = true) :
    q.includes s = true := by
  simp only [includes, Bool.and_eq_true, Bool.or_eq_true, Bool.not_eq_true'] at *
  grind

theorem includes_antisymm (hqr : q.includes r = true) (hrq : r.includes q = true) : q = r := by
  apply compare_eq_equal_iff.mp
  rw [compare, hqr, hrq]

theorem union_includes_right (q r : Qualifiers) : (q.union r).includes r = true := by
  rw [union_comm]
  exact union_includes_left r q

theorem includes_union (hr : q.includes r = true) (hs : q.includes s = true) :
    q.includes (r.union s) = true := by
  simp only [includes, union, Bool.and_eq_true, Bool.or_eq_true, Bool.not_eq_true',
    Bool.or_eq_false_iff] at *
  grind

end Qualifiers

/-! ## Builtin kinds -/

namespace Builtin

variable {k l m : Builtin}

/-- Up the ranks of one category, or to the same kind. -/
def WidensTo (k l : Builtin) : Prop :=
  k = l ∨ k.category?.isSome = true ∧ k.category? = l.category? ∧ k.rank ≤ l.rank

theorem WidensTo.category?_eq (h : k.WidensTo l) : k.category? = l.category? := by
  rcases h with rfl | ⟨-, h, -⟩
  · rfl
  · exact h

theorem WidensTo.rank_le (h : k.WidensTo l) : k.rank ≤ l.rank := by
  rcases h with rfl | ⟨-, -, h⟩
  · exact Nat.le_refl _
  · exact h

theorem WidensTo.trans (hkl : k.WidensTo l) (hlm : l.WidensTo m) : k.WidensTo m := by
  rcases hkl with rfl | ⟨hsome, hcategory, hrank⟩
  · exact hlm
  · exact .inr ⟨hsome, hcategory.trans hlm.category?_eq, Nat.le_trans hrank hlm.rank_le⟩

theorem WidensTo.antisymm (hkl : k.WidensTo l) (hlk : l.WidensTo k) : k = l := by
  apply eq_of_category_rank hkl.category?_eq
  exact Nat.le_antisymm hkl.rank_le hlk.rank_le

/-- The one of two kinds that has the higher rank. -/
def wider (k l : Builtin) : Builtin :=
  if k.rank < l.rank then l else k

theorem widensTo_wider (hsome : k.category?.isSome = true) (hcategory : k.category? = l.category?) :
    k.WidensTo (k.wider l) ∧ l.WidensTo (k.wider l) := by
  unfold wider
  split
  · exact ⟨.inr ⟨hsome, hcategory, by omega⟩, .inl rfl⟩
  · exact ⟨.inl rfl, .inr ⟨hcategory ▸ hsome, hcategory.symm, by omega⟩⟩

theorem WidensTo.wider (hk : k.WidensTo m) (hl : l.WidensTo m) : (k.wider l).WidensTo m := by
  unfold Builtin.wider
  split
  · exact hl
  · exact hk

theorem wider_comm (hcategory : k.category? = l.category?) : k.wider l = l.wider k := by
  rcases Nat.lt_trichotomy k.rank l.rank with hlt | heq | hlt
  · rw [wider, if_pos hlt, wider, if_neg (by omega)]
  · rw [eq_of_category_rank hcategory heq]
  · rw [wider, if_neg (by omega), wider, if_pos hlt]

end Builtin

/-! ## The cast rule as a condition -/

namespace Ty

variable {s s' t t' u : Ty}

/-- The conversions between two shapes, qualifiers aside and neither of them a reference. -/
def ConvertsTo : Ty → Ty → Prop
  | .builtin _ k, .builtin _ l => k.WidensTo l
  | .pointer _ s, .pointer _ t => s.same t = true ∨ t.isVoid = true
  | .tag _ k c _, .tag _ l d _ => k = l ∧ c = d
  | _, _ => False

theorem ConvertsTo.not_isReference (h : s.ConvertsTo t) :
    s.isReference = false ∧ t.isReference = false := by
  cases s <;> cases t <;> simp_all [ConvertsTo, isReference, referent?]

theorem isOk_castShape_builtin {q r : Qualifiers} {k l : Builtin} :
    ((builtin q k).castShape (builtin r l)).isOk = true ↔
      k.category?.isSome = true ∧ k.category? = l.category? ∧ k.rank ≤ l.rank := by
  cases hk : k.category? with
  | none => simp [castShape, hk]
  | some a =>
      cases hl : l.category? with
      | none => simp [castShape, hk, hl]
      | some b =>
          simp only [castShape, hk, hl]
          by_cases hab : a = b
          · by_cases hrank : l.rank < k.rank
            · simp [hab, hrank]
            · cases k.isInteger <;> simp [hab, hrank, Nat.le_of_not_lt hrank]
          · simp [hab]

theorem convertsTo_iff (ht : t.isReference = false) :
    s.ConvertsTo t ↔ s.sameShape t = true ∨ (s.castShape t).isOk = true := by
  cases s <;> cases t
  case builtin.builtin =>
      rw [isOk_castShape_builtin]
      simp [ConvertsTo, Builtin.WidensTo, sameShape, withQuals, same]
  case pointer.pointer q s r t =>
      cases hvoid : t.isVoid <;> simp [ConvertsTo, sameShape, withQuals, same, castShape, hvoid]
  all_goals
    simp_all [ConvertsTo, sameShape, withQuals, same, castShape, isReference, referent?]

theorem sameShape_of_same (h : s.same t = true) : s.sameShape t = true := by
  cases s <;> cases t <;> simp_all [same, sameShape, withQuals]

theorem isOk_castRule_reference {q : Qualifiers} (h : s.same (.reference q t) = false) :
    (s.castRule (.reference q t)).isOk = false := by
  rw [castRule, if_neg (by simp [h])]
  cases s with
  | reference => rfl
  | _ =>
      -- A source that is no reference neither has the shape of one nor a cast to one.
      simp only [isReference, referent?, deref, Option.isSome_none, Bool.false_and,
        Bool.false_eq_true, if_false, Option.getD_none, sameShape, withQuals, same, castShape]
      split <;> rfl

theorem isOk_castRule_of_not_isReference (hsame : s.same t = false) (ht : t.isReference = false) :
    (s.castRule t).isOk = true ↔ t.quals.includes s.deref.quals = true ∧ s.deref.ConvertsTo t := by
  rw [convertsTo_iff ht, castRule, if_neg (by simp [hsame]), if_neg (by simp [ht])]
  cases hincludes : t.quals.includes s.deref.quals with
  | false => simp
  | true =>
      simp only [Bool.not_true, Bool.false_eq_true, if_false, true_and]
      split
      · rename_i hderef
        simp [sameShape_of_same hderef]
      · split
        · rename_i hshape
          simp [hshape]
        · rename_i hshape
          simp [hshape]

/-- The cast rule as a condition, without its reasons and kinds. -/
theorem canCast_iff : s.canCast t = true ↔
    s.same t = true ∨ t.quals.includes s.deref.quals = true ∧ s.deref.ConvertsTo t := by
  cases hsame : s.same t with
  | true => simp [canCast, castRule, hsame]
  | false =>
      cases t with
      | reference q t =>
          have hnot : ¬ s.deref.ConvertsTo (.reference q t) := by
            intro h
            cases h.not_isReference.2
          simp [canCast, isOk_castRule_reference hsame, hnot]
      | _ => simpa [canCast] using isOk_castRule_of_not_isReference hsame rfl

/-! ## Types that differ in names only -/

theorem same_congr (hs : s.same s' = true) (ht : t.same t' = true) : s.same t = s'.same t' := by
  rw [Bool.eq_iff_iff]
  constructor
  · intro h
    rw [same_comm] at hs
    exact same_trans hs (same_trans h ht)
  · intro h
    rw [same_comm] at ht
    exact same_trans hs (same_trans h ht)

theorem withQuals_same (q : Qualifiers) (h : s.same t = true) :
    (s.withQuals q).same (t.withQuals q) = true := by
  cases s <;> cases t <;> simp_all [same, withQuals]

theorem isVoid_eq_of_same (h : s.same t = true) : s.isVoid = t.isVoid := by
  cases s <;> cases t <;> simp_all [same, isVoid, builtin?]

theorem castShape_congr (hs : s.same s' = true) (ht : t.same t' = true) :
    s.castShape t = s'.castShape t' := by
  cases s <;> cases s' <;> simp only [same, Bool.false_eq_true] at hs <;>
    cases t <;> cases t' <;> simp only [same, Bool.false_eq_true] at ht
  case pointer.pointer.pointer.pointer =>
      have hvoid := isVoid_eq_of_same (Bool.and_eq_true_iff.mp ht).2
      simp [castShape, hvoid]
  all_goals simp_all [castShape]

theorem castRule_congr (hs : s.same s' = true) (ht : t.same t' = true) :
    s.castRule t = s'.castRule t' := by
  have hderef := deref_same_deref hs
  unfold castRule sameShape
  rw [same_congr hs ht, isReference_eq_of_same hs, isReference_eq_of_same ht,
    quals_eq_of_same ht, quals_eq_of_same hderef, same_congr hderef ht,
    same_congr (withQuals_same .none hderef) (withQuals_same .none ht), castShape_congr hderef ht]

theorem canCast_congr (hs : s.same s' = true) (ht : t.same t' = true) :
    s.canCast t = s'.canCast t' := by
  rw [canCast, castRule_congr hs ht, canCast]

/-! ## The preorder -/

theorem ConvertsTo.trans (hst : s.ConvertsTo t) (htu : t.ConvertsTo u) : s.ConvertsTo u := by
  cases s <;> cases t <;> simp only [ConvertsTo] at hst <;> cases u <;>
    simp only [ConvertsTo] at htu ⊢
  case builtin.builtin.builtin => exact hst.trans htu
  case pointer.pointer.pointer =>
      rcases htu with htu | hvoid
      · rcases hst with hst | hvoid
        · exact .inl (same_trans hst htu)
        · exact .inr (isVoid_eq_of_same htu ▸ hvoid)
      · exact .inr hvoid
  case tag.tag.tag => exact ⟨hst.1.trans htu.1, hst.2.trans htu.2⟩

theorem canCast_trans (hst : s.canCast t = true) (htu : t.canCast u = true) :
    s.canCast u = true := by
  rcases canCast_iff.mp hst with hsame | ⟨hquals, hconverts⟩
  · rw [canCast_congr hsame (same_refl u)]
    exact htu
  · rcases canCast_iff.mp htu with hsame | ⟨hquals', hconverts'⟩
    · rw [← canCast_congr (same_refl s) hsame]
      exact hst
    · -- The type in the middle is a target, hence no reference, and converts as it stands.
      rw [deref_eq_self hconverts.not_isReference.2] at hquals' hconverts'
      apply canCast_iff.mpr
      exact .inr ⟨Qualifiers.includes_trans hquals' hquals, hconverts.trans hconverts'⟩

/-- Two pointers to `void`, qualified alike; what they point to need not be. -/
def BothToVoid (s t : Ty) : Prop :=
  ∃ q pointee pointee', s = .pointer q pointee ∧ t = .pointer q pointee' ∧
    pointee.isVoid = true ∧ pointee'.isVoid = true

theorem ConvertsTo.antisymm (hst : s.ConvertsTo t) (hts : t.ConvertsTo s)
    (hquals : s.quals = t.quals) : s.same t = true ∨ s.BothToVoid t := by
  cases s <;> cases t <;> simp only [ConvertsTo] at hst hts <;> simp only [quals] at hquals <;>
    subst hquals
  case builtin.builtin =>
      obtain rfl := hst.antisymm hts
      exact .inl (same_refl _)
  case pointer.pointer q s t =>
      rcases hst with hsame | hvoid
      · exact .inl (by simpa [same] using hsame)
      · rcases hts with hsame | hvoid'
        · rw [same_comm] at hsame
          exact .inl (by simpa [same] using hsame)
        · exact .inr ⟨q, s, t, rfl, rfl, hvoid', hvoid⟩
  case tag.tag => exact .inl (by simp [same, hst])

theorem canCast_both_iff :
    s.canCast t = true ∧ t.canCast s = true ↔ s.same t = true ∨ s.BothToVoid t := by
  constructor
  · rintro ⟨hst, hts⟩
    rcases canCast_iff.mp hst with hsame | ⟨hquals, hconverts⟩
    · exact .inl hsame
    · rcases canCast_iff.mp hts with hsame | ⟨hquals', hconverts'⟩
      · rw [same_comm]
        exact .inl hsame
      · -- Both are targets, so that neither of them is a reference.
        rw [deref_eq_self hconverts'.not_isReference.2] at hquals hconverts
        rw [deref_eq_self hconverts.not_isReference.2] at hquals' hconverts'
        exact hconverts.antisymm hconverts' (Qualifiers.includes_antisymm hquals' hquals)
  · rintro (hsame | ⟨q, pointee, pointee', rfl, rfl, hvoid, hvoid'⟩)
    · have hback : t.same s = true := by rwa [same_comm]
      exact ⟨canCast_iff.mpr (.inl hsame), canCast_iff.mpr (.inl hback)⟩
    · have hquals := q.includes_refl
      constructor
      · exact canCast_iff.mpr (.inr ⟨hquals, .inr hvoid'⟩)
      · exact canCast_iff.mpr (.inr ⟨hquals, .inr hvoid⟩)

/--
Conversion is a preorder.  Two types convert into each other only if they are
the same up to names or are pointers to `void` that are qualified alike, and
the rule takes no notice of names.
-/
theorem castRule_preorder :
    (∀ s : Ty, s.canCast s = true) ∧
    (∀ s t u : Ty, s.canCast t = true → t.canCast u = true → s.canCast u = true) ∧
    (∀ s t : Ty,
      s.canCast t = true ∧ t.canCast s = true ↔ s.same t = true ∨ s.BothToVoid t) ∧
    ∀ s s' t t' : Ty, s.same s' = true → t.same t' = true → s.castRule t = s'.castRule t' := by
  refine ⟨canCast_self, ?_, ?_, ?_⟩
  · intro s t u hst htu
    exact canCast_trans hst htu
  · intro s t
    exact canCast_both_iff
  · intro s s' t t' hs ht
    exact castRule_congr hs ht

/--
From a reference through a widening to more qualifiers; two ways between pointers
to differently qualified `void`; and one class under two names.
-/
theorem preorder_of_references_and_names :
    ((ofBuiltin .vi8).referenceTo.canCast (.builtin ⟨true, false⟩ .vi16) = true ∧
      (builtin ⟨true, false⟩ .vi16).canCast (.builtin ⟨true, true⟩ .vi64) = true ∧
      (ofBuiltin .vi8).referenceTo.canCast (.builtin ⟨true, true⟩ .vi64) = true) ∧
    ((ofBuiltin .void).pointerTo.same (builtin ⟨true, false⟩ .void).pointerTo = false ∧
      (ofBuiltin .void).pointerTo.canCast (builtin ⟨true, false⟩ .void).pointerTo = true ∧
      (builtin ⟨true, false⟩ .void).pointerTo.canCast (ofBuiltin .void).pointerTo = true) ∧
    (tag .none .classTag 1 "P").castRule (.tag ⟨true, false⟩ .classTag 1 "P") =
      (tag .none .classTag 1 "Q").castRule (.tag ⟨true, false⟩ .classTag 1 "R") := by
  obtain ⟨-, htrans, hboth, hcongr⟩ := castRule_preorder
  have hload : (ofBuiltin .vi8).referenceTo.canCast (.builtin ⟨true, false⟩ .vi16) = true := by
    decide
  have hwiden : (builtin ⟨true, false⟩ .vi16).canCast (.builtin ⟨true, true⟩ .vi64) = true := by
    decide
  refine ⟨⟨hload, hwiden, htrans _ _ _ hload hwiden⟩, ⟨by decide, ?_⟩, ?_⟩
  · exact (hboth _ _).mpr (.inr ⟨_, _, _, rfl, rfl, rfl, rfl⟩)
  · exact hcongr _ _ _ _ (by decide) (by decide)

/-! ## The common type -/

theorem canCast_builtin_iff {q : Qualifiers} {k : Builtin} :
    s.canCast (.builtin q k) = true ↔
      ∃ r l, s.deref = .builtin r l ∧ q.includes r = true ∧ l.WidensTo k := by
  rw [canCast_iff]
  constructor
  · rintro (hsame | ⟨hquals, hconverts⟩)
    · obtain rfl := eq_of_same_builtin hsame
      exact ⟨q, k, rfl, q.includes_refl, .inl rfl⟩
    · cases hderef : s.deref with
      | builtin r l =>
          rw [hderef] at hquals hconverts
          exact ⟨r, l, rfl, hquals, hconverts⟩
      | _ =>
          rw [hderef] at hconverts
          cases hconverts
  · rintro ⟨r, l, hderef, hquals, hwidens⟩
    rw [hderef]
    exact .inr ⟨hquals, hwidens⟩

theorem exists_builtin_of_canCast {q : Qualifiers} {k : Builtin} (h : s.canCast t = true)
    (hs : s.deref = .builtin q k) (ht : t.isReference = false) : ∃ r l, t = .builtin r l := by
  rcases canCast_iff.mp h with hsame | ⟨-, hconverts⟩
  · have hderef := deref_same_deref hsame
    rw [hs, deref_eq_self ht, same_comm] at hderef
    exact ⟨q, k, eq_of_same_builtin hderef⟩
  · rw [hs] at hconverts
    cases t with
    | builtin r l => exact ⟨r, l, rfl⟩
    | _ => cases hconverts

/-- A type in which an operator can work on two operands. -/
structure Unites (t lhs rhs : Ty) : Prop where
  isBuiltin : t.isBuiltin = true
  not_isVoid : t.isVoid = false
  left : lhs.canCast t = true
  right : rhs.canCast t = true

variable {lhs rhs common : Ty}

theorem common?_eq_some_iff : lhs.common? rhs = some common ↔
    ∃ q k r l, lhs.deref = .builtin q k ∧ rhs.deref = .builtin r l ∧
      k.category?.isSome = true ∧ k.category? = l.category? ∧
      common = .builtin (q.union r) (k.wider l) := by
  constructor
  · intro h
    unfold common? at h
    split at h
    · rename_i q k r l hlhs hrhs
      split at h
      · rename_i hcategory
        obtain ⟨hsome, heq⟩ := Bool.and_eq_true_iff.mp hcategory
        cases h
        exact ⟨q, k, r, l, hlhs, hrhs, hsome, eq_of_beq heq, rfl⟩
      · cases h
    · cases h
  · rintro ⟨q, k, r, l, hlhs, hrhs, hsome, hcategory, rfl⟩
    have hboth : (k.category?.isSome && k.category? == l.category?) = true := by
      rw [← hcategory, hsome, beq_self_eq_true]
      rfl
    simp only [common?, hlhs, hrhs, hboth, if_true]
    rfl

theorem unites_of_common? (h : lhs.common? rhs = some common) : common.Unites lhs rhs := by
  obtain ⟨_, _, rfl, hvoid⟩ := common?_eq_some h
  obtain ⟨q, k, r, l, hlhs, hrhs, hsome, hcategory, heq⟩ := common?_eq_some_iff.mp h
  obtain ⟨hleft, hright⟩ := Builtin.widensTo_wider hsome hcategory
  cases heq
  constructor
  · rfl
  · simpa [isVoid, builtin?] using hvoid
  · exact canCast_builtin_iff.mpr ⟨q, k, hlhs, q.union_includes_left r, hleft⟩
  · exact canCast_builtin_iff.mpr ⟨r, l, hrhs, q.union_includes_right r, hright⟩

theorem Unites.exists_common? (h : t.Unites lhs rhs) : ∃ common, lhs.common? rhs = some common := by
  obtain ⟨hbuiltin, hvoid, hleft, hright⟩ := h
  cases t with
  | builtin q m =>
      obtain ⟨r, k, hlhs, -, hk⟩ := canCast_builtin_iff.mp hleft
      obtain ⟨r', l, hrhs, -, hl⟩ := canCast_builtin_iff.mp hright
      have hsome : m.category?.isSome = true := by
        cases m with
        | void => cases hvoid
        | _ => rfl
      refine ⟨_, common?_eq_some_iff.mpr ⟨r, k, r', l, hlhs, hrhs, ?_, ?_, rfl⟩⟩
      · rw [hk.category?_eq, hsome]
      · rw [hk.category?_eq, hl.category?_eq]
  | _ => cases hbuiltin

/-- The common type stands below every type that both operands convert to. -/
theorem canCast_of_common? (h : lhs.common? rhs = some common) (ht : t.isReference = false)
    (hleft : lhs.canCast t = true) (hright : rhs.canCast t = true) : common.canCast t = true := by
  obtain ⟨q, k, r, l, hlhs, hrhs, -, -, rfl⟩ := common?_eq_some_iff.mp h
  obtain ⟨_, _, rfl⟩ := exists_builtin_of_canCast hleft hlhs ht
  obtain ⟨_, _, hlhs', hquals, hk⟩ := canCast_builtin_iff.mp hleft
  obtain ⟨_, _, hrhs', hquals', hl⟩ := canCast_builtin_iff.mp hright
  cases hlhs.symm.trans hlhs'
  cases hrhs.symm.trans hrhs'
  apply canCast_builtin_iff.mpr
  exact ⟨_, _, rfl, Qualifiers.includes_union hquals hquals', hk.wider hl⟩

theorem common?_comm (lhs rhs : Ty) : lhs.common? rhs = rhs.common? lhs := by
  have hswap : ∀ {lhs rhs common : Ty}, lhs.common? rhs = some common →
      rhs.common? lhs = some common := by
    intro lhs rhs common h
    obtain ⟨q, k, r, l, hlhs, hrhs, hsome, hcategory, rfl⟩ := common?_eq_some_iff.mp h
    apply common?_eq_some_iff.mpr
    refine ⟨r, l, q, k, hrhs, hlhs, hcategory ▸ hsome, hcategory.symm, ?_⟩
    rw [Qualifiers.union_comm, Builtin.wider_comm hcategory]
  exact Option.ext fun common => ⟨hswap, hswap⟩

theorem common?_reference {t : Ty} (q : Qualifiers) (ht : t.isReference = false) (rhs : Ty) :
    (reference q t).common? rhs = t.common? rhs := by
  have hderef : (reference q t).deref = t.deref := by
    rw [deref_eq_self ht]
    rfl
  simp only [common?, hderef]

end Ty

namespace Expr

theorem convert_of_canCast {e : Expr} {target : Ty} (h : e.ty.canCast target = true) :
    ∃ e', e.convert target = .ok e' := by
  obtain ⟨kind, hkind⟩ := isOk_iff.mp h
  exact ⟨_, convert_of_castRule hkind⟩

/-- Both operands convert to their common type, so that only the lack of one is a failure. -/
theorem algebra_eq_error_iff {op : BinaryOp} {lhs rhs : Expr} {e : Error} :
    algebra op lhs rhs = .error e ↔
      lhs.ty.common? rhs.ty = none ∧ e = .noCommonType op lhs.ty.text rhs.ty.text := by
  cases hcommon : lhs.ty.common? rhs.ty with
  | none =>
      have hfails : algebra op lhs rhs = .error (.noCommonType op lhs.ty.text rhs.ty.text) := by
        rw [algebra, hcommon]
        rfl
      rw [hfails]
      simp [eq_comm]
  | some common =>
      have hunites := Ty.unites_of_common? hcommon
      obtain ⟨lhs', hlhs⟩ := convert_of_canCast hunites.left
      obtain ⟨rhs', hrhs⟩ := convert_of_canCast hunites.right
      simp [algebra, hcommon, hlhs, hrhs, ok_bind]

end Expr

/--
The common type of two operands is their join: there is one if any builtin type
takes both, and it converts to every other type that does.  References to the
operands make no difference.  An operator of arithmetic or comparison therefore
fails only for want of a common type, and never in a conversion.
-/
theorem common?_isJoin :
    (∀ lhs rhs : Ty, (∃ common, lhs.common? rhs = some common) ↔ ∃ t : Ty, t.Unites lhs rhs) ∧
    (∀ lhs rhs common : Ty, lhs.common? rhs = some common →
      common.Unites lhs rhs ∧
        ∀ t : Ty, t.isReference = false → lhs.canCast t = true → rhs.canCast t = true →
          common.canCast t = true) ∧
    (∀ lhs rhs : Ty, lhs.common? rhs = rhs.common? lhs) ∧
    (∀ (q : Qualifiers) (t other : Ty), t.isReference = false →
      (Ty.reference q t).common? other = t.common? other ∧
        other.common? (.reference q t) = other.common? t) ∧
    ∀ (op : BinaryOp) (lhs rhs : Expr) (e : Error), Expr.algebra op lhs rhs = .error e ↔
      lhs.ty.common? rhs.ty = none ∧ e = .noCommonType op lhs.ty.text rhs.ty.text := by
  refine ⟨?_, ?_, Ty.common?_comm, ?_, ?_⟩
  · intro lhs rhs
    constructor
    · rintro ⟨common, h⟩
      exact ⟨common, Ty.unites_of_common? h⟩
    · rintro ⟨t, h⟩
      exact h.exists_common?
  · intro lhs rhs common h
    refine ⟨Ty.unites_of_common? h, ?_⟩
    intro t ht hleft hright
    exact Ty.canCast_of_common? h ht hleft hright
  · intro q t other ht
    have hleft := Ty.common?_reference q ht other
    refine ⟨hleft, ?_⟩
    rw [Ty.common?_comm, hleft, Ty.common?_comm]
  · intro op lhs rhs e
    exact Expr.algebra_eq_error_iff

/-- The operands `const vi8` and a reference to `volatile vi32`; and `bool` with `vi8`. -/
theorem isJoin_of_qualified_operands :
    ((Ty.builtin ⟨true, false⟩ .vi8).common? (Ty.builtin ⟨false, true⟩ .vi32).referenceTo =
        some (.builtin ⟨true, true⟩ .vi32) ∧
      (Ty.builtin ⟨true, true⟩ .vi32).canCast (.builtin ⟨true, true⟩ .vi64) = true) ∧
    Expr.algebra .add (.ofBool true) (.ofInt 1) = .error (.noCommonType .add "bool" "vi8") := by
  obtain ⟨-, hleast, -, -, hfails⟩ := common?_isJoin
  have hcommon : (Ty.builtin ⟨true, false⟩ .vi8).common?
      (Ty.builtin ⟨false, true⟩ .vi32).referenceTo = some (.builtin ⟨true, true⟩ .vi32) := by
    decide
  refine ⟨⟨hcommon, ?_⟩, ?_⟩
  · exact (hleast _ _ _ hcommon).2 _ rfl (by decide) (by decide)
  · exact (hfails _ _ _ _).mpr ⟨by decide, by decide +kernel⟩

end UnitAnalysis
