import Mathlib.Algebra.Group.Int.Defs
import UnitAnalysis.Proofs.Acceptance
import UnitAnalysis.Proofs.Invariant
import UnitAnalysis.Proofs.Parts

/-!
# Soundness of elaboration

A typing rule for every node of an analysed expression, stated against the
declarations of the unit and without the functions that build the nodes.  Main
statement: all expressions of an accepted unit follow the rules
(`wellTyped_of_analyze`).
-/

namespace UnitAnalysis

open Check

/-! ## Rules -/

def Builtin.width? : Builtin → Option Nat
  | .vi8 => some 8
  | .vi16 => some 16
  | .vi32 => some 32
  | .vi64 => some 64
  | _ => none

def Builtin.Holds (k : Builtin) (v : Int64) : Prop :=
  ∃ width, k.width? = some width ∧ -2 ^ (width - 1) ≤ v.toInt ∧ v.toInt < 2 ^ (width - 1)

def Builtin.IsNarrowest (k : Builtin) (v : Int64) : Prop :=
  k.Holds v ∧ ∀ l : Builtin, l.Holds v → k.rank ≤ l.rank

/-- The type and the category with which a declaration is referred to. -/
def Arena.Denotes (a : Arena) (id : DeclId) (t : Typing) : Prop :=
  match a.kind? id with
  | some (.var ty _) | some (.field ty) => t = ⟨ty, .lvalue⟩
  | some (.enumerator _) => ∃ owner, a.parent? id = some owner ∧
      a.sort? owner = some (.tag .enumTag) ∧
      t = ⟨.tag .none .enumTag owner (a.displayName owner), .rvalue⟩
  | _ => False

/--
A value of a wanted type.  One reference may stand between the two: a call that
returns a reference is a value of reference type, and storage of reference type
is loaded through the reference.
-/
def Expr.Delivers (e : Expr) (target : Ty) : Prop :=
  e.isRvalue = true ∧
    (e.ty.same target = true ∨ e.ty.deref.same target = true ∨ e.ty.same target.deref = true)

/-- What a variable, a parameter or the result of a function of some type takes. -/
def Expr.Fits (e : Expr) : Ty → Prop
  | .reference _ referent =>
      (e.isLvalue = true ∨ referent.isConst = true) ∧ referent.same e.ty.deref = true
  | target => e.isRvalue = true ∧ e.ty.deref.same target = true

def Expr.BinaryTyped (t : Typing) (op : BinaryOp) (lhs rhs : Expr) : Prop :=
  t.category = .rvalue ∧
    match op with
    | .assign =>
        t.ty = lhs.ty ∧ lhs.isLvalue = true ∧ lhs.ty.isConst = false ∧
          lhs.ty.deref.isConst = false ∧ rhs.Delivers lhs.ty.deref
    | .or | .and =>
        t.ty = .ofBuiltin .bool ∧ lhs.isRvalue = true ∧ rhs.isRvalue = true ∧
          lhs.ty.deref.isBool = true ∧ rhs.ty.deref.isBool = true
    | op =>
        lhs.isRvalue = true ∧ rhs.isRvalue = true ∧
          ∃ common, common.isBuiltin = true ∧ common.isVoid = false ∧
            lhs.ty.deref = common ∧ rhs.ty.deref = common ∧
            t.ty = if op.isComparison then .ofBuiltin .bool else common

def Arena.CallTyped (a : Arena) (t : Typing) (callee : DeclId) (args : List Expr) : Prop :=
  ∃ f, a.func callee = .ok f ∧ f.previous = none ∧ t = ⟨f.returnTy, .rvalue⟩ ∧
    List.Forall₂ (fun param arg => ∃ ty, a.varTy param = .ok ty ∧ arg.Fits ty) f.params args

/-- The typing rule of the outermost node of an expression. -/
def Expr.Typed (a : Arena) : Expr → Prop
  | .int t value => t.category = .rvalue ∧ ∃ k, t.ty = .ofBuiltin k ∧ k.IsNarrowest value
  | .float t _ => t = ⟨.ofBuiltin .vr32, .rvalue⟩
  | .bool t _ => t = ⟨.ofBuiltin .bool, .rvalue⟩
  | .ref t id => a.Denotes id t
  | .binary t op lhs rhs => Expr.BinaryTyped t op lhs rhs
  | .cast t kind operand => t.category = .rvalue ∧ t.ty.isReference = false ∧
      operand.ty.castRule t.ty = .ok (some kind)
  | .load t operand => operand.isLvalue = true ∧ t = ⟨operand.ty.deref, .rvalue⟩
  | .call t callee args => a.CallTyped t callee args

def Expr.WellTyped (a : Arena) (e : Expr) : Prop :=
  ∀ x ∈ e.parts, x.Typed a

def Func.ReturnFits (f : Func) : Option Expr → Prop
  | none => f.returnTy.isVoid = true
  | some value => f.returnTy.isVoid = false ∧ value.Fits f.returnTy

/--
All expressions of a unit are well typed, and initializers and returned values
fit what they are meant for.
-/
structure Arena.WellTyped (a : Arena) : Prop where
  exprs : ∀ {id kind root e}, a.kind? id = some kind → root ∈ kind.roots → e ∈ root.parts →
    e.Typed a
  inits : ∀ {id ty init}, a.kind? id = some (.var ty (some init)) → init.Fits ty
  returns : ∀ {id f body value}, a.kind? id = some (.func f) → f.body = some body →
    value ∈ Stmt.returnsAll body → f.ReturnFits value

/-! ## Literals -/

theorem Builtin.isNarrowest_ofInt (v : Int64) : (Builtin.ofInt v).IsNarrowest v := by
  have hlt := v.toInt_lt
  have hle := v.le_toInt
  unfold ofInt
  refine ⟨?_, ?_⟩
  · split
    · exact ⟨8, rfl, by assumption⟩
    · split
      · exact ⟨16, rfl, by assumption⟩
      · split
        · exact ⟨32, rfl, by assumption⟩
        · exact ⟨64, rfl, hle, hlt⟩
  · rintro l ⟨width, hwidth, hlow, hhigh⟩
    cases l <;> cases hwidth <;> simp only [Nat.add_one_sub_one] at hlow hhigh <;>
      split <;> try (split <;> try split)
    all_goals simp only [rank]
    all_goals omega

/-! ## Conversions -/

namespace Ty

theorem not_isReference_of_castRule {source target : Ty} {kind : CastKind}
    (h : source.castRule target = .ok (some kind)) : target.isReference = false := by
  cases target with
  | reference quals referent =>
      unfold castRule at h
      split at h
      · cases h
      · split at h
        · cases h
        · split at h
          · cases h
          · split at h
            · cases h
            · rename_i hrebind _ hdiffer
              -- A source that is no reference has neither the shape of one nor a cast to one.
              cases source <;>
                simp_all [isReference, referent?, deref, sameShape, withQuals, same, castShape,
                  Except.map]
  | _ => rfl

theorem same_of_castRule_none {source target : Ty} (h : source.castRule target = .ok none) :
    source.same target = true ∨ source.deref.same target = true := by
  unfold castRule at h
  split at h
  · exact .inl (by assumption)
  · split at h
    · contradiction
    · split at h
      · contradiction
      · split at h
        · exact .inr (by assumption)
        · split at h
          · cases h
          · simp at h

theorem deref_eq_self {t : Ty} (h : t.isReference = false) : t.deref = t := by
  cases t with
  | reference => simp [isReference, referent?] at h
  | _ => rfl

theorem isReference_eq_of_same {s t : Ty} (h : s.same t = true) :
    s.isReference = t.isReference := by
  cases s <;> cases t <;> simp_all [same, isReference, referent?]

theorem deref_same_deref {s t : Ty} (h : s.same t = true) : s.deref.same t.deref = true := by
  cases s <;> cases t <;> simp_all [same, deref, referent?]

theorem eq_of_same_builtin {s : Ty} {quals : Qualifiers} {kind : Builtin}
    (h : s.same (.builtin quals kind) = true) : s = .builtin quals kind := by
  cases s <;> simp_all [same]

theorem common?_eq_some {s t common : Ty} (h : s.common? t = some common) :
    ∃ quals kind, common = .builtin quals kind ∧ kind ≠ .void := by
  unfold common? at h
  split at h
  · split at h
    · rename_i q k r l _ _ hcategory
      cases h
      refine ⟨_, _, rfl, ?_⟩
      split <;> rintro rfl <;> simp_all [Builtin.category?, Builtin.rank]
    · cases h
  · cases h

end Ty

namespace Expr

variable {a : Arena} {e e' : Expr} {target : Ty}

theorem WellTyped.loaded (h : e.WellTyped a) : e.loaded.WellTyped a := by
  unfold Expr.loaded
  split
  · exact h
  · rename_i hrvalue
    intro x hx
    simp only [parts, List.mem_cons] at hx
    rcases hx with rfl | hx
    · refine ⟨?_, rfl⟩
      simpa [isRvalue_eq_not_isLvalue] using hrvalue
    · exact h x hx

theorem WellTyped.casted (h : e.WellTyped a) {kind : Option CastKind}
    (hcast : e.ty.castRule target = .ok kind) : (e.casted target kind).WellTyped a := by
  cases kind with
  | none => exact h
  | some kind =>
      intro x hx
      simp only [Expr.casted, parts, List.mem_cons] at hx
      rcases hx with rfl | hx
      · exact ⟨rfl, Ty.not_isReference_of_castRule hcast, hcast⟩
      · exact h x hx

theorem ty_loaded (e : Expr) : e.loaded.ty = if e.isRvalue then e.ty else e.ty.deref := by
  unfold Expr.loaded
  split <;> rfl

theorem delivers_loaded_casted {kind : Option CastKind}
    (hcast : e.ty.castRule target = .ok kind) : (e.casted target kind).loaded.Delivers target := by
  refine ⟨isRvalue_loaded _, ?_⟩
  cases kind with
  | some kind =>
      left
      simp [Expr.casted, Expr.loaded, isRvalue, ty, typing]
  | none =>
      simp only [Expr.casted, ty_loaded]
      have hsame := Ty.same_of_castRule_none hcast
      cases e.isRvalue with
      | true => exact hsame.elim .inl fun h => .inr (.inl h)
      | false =>
          rcases hsame with hsame | hsame
          · right; right
            -- Both are references or both are not, so `deref` takes the same step on each.
            exact Ty.deref_same_deref hsame
          · exact .inl hsame

theorem convert_sound (h : e.WellTyped a) (hconvert : e.convert target = .ok e') :
    e'.WellTyped a ∧ e'.Delivers target := by
  simp only [convert, Ty.requireCast, bind_eq_ok, mapError_eq_ok, pure_eq_ok] at hconvert
  obtain ⟨kind, hcast, rfl⟩ := hconvert
  exact ⟨(h.casted hcast).loaded, delivers_loaded_casted hcast⟩

theorem Delivers.deref_same (h : e.Delivers target) (htarget : target.isReference = false) :
    e.ty.deref.same target = true := by
  have hvalue : ∀ {t : Ty}, t.same target = true → t.deref.same target = true := by
    intro t hsame
    rw [Ty.deref_eq_self]
    · exact hsame
    · rw [Ty.isReference_eq_of_same hsame, htarget]
  rcases h.2 with hsame | hsame | hsame
  · exact hvalue hsame
  · exact hsame
  · rw [Ty.deref_eq_self htarget] at hsame
    exact hvalue hsame

theorem Delivers.fits (h : e.Delivers target) (htarget : target.isReference = false) :
    e.Fits target := by
  have hsame := h.deref_same htarget
  cases target with
  | reference => simp [Ty.isReference, Ty.referent?] at htarget
  | _ => exact ⟨h.1, hsame⟩

theorem bindTo_sound {referent : Ty} (quals : Qualifiers) (h : e.bindTo referent = .ok e') :
    e' = e ∧ e.Fits (.reference quals referent) := by
  simp only [bindTo, requireBind, bind_eq_ok, mapError_eq_ok, pure_eq_ok] at h
  obtain ⟨_, hbind, rfl⟩ := h
  refine ⟨rfl, ?_⟩
  unfold bindRule at hbind
  split at hbind
  · contradiction
  · split at hbind
    · contradiction
    · rename_i hvalue hsame
      refine ⟨?_, by simpa using hsame⟩
      simp only [isRvalue_eq_not_isLvalue, Bool.and_eq_true, Bool.not_eq_true', not_and,
        Bool.not_eq_false] at hvalue
      cases hl : e.isLvalue with
      | true => exact .inl rfl
      | false => exact .inr (hvalue hl)

theorem pass_sound (h : e.WellTyped a) (hpass : e.pass target = .ok e') :
    e'.WellTyped a ∧ e'.Fits target := by
  cases target with
  | reference quals referent =>
      obtain ⟨rfl, hfits⟩ := bindTo_sound quals hpass
      exact ⟨h, hfits⟩
  | _ =>
      obtain ⟨htyped, hdelivers⟩ := convert_sound h hpass
      exact ⟨htyped, hdelivers.fits rfl⟩

theorem initFor_sound (h : e.WellTyped a) (hinit : e.initFor target = .ok e') :
    e'.WellTyped a ∧ e'.Fits target := by
  cases target with
  | reference quals referent =>
      obtain ⟨rfl, hfits⟩ := bindTo_sound quals hinit
      exact ⟨h, hfits⟩
  | builtin quals kind =>
      simp only [initFor] at hinit
      split at hinit
      · split at hinit
        · rename_i cast hcast
          cases hinit
          exact ⟨(h.casted hcast).loaded, (delivers_loaded_casted hcast).fits rfl⟩
        · contradiction
      · contradiction
  | pointer => simp [initFor] at hinit
  | tag => simp [initFor] at hinit

/-! ## Operators -/

section Operators

variable {op : BinaryOp} {lhs rhs : Expr}

theorem WellTyped.binary {t : Typing} (hlhs : lhs.WellTyped a) (hrhs : rhs.WellTyped a)
    (h : BinaryTyped t op lhs rhs) : (Expr.binary t op lhs rhs).WellTyped a := by
  intro x hx
  simp only [parts, List.mem_cons, List.mem_append] at hx
  rcases hx with rfl | hx | hx
  · exact h
  · exact hlhs x hx
  · exact hrhs x hx

theorem assign_sound (hlhs : lhs.WellTyped a) (hrhs : rhs.WellTyped a)
    (h : lhs.assign rhs = .ok e) : e.WellTyped a := by
  cases hlvalue : lhs.isLvalue with
  | false => simp [assign, hlvalue] at h
  | true =>
      simp only [assign, hlvalue, Bool.not_true, Bool.false_eq_true, if_false] at h
      split at h
      · simp at h
      · rename_i hconst
        simp only [bind_eq_ok, pure_eq_ok] at h
        obtain ⟨rhs', hconvert, rfl⟩ := h
        obtain ⟨hrhs', hdelivers⟩ := convert_sound hrhs hconvert
        simp only [Bool.or_eq_true, not_or, Bool.not_eq_true] at hconst
        exact hlhs.binary hrhs' ⟨rfl, rfl, hlvalue, hconst.1, hconst.2, hdelivers⟩

theorem isBool_deref_loaded (h : e.ty.deref.isBool = true) : e.loaded.ty.deref.isBool = true := by
  rw [ty_loaded]
  split
  · exact h
  · -- A type of kind `bool` is no reference, so nothing is left to look behind.
    cases hty : e.ty.deref <;> simp_all [Ty.isBool, Ty.builtin?, Ty.deref, Ty.referent?]

theorem logical_sound (hop : op.isLogical = true) (hlhs : lhs.WellTyped a)
    (hrhs : rhs.WellTyped a) (h : logical op lhs rhs = .ok e) : e.WellTyped a := by
  simp only [logical, requireBool, bind_eq_ok, pure_eq_ok] at h
  obtain ⟨_, hleft, _, hright, rfl⟩ := h
  split at hleft
  · split at hright
    · rename_i hlbool hrbool
      refine hlhs.loaded.binary hrhs.loaded ⟨rfl, ?_⟩
      have hrule := And.intro (isBool_deref_loaded hlbool) (isBool_deref_loaded hrbool)
      cases op <;> first
        | exact ⟨rfl, isRvalue_loaded _, isRvalue_loaded _, hrule⟩
        | cases hop
    · cases hright
  · cases hleft

theorem algebra_sound (hassign : op ≠ .assign) (hlogical : op.isLogical = false)
    (hlhs : lhs.WellTyped a) (hrhs : rhs.WellTyped a) (h : algebra op lhs rhs = .ok e) :
    e.WellTyped a := by
  unfold algebra at h
  split at h
  · rename_i common hcommon
    simp only [bind_eq_ok, pure_eq_ok] at h
    obtain ⟨lhs', hleft, rhs', hright, rfl⟩ := h
    obtain ⟨quals, kind, rfl, hvoid⟩ := Ty.common?_eq_some hcommon
    obtain ⟨hlhs', hldelivers⟩ := convert_sound hlhs hleft
    obtain ⟨hrhs', hrdelivers⟩ := convert_sound hrhs hright
    have hl := Ty.eq_of_same_builtin (hldelivers.deref_same rfl)
    have hr := Ty.eq_of_same_builtin (hrdelivers.deref_same rfl)
    have hnot : (Ty.builtin quals kind).isVoid = false := by
      simpa [Ty.isVoid, Ty.builtin?] using hvoid
    refine hlhs'.binary hrhs' ⟨rfl, ?_⟩
    cases op <;> first
      | exact ⟨hldelivers.1, hrdelivers.1, _, rfl, hnot, hl, hr, rfl⟩
      | contradiction
  · simp at h

theorem combine_sound (hlhs : lhs.WellTyped a) (hrhs : rhs.WellTyped a)
    (h : combine op lhs rhs = .ok e) : e.WellTyped a := by
  unfold combine at h
  split at h
  · rename_i hop
    subst hop
    exact assign_sound hlhs hrhs h
  · split at h
    · exact logical_sound (by assumption) hlhs hrhs h
    · rename_i hassign hlogical
      exact algebra_sound hassign (by simpa using hlogical) hlhs hrhs h

end Operators

end Expr

/-! ## Names and calls -/

def Arena.Owned (a : Arena) (id : DeclId) (kind : DeclKind) : Prop :=
  kind.sort = .enumerator →
    ∃ owner, a.parent? id = some owner ∧ a.sort? owner = some (.tag .enumTag)

section Names

variable {s : Store} {p : Place} {e : Expr}

theorem Store.refer_sound {id : DeclId} (howned : s.arena.All Arena.Owned)
    (h : s.refer id = .ok e) : e.WellTyped s.arena := by
  suffices href : ∃ t, e = .ref t id ∧ s.arena.Denotes id t by
    obtain ⟨t, rfl, hdenotes⟩ := href
    intro x hx
    obtain rfl : x = .ref t id := by simpa [Expr.parts] using hx
    exact hdenotes
  unfold refer at h
  split at h
  · rename_i hkind
    cases h
    exact ⟨_, rfl, by simp [Arena.Denotes, hkind]⟩
  · rename_i hkind
    cases h
    exact ⟨_, rfl, by simp [Arena.Denotes, hkind]⟩
  · rename_i hkind
    obtain ⟨owner, hparent, hsort⟩ := howned hkind rfl
    simp only [Arena.valueTy?, hkind, hparent, Option.bind_some, Arena.tagTy?, hsort] at h
    cases h
    refine ⟨_, rfl, ?_⟩
    simp only [Arena.Denotes, hkind]
    exact ⟨owner, hparent, hsort, rfl⟩
  · cases h

theorem Store.nameExpr_sound {path : Path} (howned : s.arena.All Arena.Owned)
    (h : s.nameExpr p path = .ok e) : e.WellTyped s.arena := by
  simp only [nameExpr, bind_eq_ok] at h
  obtain ⟨found, -, h⟩ := h
  split at h
  · exact refer_sound howned h
  · simp at h

theorem Store.passArg_sound {param : DeclId} {arg passed : Expr} (harg : arg.WellTyped s.arena)
    (h : s.passArg param arg = .ok passed) :
    passed.WellTyped s.arena ∧ ∃ ty, s.arena.varTy param = .ok ty ∧ passed.Fits ty := by
  simp only [passArg, bind_eq_ok] at h
  obtain ⟨ty, hty, hpass⟩ := h
  obtain ⟨hpassed, hfits⟩ := Expr.pass_sound harg hpass
  exact ⟨hpassed, ty, hty, hfits⟩

theorem Store.passAll_sound {params : List DeclId} {args passed : List Expr}
    (hlength : params.length = args.length) (hargs : ∀ arg ∈ args, arg.WellTyped s.arena)
    (h : List.Forall₂ (fun (pair : DeclId × Expr) arg => s.passArg pair.1 pair.2 = .ok arg)
      (params.zip args) passed) :
    (∀ arg ∈ passed, arg.WellTyped s.arena) ∧
      List.Forall₂ (fun param arg => ∃ ty, s.arena.varTy param = .ok ty ∧ arg.Fits ty)
        params passed := by
  induction params generalizing args passed with
  | nil =>
      cases h
      exact ⟨by simp, .nil⟩
  | cons param params ih =>
      cases args with
      | nil => simp at hlength
      | cons arg args =>
          cases h with
          | cons hfirst hrest =>
              obtain ⟨hwell, hfits⟩ := passArg_sound (hargs arg List.mem_cons_self) hfirst
              obtain ⟨hwells, hall⟩ := ih (by simpa using hlength)
                (fun x hx => hargs x (List.mem_cons_of_mem _ hx)) hrest
              refine ⟨?_, .cons hfits hall⟩
              intro x hx
              rcases List.mem_cons.mp hx with rfl | hx
              · exact hwell
              · exact hwells x hx

theorem Store.exists_first_of_candidates {path : Path} {candidates : List DeclId}
    (h : s.candidates p path = .ok candidates) {callee : DeclId} (hmem : callee ∈ candidates) :
    ∃ id, s.arena.firstDeclaration id = .ok callee := by
  simp only [Store.candidates, bind_eq_ok, pure_eq_ok] at h
  obtain ⟨found, -, firsts, hfirsts, rfl⟩ := h
  rw [List.mem_eraseDups] at hmem
  obtain ⟨id, -, hid⟩ := exists_of_mem_mapM hfirsts hmem
  exact ⟨id, hid⟩

theorem Store.callExpr_sound {path : Path} {args : List Expr} (hs : s.arena.Bounded)
    (hargs : ∀ arg ∈ args, arg.WellTyped s.arena) (h : s.callExpr p path args = .ok e) :
    e.WellTyped s.arena := by
  unfold callExpr at h
  simp only [bind_eq_ok] at h
  obtain ⟨candidates, hcandidates, h⟩ := h
  split at h
  · simp at h
  · split at h
    · rename_i callee hfind
      simp only [bind_eq_ok, pure_eq_ok] at h
      obtain ⟨f, hf, passed, hpassed, rfl⟩ := h
      obtain ⟨id, hid⟩ := exists_first_of_candidates hcandidates (List.mem_of_find?_eq_some hfind)
      have hlength : f.params.length = args.length := by
        have hviable := List.find?_some hfind
        simp only [isViable, hf, Bool.and_eq_true, beq_iff_eq] at hviable
        exact hviable.1
      obtain ⟨hwells, hfits⟩ := passAll_sound hlength hargs (forall₂_of_mapM_eq_ok hpassed)
      intro x hx
      simp only [Expr.parts, List.mem_cons, Expr.mem_partsAll] at hx
      rcases hx with rfl | ⟨arg, harg, hx⟩
      · exact ⟨f, hf, hs.previous_eq_none_of_firstDeclaration hid hf, rfl, hfits⟩
      · exact hwells arg harg x hx
    · simp at h

theorem ExprAt.wellTyped (hs : s.arena.Bounded) (howned : s.arena.All Arena.Owned)
    (h : ExprAt s p e) : e.WellTyped s.arena := by
  induction h with
  | int value =>
      intro x hx
      obtain rfl : x = .ofInt value := by simpa [Expr.parts, Expr.ofInt] using hx
      exact ⟨rfl, _, rfl, Builtin.isNarrowest_ofInt value⟩
  | float value =>
      intro x hx
      obtain rfl : x = .ofFloat value := by simpa [Expr.parts, Expr.ofFloat] using hx
      exact rfl
  | bool value =>
      intro x hx
      obtain rfl : x = .ofBool value := by simpa [Expr.parts, Expr.ofBool] using hx
      exact rfl
  | name hname => exact Store.nameExpr_sound howned hname
  | call _ hcall ih => exact Store.callExpr_sound hs ih hcall
  | binary _ _ hcombine ihlhs ihrhs => exact Expr.combine_sound ihlhs ihrhs hcombine

end Names

/-! ## Typings that last -/

section Keeps

variable {a b : Arena} {e : Expr}

theorem Arena.Denotes.keeps {id : DeclId} {t : Typing} (h : a.Keeps b) (ht : a.Denotes id t) :
    b.Denotes id t := by
  cases hd : a.decl? id with
  | none => simp [Denotes, kind?, hd] at ht
  | some d =>
      obtain ⟨d', hd', -, -, hface⟩ := h.exists_decl? hd
      cases hkind : d.kind with
      | enumerator value =>
          simp only [Denotes, kind?, hd, Option.map_some, hkind] at ht
          obtain ⟨owner, hparent, hsort, rfl⟩ := ht
          have howner := sort?_eq_some_lt hsort
          have hid : id < a.size := decl?_eq_some_lt hd
          have hkind' : d'.kind = .enumerator value := by
            cases hk : d'.kind <;> simp_all [DeclKind.face]
          simp only [Denotes, kind?, hd', Option.map_some, hkind']
          refine ⟨owner, (h.parent?_eq hid).trans hparent, (h.sort?_eq howner).trans hsort, ?_⟩
          simp [displayName, h.name?_eq howner]
      | _ => cases hk : d'.kind <;> simp_all [Denotes, kind?, DeclKind.face]

theorem Expr.Typed.keeps (h : a.Keeps b) (he : e.Typed a) : e.Typed b := by
  cases e with
  | ref t id => exact Arena.Denotes.keeps h he
  | call t callee args =>
      obtain ⟨f, hf, hprevious, ht, hargs⟩ := he
      obtain ⟨body, hf'⟩ := h.func_eq_ok hf
      refine ⟨_, hf', hprevious, ht, hargs.imp ?_⟩
      rintro param arg ⟨ty, hty, hfits⟩
      exact ⟨ty, h.varTy_eq_ok hty, hfits⟩
  | _ => exact he

theorem Expr.WellTyped.keeps (h : a.Keeps b) (he : e.WellTyped a) : e.WellTyped b :=
  fun x hx => (he x hx).keeps h

structure Arena.BlockTyped (a : Arena) (function : DeclId) (stmts : List Stmt) : Prop where
  exprs : ∀ root ∈ Stmt.rootsAll stmts, root.WellTyped a
  returns : ∀ value ∈ Stmt.returnsAll stmts, ∃ f, a.func function = .ok f ∧ f.ReturnFits value

namespace Arena.BlockTyped

variable {function : DeclId} {stmt : Stmt} {stmts : List Stmt}

theorem keeps (hkeeps : a.Keeps b) (h : a.BlockTyped function stmts) :
    b.BlockTyped function stmts where
  exprs root hroot := (h.exprs root hroot).keeps hkeeps
  returns value hvalue := by
    obtain ⟨f, hf, hfits⟩ := h.returns value hvalue
    obtain ⟨body, hf'⟩ := hkeeps.func_eq_ok hf
    refine ⟨_, hf', ?_⟩
    cases value <;> exact hfits

theorem cons (hroots : ∀ root ∈ stmt.roots, root.WellTyped a)
    (hreturns : ∀ value ∈ stmt.returns, ∃ f, a.func function = .ok f ∧ f.ReturnFits value)
    (h : a.BlockTyped function stmts) : a.BlockTyped function (stmt :: stmts) where
  exprs root hroot := by
    rw [Stmt.rootsAll, List.mem_append] at hroot
    exact hroot.elim (hroots root) (h.exprs root)
  returns value hvalue := by
    rw [Stmt.returnsAll, List.mem_append] at hvalue
    exact hvalue.elim (hreturns value) (h.returns value)

end Arena.BlockTyped

end Keeps

/-! ## Units -/

theorem Arena.declInvariant_owned : DeclInvariant Arena.Owned where
  stable hextends hid howned hsort := by
    have hkeeps := hextends.toKeeps
    obtain ⟨owner, hparent, howner⟩ := howned hsort
    exact ⟨owner, (hkeeps.parent?_eq hid).trans hparent,
      (hkeeps.sort?_eq (sort?_eq_some_lt howner)).trans howner⟩
  bare {a id kind kind'} heq howned hsort := by
    refine howned ?_
    rw [← hsort, ← DeclKind.sort_face, ← DeclKind.face_bare, heq, DeclKind.face_bare,
      DeclKind.sort_face]
  inert {a id kind} hinert hsort := by
    cases kind <;> cases hsort
    exact hinert.elim
  enumerator hparent hcontext _ := ⟨_, hparent, hcontext⟩
  signature _ hsort := by cases hsort
  init _ _ _ _ _ hsort := by cases hsort
  body _ _ _ _ hsort := by cases hsort

theorem BlockRun.typed {p : Place} {s s' : Store} {stmts : List Stmt} {function : DeclId}
    (h : BlockRun p s stmts s') (hfunction : p.function = some function) (hs : s.Bounded)
    (hp : p.scope < s.scopes.size) (howned : s.arena.All Arena.Owned) :
    s'.arena.BlockTyped function stmts := by
  induction h with
  | nil => exact ⟨by simp [Stmt.rootsAll], by simp [Stmt.returnsAll]⟩
  | block hbody hrest ihbody ihrest =>
      have hclosed := (hbody.grows_closed hp).scope_lt
      have hblock := (ihbody hfunction (hs.opened hp) (Place.inside_lt _ _) howned).keeps
        (hrest.grows hclosed).arena.keeps
      have howned₁ := Arena.declInvariant_owned.of_blockRun hbody (hs.opened hp)
        (Place.inside_lt _ _) howned
      exact .cons hblock.exprs hblock.returns
        (ihrest hfunction (hbody.bounded_closed hs hp) hclosed howned₁)
  | var hvar _ ih =>
      refine .cons (by simp [Stmt.roots]) (by simp [Stmt.returns])
        (ih hfunction (hvar.bounded hs hp) (hvar.grows hp).scope_lt ?_)
      exact Arena.declInvariant_owned.of_varStep hvar hs hp howned
  | expr hexpr hrest ih =>
      refine .cons ?_ (by simp [Stmt.returns]) (ih hfunction hs hp howned)
      intro root hroot
      obtain rfl := List.mem_singleton.mp hroot
      exact (hexpr.wellTyped hs.arena howned).keeps (hrest.grows hp).arena.keeps
  | ret hplace hfunc hvoid hrest ih =>
      refine .cons (by simp [Stmt.roots]) ?_ (ih hfunction hs hp howned)
      intro value hvalue
      obtain rfl := List.mem_singleton.mp hvalue
      obtain rfl : _ = function := Option.some.inj (hplace.symm.trans hfunction)
      obtain ⟨body, hfunc'⟩ := (hrest.grows hp).arena.keeps.func_eq_ok hfunc
      exact ⟨_, hfunc', hvoid⟩
  | retValue hplace hfunc hvoid hexpr hpass hrest ih =>
      have hkeeps := (hrest.grows hp).arena.keeps
      obtain ⟨hvalue, hfits⟩ := Expr.pass_sound (hexpr.wellTyped hs.arena howned) hpass
      refine .cons ?_ ?_ (ih hfunction hs hp howned)
      · intro root hroot
        obtain rfl := List.mem_singleton.mp hroot
        exact hvalue.keeps hkeeps
      · intro value hvalue
        obtain rfl := List.mem_singleton.mp hvalue
        obtain rfl : _ = function := Option.some.inj (hplace.symm.trans hfunction)
        obtain ⟨body, hfunc'⟩ := hkeeps.func_eq_ok hfunc
        exact ⟨_, hfunc', hvoid, hfits⟩

def Arena.Holds (a : Arena) : DeclKind → Prop
  | .var ty (some init) => init.WellTyped a ∧ init.Fits ty
  | .func f => ∀ body, f.body = some body →
      (∀ root ∈ Stmt.rootsAll body, root.WellTyped a) ∧
        ∀ value ∈ Stmt.returnsAll body, f.ReturnFits value
  | _ => True

theorem Arena.declInvariant_holds :
    DeclInvariant (fun a id kind => a.Owned id kind ∧ a.Holds kind) where
  stable {a b id kind} hextends hid h := by
    refine ⟨declInvariant_owned.stable hextends hid h.1, ?_⟩
    have hkeeps := hextends.toKeeps
    have hholds := h.2
    match kind with
    | .var ty (some init) => exact ⟨hholds.1.keeps hkeeps, hholds.2⟩
    | .func f =>
        intro body hbody
        obtain ⟨hroots, hreturns⟩ := hholds body hbody
        exact ⟨fun root hroot => (hroots root hroot).keeps hkeeps, hreturns⟩
    | .var _ none | .unit _ | .field _ | .tag _ _ | .enumerator _ => trivial
  bare {a id kind kind'} heq h := by
    refine ⟨declInvariant_owned.bare heq h.1, ?_⟩
    cases kind <;> cases kind' <;> simp_all [DeclKind.bare, Holds]
  inert {a id kind} hinert := by
    refine ⟨declInvariant_owned.inert hinert, ?_⟩
    cases kind <;> simp_all [DeclKind.Inert, Holds]
  enumerator hparent hcontext := ⟨declInvariant_owned.enumerator hparent hcontext, trivial⟩
  signature hsigned := by
    refine ⟨declInvariant_owned.signature hsigned, ?_⟩
    intro body hbody
    rw [hsigned.body_eq] at hbody
    cases hbody
  init {p s name ty e init} hs hp hold hexpr hinit := by
    refine ⟨fun hsort => (by cases hsort), ?_⟩
    have hvar : (DeclKind.var ty none).Inert := rfl
    have howned : s.arena.All Owned := fun id kind hkind => (hold hkind).1
    have hdeclared : (s.declared p name (.var ty none)).Bounded := hs.declared name rfl (by simp)
    have hwell := hexpr.wellTyped hdeclared.arena
      (declInvariant_owned.of_declared howned name _ (declInvariant_owned.inert hvar))
    obtain ⟨hwell', hfits⟩ := Expr.initFor_sound hwell hinit
    have hkeeps : (s.declared p name (.var ty none)).arena.Keeps
        (s.declared p name (.var ty (some init))).arena := s.keeps_declared p name rfl
    exact ⟨hwell'.keeps hkeeps, hfits⟩
  body {p s₁ s₂ id f body} hs₁ hold hsigned hrun := by
    refine ⟨fun hsort => (by cases hsort), ?_⟩
    have hfunc := hsigned.func_eq
    have howned : s₁.arena.All Owned := fun id kind hkind => (hold hkind).1
    have hinside := Place.inside_lt_revealedAll p s₁ f.params
    have hblock := (hrun.typed rfl (hs₁.bounded.enterBody hs₁.scope_lt hfunc) hinside howned).keeps
      (s₂.keeps_setBody id body)
    intro body' hbody'
    cases hbody'
    refine ⟨hblock.exprs, ?_⟩
    intro value hvalue
    obtain ⟨g, hg, hfits⟩ := hblock.returns value hvalue
    rw [func_of_kind? (hrun.kind?_setBody hinside hfunc body)] at hg
    cases hg
    exact hfits

/-- Elaboration is sound: whatever unit is accepted is well typed. -/
theorem wellTyped_of_analyze {tokens : List Token} {a : Arena} (h : analyze tokens = .ok a) :
    a.WellTyped := by
  obtain ⟨ids, s, hrun, rfl⟩ := exists_run_of_analyze h
  have hall := Arena.declInvariant_holds.of_unitRun hrun
  constructor
  · intro id kind root e hkind hroot he
    have hholds := (hall hkind).2
    match kind with
    | .var ty (some init) =>
        obtain rfl : root = init := by simpa [DeclKind.roots] using hroot
        exact hholds.1 e he
    | .func f =>
        cases hbody : f.body with
        | none => simp [DeclKind.roots, hbody, Stmt.rootsAll] at hroot
        | some body =>
            simp only [DeclKind.roots, hbody, Option.getD_some] at hroot
            exact (hholds body hbody).1 root hroot e he
    | .var _ none | .unit _ | .field _ | .tag _ _ | .enumerator _ =>
        simp [DeclKind.roots] at hroot
  · intro id ty init hkind
    exact (hall hkind).2.2
  · intro id f body value hkind hbody hvalue
    exact ((hall hkind).2 body hbody).2 value hvalue

/-- `func f(vi8 x) -> vi32 { return x + 300; } let vi64 y = f(1);` -/
theorem wellTyped_widening_unit : ∃ a, analyze
    [.keyword .funcKw, .name "f", .mark .lparen, .builtin .vi8, .name "x", .mark .rparen,
      .mark .arrow, .builtin .vi32, .mark .lbrace, .keyword .returnKw, .name "x", .operator .add,
      .int 300, .mark .semi, .mark .rbrace, .keyword .letKw, .builtin .vi64, .name "y",
      .operator .assign, .name "f", .mark .lparen, .int 1, .mark .rparen, .mark .semi] = .ok a ∧
    a.WellTyped :=
  exists_ok_and (by decide +kernel) fun _ => wellTyped_of_analyze

end UnitAnalysis
