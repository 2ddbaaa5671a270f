import UnitAnalysis.Proofs.ConstSafety

/-!
# What a conversion delivers

A conversion to a type that is no reference casts and loads, and what comes out
is a value of that type.  There is one way around: a value is never loaded, so
that a value of reference type stays as it is when the type behind the reference
is the wanted one.  Values of reference type are the calls of functions that
return references and the assignments through references, and nothing else that
is converted.  Main statement: `conversions_deliver`.
-/

namespace UnitAnalysis

open Check

/-! ## Values of a wanted type -/

namespace Expr

/-- Calls and assignments, whose type is the one that some declaration was given. -/
def isAlias : Expr → Bool
  | .call _ _ _ => true
  | .binary _ op _ _ => op == .assign
  | _ => false

/-- A value of exactly the wanted type, or a call or an assignment that refers to one. -/
def Yields (e : Expr) (target : Ty) : Prop :=
  e.isRvalue = true ∧
    (e.ty.same target = true ∨
      e.isAlias = true ∧ e.ty.isReference = true ∧ e.ty.deref.same target = true)

/-- Among values only calls and assignments have a reference type. -/
def Direct (e : Expr) : Prop :=
  e.isRvalue = true → e.ty.isReference = true → e.isAlias = true

/-- The expressions in a node that were converted to the type the node wants of them. -/
def converted : Expr → List Expr
  | .call _ _ args => args
  | .binary _ op lhs rhs => if op = .assign ∨ op.isLogical = true then [] else [lhs, rhs]
  | _ => []

/-- Whatever was converted in an expression is direct. -/
def DirectInside (e : Expr) : Prop :=
  ∀ x ∈ e.parts, ∀ y ∈ x.converted, y.Direct

variable {e e' : Expr} {target : Ty}

theorem Direct.of_not_isReference (h : e.ty.isReference = false) : e.Direct := by
  intro _ href
  rw [h] at href
  cases href

theorem Direct.yields (h : e.Direct) (hrvalue : e.isRvalue = true)
    (hsame : e.ty.deref.same target = true) : e.Yields target := by
  refine ⟨hrvalue, ?_⟩
  cases href : e.ty.isReference with
  | true => exact .inr ⟨h hrvalue href, rfl, hsame⟩
  | false =>
      rw [Ty.deref_eq_self href] at hsame
      exact .inl hsame

/-! ## Conversions -/

theorem exists_cast_of_convert (h : e.convert target = .ok e') :
    ∃ kind, e.ty.castRule target = .ok kind ∧ e' = (e.casted target kind).loaded := by
  simp only [convert, Ty.requireCast, bind_eq_ok, mapError_eq_ok, pure_eq_ok] at h
  obtain ⟨kind, hcast, rfl⟩ := h
  exact ⟨kind, hcast, rfl⟩

theorem exists_cast_of_initFor (htarget : target.isReference = false)
    (h : e.initFor target = .ok e') :
    ∃ kind, e.ty.castRule target = .ok kind ∧ e' = (e.casted target kind).loaded := by
  cases target with
  | reference => cases htarget
  | builtin quals k =>
      simp only [initFor] at h
      split at h
      · split at h
        · rename_i kind hcast
          cases h
          exact ⟨kind, hcast, rfl⟩
        · contradiction
      · contradiction
  | pointer => simp [initFor] at h
  | tag => simp [initFor] at h

/-- Nothing but a value of reference type gets by without the wanted type. -/
theorem same_or_eq_of_cast {kind : Option CastKind} (htarget : target.isReference = false)
    (hcast : e.ty.castRule target = .ok kind) :
    (e.casted target kind).loaded.ty.same target = true ∨
      (e.casted target kind).loaded = e ∧ e.ty.deref.same target = true := by
  cases kind with
  | some kind =>
      left
      simp [casted, loaded, isRvalue, ty, typing]
  | none =>
      have hsame := Ty.same_of_castRule_none hcast
      simp only [casted, ty_loaded]
      cases hrvalue : e.isRvalue with
      | true =>
          rcases hsame with hsame | hsame
          · exact .inl hsame
          · exact .inr ⟨by simp [loaded, hrvalue], hsame⟩
      | false =>
          left
          rcases hsame with hsame | hsame
          · have href : e.ty.isReference = false := by
              rw [Ty.isReference_eq_of_same hsame, htarget]
            rw [Ty.deref_eq_self href]
            exact hsame
          · exact hsame

theorem yields_of_cast (h : e.Direct) {kind : Option CastKind}
    (htarget : target.isReference = false) (hcast : e.ty.castRule target = .ok kind) :
    (e.casted target kind).loaded.Yields target := by
  rcases same_or_eq_of_cast htarget hcast with hsame | ⟨heq, hsame⟩
  · exact ⟨isRvalue_loaded _, .inl hsame⟩
  · rw [heq]
    exact h.yields (heq ▸ isRvalue_loaded _) hsame

theorem Direct.cast (h : e.Direct) {kind : Option CastKind} (htarget : target.isReference = false)
    (hcast : e.ty.castRule target = .ok kind) : (e.casted target kind).loaded.Direct := by
  rcases same_or_eq_of_cast htarget hcast with hsame | ⟨heq, -⟩
  · refine .of_not_isReference ?_
    rw [Ty.isReference_eq_of_same hsame, htarget]
  · rw [heq]
    exact h

theorem DirectInside.loaded (h : e.DirectInside) : e.loaded.DirectInside := by
  unfold Expr.loaded
  split
  · exact h
  · intro x hx
    rcases List.mem_cons.mp hx with rfl | hx
    · simp [converted]
    · exact h x hx

theorem DirectInside.casted (h : e.DirectInside) (target : Ty) (kind : Option CastKind) :
    (e.casted target kind).DirectInside := by
  cases kind with
  | none => exact h
  | some kind =>
      intro x hx
      rcases List.mem_cons.mp hx with rfl | hx
      · simp [Expr.casted, converted]
      · exact h x hx

theorem DirectInside.convert (h : e.DirectInside) (hconvert : e.convert target = .ok e') :
    e'.DirectInside := by
  obtain ⟨kind, -, rfl⟩ := exists_cast_of_convert hconvert
  exact (h.casted target kind).loaded

/-! ## Expressions of a unit -/

structure Plain (e : Expr) : Prop where
  direct : e.Direct
  inside : e.DirectInside

namespace Plain

theorem convert (h : e.Plain) (htarget : target.isReference = false)
    (hconvert : e.convert target = .ok e') : e'.Plain := by
  refine ⟨?_, h.inside.convert hconvert⟩
  obtain ⟨kind, hcast, rfl⟩ := exists_cast_of_convert hconvert
  exact h.direct.cast htarget hcast

theorem pass (h : e.Plain) (hpass : e.pass target = .ok e') : e'.Plain := by
  cases target with
  | reference quals referent =>
      obtain ⟨rfl, -⟩ := bindTo_sound quals hpass
      exact h
  | _ => exact h.convert rfl hpass

theorem initFor (h : e.Plain) (hinit : e.initFor target = .ok e') : e'.Plain := by
  cases htarget : target.isReference with
  | true =>
      cases target with
      | reference quals referent =>
          obtain ⟨rfl, -⟩ := bindTo_sound quals hinit
          exact h
      | _ => cases htarget
  | false =>
      obtain ⟨kind, hcast, rfl⟩ := exists_cast_of_initFor htarget hinit
      exact ⟨h.direct.cast htarget hcast, (h.inside.casted target kind).loaded⟩

theorem binary {t : Typing} {op : BinaryOp} {lhs rhs : Expr}
    (hdirect : (Expr.binary t op lhs rhs).Direct)
    (hconverted : ∀ y ∈ (Expr.binary t op lhs rhs).converted, y.Direct)
    (hlhs : lhs.DirectInside) (hrhs : rhs.DirectInside) : (Expr.binary t op lhs rhs).Plain := by
  refine ⟨hdirect, ?_⟩
  intro x hx
  simp only [parts, List.mem_cons, List.mem_append] at hx
  rcases hx with rfl | hx | hx
  · exact hconverted
  · exact hlhs x hx
  · exact hrhs x hx

theorem assign {lhs rhs : Expr} (hlhs : lhs.Plain) (hrhs : rhs.Plain)
    (h : lhs.assign rhs = .ok e) : e.Plain := by
  cases hlvalue : lhs.isLvalue with
  | false => simp [Expr.assign, hlvalue] at h
  | true =>
      simp only [Expr.assign, hlvalue, Bool.not_true, Bool.false_eq_true, if_false] at h
      split at h
      · simp at h
      · simp only [bind_eq_ok, pure_eq_ok] at h
        obtain ⟨rhs', hconvert, rfl⟩ := h
        refine .binary (fun _ _ => rfl) ?_ hlhs.inside (hrhs.inside.convert hconvert)
        simp [converted]

theorem logical {op : BinaryOp} {lhs rhs : Expr} (hop : op.isLogical = true) (hlhs : lhs.Plain)
    (hrhs : rhs.Plain) (h : Expr.logical op lhs rhs = .ok e) : e.Plain := by
  simp only [Expr.logical, bind_eq_ok, pure_eq_ok] at h
  obtain ⟨_, -, _, -, rfl⟩ := h
  refine .binary (.of_not_isReference rfl) ?_ hlhs.inside.loaded hrhs.inside.loaded
  simp [converted, hop]

theorem algebra {op : BinaryOp} {lhs rhs : Expr} (hlhs : lhs.Plain) (hrhs : rhs.Plain)
    (h : Expr.algebra op lhs rhs = .ok e) : e.Plain := by
  unfold Expr.algebra at h
  split at h
  · rename_i common hcommon
    simp only [bind_eq_ok, pure_eq_ok] at h
    obtain ⟨lhs', hleft, rhs', hright, rfl⟩ := h
    obtain ⟨quals, kind, rfl, -⟩ := Ty.common?_eq_some hcommon
    have hl := hlhs.convert rfl hleft
    have hr := hrhs.convert rfl hright
    refine .binary (.of_not_isReference ?_) ?_ hl.inside hr.inside
    · simp only [ty, typing]
      split <;> rfl
    · intro y hy
      simp only [converted] at hy
      split at hy
      · contradiction
      · rcases List.mem_pair.mp hy with rfl | rfl
        · exact hl.direct
        · exact hr.direct
  · simp at h

theorem combine {op : BinaryOp} {lhs rhs : Expr} (hlhs : lhs.Plain) (hrhs : rhs.Plain)
    (h : Expr.combine op lhs rhs = .ok e) : e.Plain := by
  unfold Expr.combine at h
  split at h
  · exact hlhs.assign hrhs h
  · split at h
    · exact logical (by assumption) hlhs hrhs h
    · exact hlhs.algebra hrhs h

theorem leaf (hparts : e.parts = [e]) (hconverted : e.converted = []) (hdirect : e.Direct) :
    e.Plain := by
  refine ⟨hdirect, ?_⟩
  intro x hx
  rw [hparts, List.mem_singleton] at hx
  subst hx
  simp [hconverted]

end Plain

end Expr

theorem Store.refer_plain {s : Store} {id : DeclId} {e : Expr} (h : s.refer id = .ok e) :
    e.Plain := by
  suffices href : ∃ t, e = .ref t id ∧ (t.category = .rvalue → t.ty.isReference = false) by
    obtain ⟨t, rfl, ht⟩ := href
    refine .leaf (by simp [Expr.parts]) rfl ?_
    intro hrvalue hreference
    have hcategory : t.category = .rvalue := by simpa [Expr.isRvalue, Expr.typing] using hrvalue
    rw [show t.ty.isReference = true from hreference] at ht
    cases ht hcategory
  unfold refer at h
  split at h
  · cases h
    exact ⟨_, rfl, by simp⟩
  · cases h
    exact ⟨_, rfl, by simp⟩
  · rename_i hkind
    split at h
    · rename_i ty hty
      cases h
      refine ⟨_, rfl, fun _ => ?_⟩
      -- The type of an enumerator is the type of a tag.
      simp only [Arena.valueTy?, hkind] at hty
      obtain ⟨owner, -, htag⟩ := Option.bind_eq_some_iff.mp hty
      unfold Arena.tagTy? at htag
      split at htag
      · cases htag
        rfl
      · cases htag
    · cases h
  · cases h

theorem Store.callExpr_plain {s : Store} {p : Place} {path : Path} {args : List Expr} {e : Expr}
    (hargs : ∀ arg ∈ args, arg.Plain) (h : s.callExpr p path args = .ok e) : e.Plain := by
  unfold callExpr at h
  simp only [bind_eq_ok] at h
  obtain ⟨candidates, -, h⟩ := h
  split at h
  · simp at h
  · split at h
    · simp only [bind_eq_ok, pure_eq_ok] at h
      obtain ⟨f, -, passed, hpassed, rfl⟩ := h
      have hplain : ∀ y ∈ passed, y.Plain := by
        intro y hy
        obtain ⟨⟨param, arg⟩, hmem, hpass⟩ := exists_of_mem_mapM hpassed hy
        simp only [passArg, bind_eq_ok] at hpass
        obtain ⟨ty, -, hpass⟩ := hpass
        exact (hargs arg (List.of_mem_zip hmem).2).pass hpass
      refine ⟨fun _ _ => rfl, ?_⟩
      intro x hx
      simp only [Expr.parts, List.mem_cons, Expr.mem_partsAll] at hx
      rcases hx with rfl | ⟨arg, harg, hx⟩
      · intro y hy
        exact (hplain y hy).direct
      · exact (hplain arg harg).inside x hx
    · simp at h

theorem ExprAt.plain {s : Store} {p : Place} {e : Expr} (h : ExprAt s p e) : e.Plain := by
  induction h with
  | int value => exact .leaf (by simp [Expr.ofInt, Expr.parts]) rfl (.of_not_isReference rfl)
  | float value => exact .leaf (by simp [Expr.ofFloat, Expr.parts]) rfl (.of_not_isReference rfl)
  | bool value => exact .leaf (by simp [Expr.ofBool, Expr.parts]) rfl (.of_not_isReference rfl)
  | name hname =>
      simp only [Store.nameExpr, bind_eq_ok] at hname
      obtain ⟨found, -, h⟩ := hname
      split at h
      · exact Store.refer_plain h
      · simp at h
  | call _ hcall ih => exact Store.callExpr_plain ih hcall
  | binary _ _ hcombine ihlhs ihrhs => exact ihlhs.combine ihrhs hcombine

/-! ## From expressions to declarations -/

section Roots

variable {Q : Expr → Prop}

theorem BlockRun.roots (hexpr : ∀ {s p e}, ExprAt s p e → Q e)
    (hpass : ∀ {e e' target}, Q e → e.pass target = .ok e' → Q e') {p : Place} {s s' : Store}
    {stmts : List Stmt} (h : BlockRun p s stmts s') : ∀ root ∈ Stmt.rootsAll stmts, Q root := by
  induction h with
  | nil => simp [Stmt.rootsAll]
  | block _ _ ihbody ihrest =>
      intro root hroot
      rcases List.mem_append.mp hroot with hroot | hroot
      · exact ihbody root hroot
      · exact ihrest root hroot
  | var _ _ ih => exact ih
  | expr he _ ih =>
      intro root hroot
      rcases List.mem_cons.mp hroot with rfl | hroot
      · exact hexpr he
      · exact ih root hroot
  | ret _ _ _ _ ih => exact ih
  | retValue _ _ _ he hvalue _ ih =>
      intro root hroot
      rcases List.mem_cons.mp hroot with rfl | hroot
      · exact hpass (hexpr he) hvalue
      · exact ih root hroot

/-- What holds of every written expression, passed or not, holds of all that a unit keeps. -/
theorem DeclInvariant.of_roots (hexpr : ∀ {s p e}, ExprAt s p e → Q e)
    (hpass : ∀ {e e' target}, Q e → e.pass target = .ok e' → Q e')
    (hinit : ∀ {e e' target}, Q e → e.initFor target = .ok e' → Q e') :
    DeclInvariant (fun _ _ kind => ∀ root ∈ kind.roots, Q root) where
  stable _ _ h := h
  bare {a id kind kind'} heq h := by
    cases kind <;> cases kind' <;> simp_all [DeclKind.bare, DeclKind.roots]
  inert {a id kind} hinert := by
    cases kind <;> simp_all [DeclKind.Inert, DeclKind.roots]
  enumerator _ _ := by simp [DeclKind.roots]
  signature hsigned := by simp [DeclKind.roots, hsigned.body_eq, Stmt.rootsAll]
  init _ _ _ he hstored root hroot := by
    obtain rfl := List.mem_singleton.mp hroot
    exact hinit (hexpr he) hstored
  body _ _ _ hrun root hroot := hrun.roots hexpr hpass root hroot

end Roots

theorem declInvariant_plain :
    DeclInvariant (fun _ _ kind => ∀ root ∈ kind.roots, root.Plain) :=
  .of_roots ExprAt.plain Expr.Plain.pass Expr.Plain.initFor

/-! ## Units -/

/--
Wherever a unit wants a value of a type that is no reference it has one of
exactly that type, or a call or an assignment that refers to one.
-/
structure Arena.Delivered (a : Arena) : Prop where
  args : ∀ {holder t callee args}, .call t callee args ∈ a.exprs holder →
    ∃ f, a.func callee = .ok f ∧ List.Forall₂ (fun param arg => ∃ ty, a.varTy param = .ok ty ∧
      (ty.isReference = false → arg.Yields ty)) f.params args
  operands : ∀ {holder t op lhs rhs}, .binary t op lhs rhs ∈ a.exprs holder → op ≠ .assign →
    op.isLogical = false → ∃ common, common.isBuiltin = true ∧ common.isVoid = false ∧
      lhs.Yields common ∧ rhs.Yields common ∧
      t.ty = if op.isComparison then .ofBuiltin .bool else common
  inits : ∀ {id ty init}, a.kind? id = some (.var ty (some init)) → ty.isBuiltin = true →
    init.Yields ty
  returns : ∀ {id f body value}, a.kind? id = some (.func f) → f.body = some body →
    some value ∈ Stmt.returnsAll body → f.returnTy.isReference = false → value.Yields f.returnTy

theorem Expr.Fits.yields {e : Expr} {target : Ty} (h : e.Fits target)
    (htarget : target.isReference = false) (hdirect : e.Direct) : e.Yields target := by
  cases target with
  | reference => cases htarget
  | _ => exact hdirect.yields h.1 h.2

mutual

theorem Stmt.mem_roots_of_mem_returns {value : Expr} :
    ∀ {stmt : Stmt}, some value ∈ stmt.returns → value ∈ stmt.roots
  | .compound body, h => Stmt.mem_rootsAll_of_mem_returnsAll h
  | .decl _, h => by cases h
  | .expr _, h => by cases h
  | .ret none, h => by simp [Stmt.returns] at h
  | .ret (some e), h => by simpa [Stmt.returns, Stmt.roots] using h

theorem Stmt.mem_rootsAll_of_mem_returnsAll {value : Expr} :
    ∀ {stmts : List Stmt}, some value ∈ Stmt.returnsAll stmts → value ∈ Stmt.rootsAll stmts
  | [], h => by cases h
  | stmt :: stmts, h => by
      rcases List.mem_append.mp h with h | h
      · exact List.mem_append_left _ (Stmt.mem_roots_of_mem_returns h)
      · exact List.mem_append_right _ (Stmt.mem_rootsAll_of_mem_returnsAll h)

end

theorem Arena.direct_of_mem_exprs {a : Arena}
    (h : a.All fun _ _ kind => ∀ root ∈ kind.roots, root.Plain) {holder : DeclId} {x y : Expr}
    (hx : x ∈ a.exprs holder) (hy : y ∈ x.converted) : y.Direct := by
  obtain ⟨root, hroot, hx⟩ := List.mem_flatMap.mp hx
  cases hkind : a.kind? holder with
  | none => simp [hkind] at hroot
  | some kind =>
      simp only [hkind, Option.map_some, Option.getD_some] at hroot
      exact (h hkind root hroot).inside x hx y hy

section Delivered

variable {a : Arena} (hholds : a.All fun a _ kind => a.Holds kind)
variable (hplain : a.All fun _ _ kind => ∀ root ∈ kind.roots, root.Plain)
include hholds hplain

theorem Arena.yields_args {holder : DeclId} {t : Typing} {callee : DeclId} {args : List Expr}
    (h : .call t callee args ∈ a.exprs holder) :
    ∃ f, a.func callee = .ok f ∧ List.Forall₂ (fun param arg => ∃ ty, a.varTy param = .ok ty ∧
      (ty.isReference = false → arg.Yields ty)) f.params args := by
  obtain ⟨f, hf, -, -, hargs⟩ := typed_of_mem_exprs hholds h
  refine ⟨f, hf, ?_⟩
  have hdirect : ∀ arg ∈ args, arg.Direct := fun arg harg => direct_of_mem_exprs hplain h harg
  have hboth := ((List.forall₂_and_left _ _).mpr ⟨hdirect, hargs.flip⟩).flip
  refine hboth.imp ?_
  rintro param arg ⟨hdirect, ty, hty, hfits⟩
  exact ⟨ty, hty, fun href => hfits.yields href hdirect⟩

theorem Arena.yields_operands {holder : DeclId} {t : Typing} {op : BinaryOp} {lhs rhs : Expr}
    (h : .binary t op lhs rhs ∈ a.exprs holder) (hassign : op ≠ .assign)
    (hlogical : op.isLogical = false) :
    ∃ common, common.isBuiltin = true ∧ common.isVoid = false ∧ lhs.Yields common ∧
      rhs.Yields common ∧ t.ty = if op.isComparison then .ofBuiltin .bool else common := by
  have htyped : lhs.isRvalue = true ∧ rhs.isRvalue = true ∧
      ∃ common, common.isBuiltin = true ∧ common.isVoid = false ∧
        lhs.ty.deref = common ∧ rhs.ty.deref = common ∧
        t.ty = if op.isComparison then .ofBuiltin .bool else common := by
    have hbinary := (typed_of_mem_exprs hholds h).2
    cases op <;> first | exact hbinary | contradiction
  obtain ⟨hleft, hright, common, hbuiltin, hvoid, hl, hr, hty⟩ := htyped
  have hconverted : (Expr.binary t op lhs rhs).converted = [lhs, rhs] := by
    simp [Expr.converted, hassign, hlogical]
  have hdirect : ∀ y ∈ [lhs, rhs], y.Direct := by
    intro y hy
    exact direct_of_mem_exprs hplain h (hconverted ▸ hy)
  refine ⟨common, hbuiltin, hvoid, ?_, ?_, hty⟩
  · exact (hdirect lhs (by simp)).yields hleft (by rw [hl, Ty.same_refl])
  · exact (hdirect rhs (by simp)).yields hright (by rw [hr, Ty.same_refl])

theorem Arena.delivered : a.Delivered where
  args h := yields_args hholds hplain h
  operands h hassign hlogical := yields_operands hholds hplain h hassign hlogical
  inits {id ty init} hkind hbuiltin := by
    have href : ty.isReference = false := by
      cases ty with
      | reference => cases hbuiltin
      | _ => rfl
    have hroot := hplain hkind init (by simp [DeclKind.roots])
    exact (hholds hkind).2.yields href hroot.direct
  returns {id f body value} hkind hbody hvalue href := by
    have hroot := hplain hkind value (by
      simp only [DeclKind.roots, hbody, Option.getD_some]
      exact Stmt.mem_rootsAll_of_mem_returnsAll hvalue)
    exact ((hholds hkind body hbody).2 _ hvalue).2.yields href hroot.direct

end Delivered

/--
The conversion of any expression that can be written delivers its target, and
an accepted unit has everywhere the values that it wants.
-/
theorem conversions_deliver :
    (∀ {tree : ExprTree} {s : Store} {p : Place} {e e' : Expr} {target : Ty},
      tree.analyze s p = .ok e → target.isReference = false →
      e.convert target = .ok e' ∨ e.initFor target = .ok e' →
      e'.Yields target ∧ (e' = e ∨ e'.ty.same target = true)) ∧
    ∀ {tokens : List Token} {a : Arena}, analyze tokens = .ok a → a.Delivered := by
  constructor
  · intro tree s p e e' target htree htarget h
    have hdirect := (ExprTree.exprAt_of_analyze htree).plain.direct
    obtain ⟨kind, hcast, rfl⟩ :=
      h.elim Expr.exists_cast_of_convert (Expr.exists_cast_of_initFor htarget)
    refine ⟨Expr.yields_of_cast hdirect htarget hcast, ?_⟩
    rcases Expr.same_or_eq_of_cast htarget hcast with hsame | ⟨heq, -⟩
    · exact .inr hsame
    · exact .inl heq
  · intro tokens a h
    obtain ⟨ids, s, hrun, rfl⟩ := exists_run_of_analyze h
    have hall := Arena.declInvariant_holds.of_unitRun hrun
    exact Arena.delivered (fun _ _ hkind => (hall hkind).2) (declInvariant_plain.of_unitRun hrun)

/--
A literal that widens, and the unit
`func f() -> vi32&; func g(vi32 v) -> vi32 { return f() + v; } let vi32 x = g(f());`
in which a call stands for what it refers to as an operand and as an argument.
-/
theorem conversions_deliver_reference_calls :
    (∃ e e', (ExprTree.int 7).analyze Store.empty .top = .ok e ∧
      e.convert (.ofBuiltin .vi32) = .ok e' ∧ e'.Yields (.ofBuiltin .vi32)) ∧
    ∃ a, analyze
      [.keyword .funcKw, .name "f", .mark .lparen, .mark .rparen, .mark .arrow, .builtin .vi32,
        .mark .amp, .mark .semi, .keyword .funcKw, .name "g", .mark .lparen, .builtin .vi32,
        .name "v", .mark .rparen, .mark .arrow, .builtin .vi32, .mark .lbrace, .keyword .returnKw,
        .name "f", .mark .lparen, .mark .rparen, .operator .add, .name "v", .mark .semi,
        .mark .rbrace, .keyword .letKw, .builtin .vi32, .name "x", .operator .assign, .name "g",
        .mark .lparen, .name "f", .mark .lparen, .mark .rparen, .mark .rparen, .mark .semi] =
        .ok a ∧ a.Delivered := by
  have hseven : (ExprTree.int 7).analyze Store.empty .top = .ok (.ofInt 7) := rfl
  refine ⟨⟨_, _, hseven, rfl, (conversions_deliver.1 hseven rfl (.inl rfl)).1⟩, ?_⟩
  exact exists_ok_and (by decide +kernel) fun _ => conversions_deliver.2

/-- A builtin variable whose initializer has another type than the variable. -/
def Arena.hasOtherInit (a : Arena) (id : DeclId) : Bool :=
  match a.kind? id with
  | some (.var ty (some init)) => ty.isBuiltin && !init.ty.same ty
  | _ => false

theorem Arena.exists_of_hasOtherInit {a : Arena} {id : DeclId} (h : a.hasOtherInit id = true) :
    ∃ ty init, a.kind? id = some (.var ty (some init)) ∧ ty.isBuiltin = true ∧
      init.ty.same ty = false := by
  unfold hasOtherInit at h
  split at h
  · simp only [Bool.and_eq_true, Bool.not_eq_true'] at h
    exact ⟨_, _, by assumption, h.1, h.2⟩
  · cases h

/-- In `func f() -> vi32&; let vi32 x = f();` the initializer of `x` is a reference. -/
theorem reference_call_not_same : ∃ a, analyze
    [.keyword .funcKw, .name "f", .mark .lparen, .mark .rparen, .mark .arrow, .builtin .vi32,
      .mark .amp, .mark .semi, .keyword .letKw, .builtin .vi32, .name "x", .operator .assign,
      .name "f", .mark .lparen, .mark .rparen, .mark .semi] = .ok a ∧
    ∃ ty init, a.kind? 2 = some (.var ty (some init)) ∧ ty.isBuiltin = true ∧
      init.ty.same ty = false := by
  apply exists_ok_of_any (f := fun a => a.hasOtherInit 2)
  · decide +kernel
  · exact fun _ => Arena.exists_of_hasOtherInit

end UnitAnalysis
