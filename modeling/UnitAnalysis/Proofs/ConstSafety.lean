import Mathlib.Logic.Relation
import UnitAnalysis.Proofs.Ownership
import UnitAnalysis.Proofs.Settled

/-!
# Constant storage stays constant

A reference to storage that is not constant can only be bound to a variable or a
field of exactly the type it refers to, be it by an initializer or by a call.
Following references from the target of an assignment therefore never leads to
constant storage.  Main statement: `constSafe_of_analyze`.
-/

namespace UnitAnalysis

/-! ## Bindings -/

/-- The declared type of a variable or field. -/
def Arena.storageTy? (a : Arena) (id : DeclId) : Option Ty :=
  match a.kind? id with
  | some (.var ty _) | some (.field ty) => some ty
  | _ => none

/--
What a variable or parameter stands for: its initializer, or an argument at its
position in a call of its function.  Calls name a function by its first
declaration, whose parameters are other declarations of their own.
-/
inductive Arena.Binds (a : Arena) (r : DeclId) : Expr → Prop where
  | init {ty : Ty} {e : Expr} (hkind : a.kind? r = some (.var ty (some e))) : Arena.Binds a r e
  | arg {function first holder : DeclId} {f : Func} {t : Typing} {args : List Expr} {i : Nat}
      {e : Expr} (hfunc : a.func function = .ok f) (hparam : f.params[i]? = some r)
      (hfirst : a.firstDeclaration function = .ok first)
      (hcall : Expr.call t first args ∈ a.exprs holder) (harg : args[i]? = some e) :
      Arena.Binds a r e

/-- A reference to storage that is not constant, and what it is bound to. -/
structure Arena.BoundTo (a : Arena) (r : DeclId) (referent : Ty) (e : Expr) : Prop where
  varTy : ∃ quals, a.varTy r = .ok (.reference quals referent)
  not_isConst : referent.isConst = false
  binds : a.Binds r e

/-- One step along a chain of references. -/
def Arena.Aliases (a : Arena) (r x : DeclId) : Prop :=
  ∃ referent t, a.BoundTo r referent (.ref t x)

structure Arena.ConstSafe (a : Arena) : Prop where
  bound : ∀ {r referent e}, a.BoundTo r referent e →
    ∃ ty x, e = .ref ⟨ty, .lvalue⟩ x ∧ a.storageTy? x = some ty ∧ ty.deref.same referent = true
  assigned : ∀ {holder t lhs rhs}, Expr.binary t .assign lhs rhs ∈ a.exprs holder →
    ∃ t₀ x₀, lhs = .ref t₀ x₀ ∧ ∀ x, Relation.ReflTransGen a.Aliases x₀ x →
      ∃ ty, a.storageTy? x = some ty ∧ ty.deref.isConst = false

/-! ## Expressions of a unit -/

theorem Expr.mem_parts_self (e : Expr) : e ∈ e.parts := by
  cases e <;> simp [Expr.parts]

mutual

theorem Expr.parts_trans {x y : Expr} (hy : y ∈ x.parts) {e : Expr} (hx : x ∈ e.parts) :
    y ∈ e.parts := by
  match e with
  | .int _ _ | .float _ _ | .bool _ _ | .ref _ _ =>
      rw [Expr.parts, List.mem_singleton] at hx
      exact hx ▸ hy
  | .binary _ _ lhs rhs =>
      simp only [Expr.parts, List.mem_cons, List.mem_append] at hx
      rcases hx with rfl | hx | hx
      · exact hy
      · simp [Expr.parts, Expr.parts_trans hy hx]
      · simp [Expr.parts, Expr.parts_trans hy hx]
  | .cast _ _ operand | .load _ operand =>
      simp only [Expr.parts, List.mem_cons] at hx
      rcases hx with rfl | hx
      · exact hy
      · simp [Expr.parts, Expr.parts_trans hy hx]
  | .call _ _ args =>
      simp only [Expr.parts, List.mem_cons] at hx
      rcases hx with rfl | hx
      · exact hy
      · simp [Expr.parts, Expr.partsAll_trans hy hx]

theorem Expr.partsAll_trans {x y : Expr} (hy : y ∈ x.parts) {es : List Expr}
    (hx : x ∈ Expr.partsAll es) : y ∈ Expr.partsAll es := by
  match es with
  | e :: es =>
      rcases List.mem_append.mp hx with hx | hx
      · exact List.mem_append_left _ (Expr.parts_trans hy hx)
      · exact List.mem_append_right _ (Expr.partsAll_trans hy hx)

end

namespace Arena

variable {a : Arena} {e x : Expr} {holder : DeclId}

theorem mem_exprs_of_mem_parts (he : e ∈ a.exprs holder) (hx : x ∈ e.parts) :
    x ∈ a.exprs holder := by
  obtain ⟨root, hroot, he⟩ := List.mem_flatMap.mp he
  exact List.mem_flatMap.mpr ⟨root, hroot, Expr.parts_trans hx he⟩

theorem mem_exprs_arg {t : Typing} {callee : DeclId} {args : List Expr}
    (h : Expr.call t callee args ∈ a.exprs holder) {arg : Expr} (harg : arg ∈ args) :
    arg ∈ a.exprs holder := by
  refine mem_exprs_of_mem_parts h ?_
  rw [Expr.parts, List.mem_cons]
  exact .inr (Expr.mem_partsAll.mpr ⟨arg, harg, arg.mem_parts_self⟩)

theorem typed_of_mem_exprs (h : a.All fun a _ kind => a.Holds kind)
    (he : e ∈ a.exprs holder) : e.Typed a := by
  obtain ⟨root, hroot, he⟩ := List.mem_flatMap.mp he
  cases hkind : a.kind? holder with
  | none => simp [hkind] at hroot
  | some kind =>
      simp only [hkind, Option.map_some, Option.getD_some] at hroot
      have hholds := h hkind
      match kind with
      | .var ty (some init) =>
          obtain rfl := List.mem_singleton.mp hroot
          exact hholds.1 e he
      | .func f =>
          cases hbody : f.body with
          | none => simp [DeclKind.roots, hbody, Stmt.rootsAll] at hroot
          | some body =>
              simp only [DeclKind.roots, hbody, Option.getD_some] at hroot
              exact (hholds body hbody).1 root hroot e he
      | .var _ none | .unit _ | .field _ | .tag _ _ | .enumerator _ => contradiction

end Arena

/-- Only references to variables and fields are storage. -/
theorem Expr.Typed.ref_of_isLvalue {a : Arena} {e : Expr} (h : e.Typed a)
    (hlvalue : e.isLvalue = true) :
    ∃ ty x, e = .ref ⟨ty, .lvalue⟩ x ∧ a.storageTy? x = some ty := by
  have hcategory : e.typing.category = .lvalue := by simpa [Expr.isLvalue] using hlvalue
  cases e with
  | ref t x =>
      simp only [Expr.Typed, Arena.Denotes] at h
      split at h
      · subst h
        exact ⟨_, x, rfl, by simp_all [Arena.storageTy?]⟩
      · subst h
        exact ⟨_, x, rfl, by simp_all [Arena.storageTy?]⟩
      · obtain ⟨owner, -, -, rfl⟩ := h
        cases hcategory
      · contradiction
  | int t | cast t => simp_all [Expr.Typed, Expr.typing]
  | binary t op lhs rhs => exact absurd (h.1.symm.trans hcategory) (by simp)
  | float t | bool t =>
      cases h
      cases hcategory
  | load t =>
      obtain ⟨-, rfl⟩ := h
      cases hcategory
  | call t =>
      obtain ⟨f, -, -, rfl, -⟩ := h
      cases hcategory

theorem Expr.Fits.ref_of_not_isConst {a : Arena} {e : Expr} {quals : Qualifiers} {referent : Ty}
    (h : e.Fits (.reference quals referent)) (htyped : e.Typed a)
    (hconst : referent.isConst = false) :
    ∃ ty x, e = .ref ⟨ty, .lvalue⟩ x ∧ a.storageTy? x = some ty ∧
      ty.deref.same referent = true := by
  obtain ⟨hlvalue | hconst', hsame⟩ := h
  · obtain ⟨ty, x, rfl, hx⟩ := htyped.ref_of_isLvalue hlvalue
    exact ⟨ty, x, rfl, hx, by rw [Ty.same_comm]; exact hsame⟩
  · rw [hconst] at hconst'
    cases hconst'

/-! ## Declarations of one function -/

theorem exists_of_forall₂ {α β : Type} {R : α → β → Prop} {xs : List α} {ys : List β}
    (h : List.Forall₂ R xs ys) {i : Nat} {x : α} (hx : xs[i]? = some x) :
    ∃ y, ys[i]? = some y ∧ R x y := by
  induction h generalizing i with
  | nil => simp at hx
  | @cons _ y _ _ hfirst _ ih =>
      cases i with
      | zero =>
          cases hx
          exact ⟨y, rfl, hfirst⟩
      | succ i => exact ih hx

theorem Ty.forall₂_of_sameAll {ss ts : List Ty} (h : sameAll ss ts = true) :
    List.Forall₂ (fun s t => s.same t = true) ss ts := by
  induction ss generalizing ts with
  | nil => cases ts <;> simp_all [sameAll]
  | cons s ss ih =>
      cases ts with
      | nil => cases h
      | cons t ts =>
          simp only [sameAll, Bool.and_eq_true] at h
          exact .cons h.1 (ih h.2)

namespace Arena

variable {a : Arena}

theorem forall₂_paramTys {id : DeclId} {f : Func} {tys : List Ty} (hf : a.func id = .ok f)
    (htys : a.paramTys id = .ok tys) :
    List.Forall₂ (fun param ty => a.varTy param = .ok ty) f.params tys := by
  simp only [paramTys, hf, Check.bind_eq_ok, Except.ok.injEq] at htys
  obtain ⟨_, rfl, htys⟩ := htys
  exact Check.forall₂_of_mapM_eq_ok htys

/-- The parameters of two declarations of one function have the same types. -/
theorem repeats_param {x y r : DeclId} {f g : Func} (h : a.repeats x y = true)
    (hf : a.func x = .ok f) (hg : a.func y = .ok g) {i : Nat} (hr : g.params[i]? = some r)
    {ty : Ty} (hty : a.varTy r = .ok ty) :
    ∃ param ty', f.params[i]? = some param ∧ a.varTy param = .ok ty' ∧ ty'.same ty = true := by
  obtain ⟨-, xs, ys, hxs, hys, hsame⟩ := repeats_iff.mp h
  rw [Ty.sameAll_comm] at hsame
  obtain ⟨t, ht, hrt⟩ := exists_of_forall₂ (forall₂_paramTys hg hys) hr
  obtain rfl := Except.ok.inj (hty.symm.trans hrt)
  obtain ⟨ty', hty', hsame'⟩ := exists_of_forall₂ (Ty.forall₂_of_sameAll hsame) ht
  obtain ⟨param, hparam, hpt⟩ := exists_of_forall₂ (forall₂_paramTys hf hxs).flip hty'
  exact ⟨param, ty', hparam, hpt, by rw [Ty.same_comm]; exact hsame'⟩

end Arena

theorem Store.Settled.repeats_first {s : Store} {p : Place} (hs : s.Settled p) {id first : DeclId}
    {f : Func} (hf : s.arena.func id = .ok f) (hfirst : s.arena.firstDeclaration id = .ok first) :
    s.arena.repeats first id = true := by
  obtain ⟨context, members, hmembers, hid⟩ := hs.funcs hf
  obtain ⟨first', g, hhead, hfirst', -⟩ := (hs.formed hmembers).first hs.bounded.arena hid hf
  obtain rfl := Except.ok.inj (hfirst'.symm.trans hfirst)
  exact (List.mem_filter.mp (List.mem_of_mem_head? hhead)).2

/-! ## Bindings of a unit -/

section Bindings

variable {s : Store} {p : Place} {r : DeclId} {referent : Ty} {e : Expr}

theorem Store.Settled.fits_of_binds (hs : s.Settled p)
    (hholds : s.arena.All fun a _ kind => a.Holds kind) {quals : Qualifiers}
    (hty : s.arena.varTy r = .ok (.reference quals referent)) (h : s.arena.Binds r e) :
    ∃ quals' referent', referent'.same referent = true ∧ e.Fits (.reference quals' referent') ∧
      e.Typed s.arena := by
  cases h with
  | @init ty _ hkind =>
      obtain ⟨d, _, hd, hvar⟩ := Arena.varTy_eq_ok_iff.mp hty
      obtain rfl : ty = .reference quals referent := by
        simp only [Arena.kind?, hd, Option.map_some, hvar, Option.some.injEq,
          DeclKind.var.injEq] at hkind
        exact hkind.1.symm
      obtain ⟨hwell, hfits⟩ := hholds hkind
      exact ⟨quals, referent, Ty.same_refl _, hfits, hwell e e.mem_parts_self⟩
  | @arg function first holder f t args i _ hfunc hparam hfirst hcall harg =>
      obtain ⟨g, hg, -, -, hargs⟩ := Arena.typed_of_mem_exprs hholds hcall
      obtain ⟨param, ty, hi, hparamTy, hsame⟩ :=
        Arena.repeats_param (hs.repeats_first hfunc hfirst) hg hfunc hparam hty
      obtain ⟨arg, harg', ty', hty', hfits⟩ := exists_of_forall₂ hargs hi
      obtain rfl := Option.some.inj (harg.symm.trans harg')
      obtain rfl := Except.ok.inj (hparamTy.symm.trans hty')
      cases ty with
      | reference quals' referent' =>
          simp only [Ty.same, Bool.and_eq_true] at hsame
          exact ⟨quals', referent', hsame.2, hfits, Arena.typed_of_mem_exprs hholds
            (Arena.mem_exprs_arg hcall (List.mem_of_getElem? harg))⟩
      | _ => cases hsame

theorem Ty.isConst_eq_of_same {t u : Ty} (h : t.same u = true) : t.isConst = u.isConst := by
  rw [isConst, isConst, quals_eq_of_same h]

theorem Store.Settled.ref_of_boundTo (hs : s.Settled p)
    (hholds : s.arena.All fun a _ kind => a.Holds kind) (h : s.arena.BoundTo r referent e) :
    ∃ ty x, e = .ref ⟨ty, .lvalue⟩ x ∧ s.arena.storageTy? x = some ty ∧
      ty.deref.same referent = true := by
  obtain ⟨quals, hty⟩ := h.varTy
  obtain ⟨quals', referent', hsame, hfits, htyped⟩ := hs.fits_of_binds hholds hty h.binds
  have hconst : referent'.isConst = false := by rw [Ty.isConst_eq_of_same hsame, h.not_isConst]
  obtain ⟨ty, x, he, hx, hderef⟩ := hfits.ref_of_not_isConst htyped hconst
  exact ⟨ty, x, he, hx, Ty.same_trans hderef hsame⟩

/-- A reference hands on that its storage is not constant, so a chain of them does. -/
theorem Store.Settled.not_isConst_of_aliases (hs : s.Settled p)
    (hholds : s.arena.All fun a _ kind => a.Holds kind) {x₀ x : DeclId}
    (h : Relation.ReflTransGen s.arena.Aliases x₀ x)
    (h₀ : ∃ ty, s.arena.storageTy? x₀ = some ty ∧ ty.deref.isConst = false) :
    ∃ ty, s.arena.storageTy? x = some ty ∧ ty.deref.isConst = false := by
  induction h with
  | refl => exact h₀
  | tail _ hstep _ =>
      obtain ⟨referent, t, hbound⟩ := hstep
      obtain ⟨ty, x, he, hx, hsame⟩ := hs.ref_of_boundTo hholds hbound
      cases he
      exact ⟨ty, hx, by rw [Ty.isConst_eq_of_same hsame, hbound.not_isConst]⟩

end Bindings

/-! ## Units -/

/-- No assignment of an accepted unit reaches constant storage, through whatever references. -/
theorem constSafe_of_analyze {tokens : List Token} {a : Arena} (h : analyze tokens = .ok a) :
    a.ConstSafe := by
  obtain ⟨ids, s, hrun, rfl⟩ := exists_run_of_analyze h
  have hs := UnitRun.settled hrun
  have hholds : s.arena.All fun a _ kind => a.Holds kind :=
    fun id kind hkind => (Arena.declInvariant_holds.of_unitRun hrun hkind).2
  refine ⟨hs.ref_of_boundTo hholds, ?_⟩
  intro holder t lhs rhs hassign
  obtain ⟨-, -, hlvalue, -, hconst, -⟩ := Arena.typed_of_mem_exprs hholds hassign
  have hlhs : lhs ∈ s.arena.exprs holder :=
    Arena.mem_exprs_of_mem_parts hassign (by simp [Expr.parts, lhs.mem_parts_self])
  obtain ⟨ty, x₀, rfl, hx₀⟩ :=
    (Arena.typed_of_mem_exprs hholds hlhs).ref_of_isLvalue hlvalue
  refine ⟨_, x₀, rfl, ?_⟩
  intro x hchain
  exact hs.not_isConst_of_aliases hholds hchain ⟨ty, hx₀, hconst⟩

/-- `let vi8 x; func f(vi8& r); func f(vi8& s) { let vi8& t = s; t = 1; } func g() { f(x); }` -/
theorem constSafe_aliasing_unit : ∃ a, analyze
    [.keyword .letKw, .builtin .vi8, .name "x", .mark .semi, .keyword .funcKw, .name "f",
      .mark .lparen, .builtin .vi8, .mark .amp, .name "r", .mark .rparen, .mark .semi,
      .keyword .funcKw, .name "f", .mark .lparen, .builtin .vi8, .mark .amp, .name "s",
      .mark .rparen, .mark .lbrace, .keyword .letKw, .builtin .vi8, .mark .amp, .name "t",
      .operator .assign, .name "s", .mark .semi, .name "t", .operator .assign, .int 1, .mark .semi,
      .mark .rbrace, .keyword .funcKw, .name "g", .mark .lparen, .mark .rparen, .mark .lbrace,
      .name "f", .mark .lparen, .name "x", .mark .rparen, .mark .semi, .mark .rbrace] = .ok a ∧
    a.ConstSafe :=
  Check.exists_ok_and (by decide +kernel) fun _ => constSafe_of_analyze

end UnitAnalysis
