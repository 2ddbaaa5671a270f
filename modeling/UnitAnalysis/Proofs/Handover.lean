import UnitAnalysis.Proofs.ConversionOrder

/-!
# Values that change hands

A value changes hands when it initializes a variable, is passed to a parameter,
or is returned.  Each of the three has its own way to decide: an initializer
first asks whether its source is a builtin, an argument is tried before it is
converted, and a returned value is converted at once.  For a type that a variable,
a parameter and a function can all have, they decide alike and hand over the same
expression.  Main statement: `Store.handover_agrees`.
-/

namespace UnitAnalysis

open Check UnitAnalysis.Action

/-- The types whose variables may be initialized: builtins except `void`, and references. -/
def Ty.IsHandedOver (ty : Ty) : Prop :=
  ty.isReference = true ∨ ty.isBuiltin = true ∧ ty.isVoid = false

/-! ## Single expressions -/

namespace Expr

variable {e : Expr} {ty : Ty}

/-- What is tried for an argument is what passing it needs. -/
theorem canPass_iff_exists_pass : e.canPass ty = true ↔ ∃ passed, e.pass ty = .ok passed := by
  rw [canPass_iff]
  constructor
  · intro h
    obtain ⟨passed, hpassed, -⟩ := h.exists_passed
    exact ⟨passed, hpassed⟩
  · rintro ⟨passed, hpassed⟩
    cases ty with
    | reference quals referent =>
        simp only [pass, bindTo, requireBind, bind_eq_ok, mapError_eq_ok] at hpassed
        obtain ⟨_, hbind, -⟩ := hpassed
        exact hbind
    | builtin | pointer | tag =>
        simp only [pass, convert, Ty.requireCast, bind_eq_ok, mapError_eq_ok] at hpassed
        obtain ⟨kind, hcast, -⟩ := hpassed
        exact ⟨kind, hcast⟩

theorem Passed.eq_of_pass {passed x : Expr} (h : e.Passed passed ty) (hpass : e.pass ty = .ok x) :
    passed = x := by
  cases ty with
  | reference quals referent =>
      simp only [pass, bindTo, bind_eq_ok, pure_eq_ok] at hpass
      obtain ⟨_, -, rfl⟩ := hpass
      exact h
  | builtin | pointer | tag => exact Except.ok.inj (h.symm.trans hpass)

/-- The failures of initialization and of passing for one type. -/
inductive Refused (e : Expr) : Ty → Error → Error → Prop where
  | reference {quals : Qualifiers} {referent : Ty} {err : Error}
      (hbind : e.requireBind referent = .error err) : Refused e (.reference quals referent) err err
  | builtin {quals : Qualifiers} {kind : Builtin} {err : Error} {reason : CastFailure}
      (hcast : e.ty.castRule (.builtin quals kind) = .error reason)
      (herr : err = .cannotInit (Ty.builtin quals kind).text e.ty.text ∨
        err = e.noInit (.builtin quals kind)) :
      Refused e (.builtin quals kind) err
        (.invalidCast e.ty.text (Ty.builtin quals kind).text reason)

/-- A source that is no builtin would not convert to one either. -/
theorem castRule_eq_error_of_not_isBuiltin {quals : Qualifiers} {kind : Builtin}
    (h : e.ty.deref.isBuiltin = false) :
    ∃ reason, e.ty.castRule (.builtin quals kind) = .error reason := by
  cases hcast : e.ty.castRule (.builtin quals kind) with
  | error reason => exact ⟨reason, rfl⟩
  | ok cast =>
      have hcan : e.ty.canCast (.builtin quals kind) = true := isOk_iff.mpr ⟨cast, hcast⟩
      obtain ⟨r, l, hderef, -, -⟩ := Ty.canCast_builtin_iff.mp hcan
      rw [hderef] at h
      cases h

theorem pass_builtin_of_castRule {quals : Qualifiers} {kind : Builtin} {reason : CastFailure}
    (h : e.ty.castRule (.builtin quals kind) = .error reason) :
    e.pass (.builtin quals kind) =
      .error (.invalidCast e.ty.text (Ty.builtin quals kind).text reason) := by
  simp only [pass, convert, Ty.requireCast, h]
  rfl

/-- An expression initializes as itself or as a conversion exactly if it passes as that. -/
theorem initFor_pass_agree (e : Expr) (hty : ty.IsHandedOver) :
    (∃ x, e.initFor ty = .ok x ∧ e.pass ty = .ok x) ∨
      ∃ err err', e.initFor ty = .error err ∧ e.pass ty = .error err' ∧ e.Refused ty err err' := by
  cases ty with
  | pointer => rcases hty with h | ⟨h, -⟩ <;> cases h
  | tag => rcases hty with h | ⟨h, -⟩ <;> cases h
  | reference quals referent =>
      cases hbind : e.requireBind referent with
      | ok =>
          have hbound : e.bindTo referent = .ok e := by
            rw [bindTo, hbind]
            rfl
          exact .inl ⟨e, hbound, hbound⟩
      | error err =>
          have hfails : e.bindTo referent = .error err := by
            rw [bindTo, hbind]
            rfl
          exact .inr ⟨err, err, hfails, hfails, .reference hbind⟩
  | builtin quals kind =>
      cases hsource : e.ty.deref.isBuiltin with
      | false =>
          obtain ⟨reason, hcast⟩ := castRule_eq_error_of_not_isBuiltin hsource
          right
          refine ⟨_, _, ?_, pass_builtin_of_castRule hcast, .builtin hcast (.inr rfl)⟩
          simp [initFor, hsource]
      | true =>
          cases hcast : e.ty.castRule (.builtin quals kind) with
          | ok cast =>
              left
              refine ⟨_, ?_, convert_of_castRule hcast⟩
              simp [initFor, hsource, hcast]
          | error reason =>
              right
              refine ⟨_, _, ?_, pass_builtin_of_castRule hcast, .builtin hcast (.inl rfl)⟩
              simp [initFor, hsource, hcast]

end Expr

/-! ## Variables, calls and functions -/

namespace Store

variable {s s' : Store} {e x : Expr} {ty : Ty}

theorem gives_storeInit_iff {id : DeclId} (hid : s.arena.varTy id = .ok ty) :
    Gives (storeInit id e) s () s' ↔
      ∃ x, e.initFor ty = .ok x ∧ s' = { s with arena := s.arena.modifyKind id (.setInit x) } := by
  simp only [storeInit, gives_bind, gives_get, gives_check, gives_modify]
  constructor
  · rintro ⟨_, _, ⟨rfl, rfl⟩, _, _, ⟨hty, rfl⟩, x, _, ⟨hinit, rfl⟩, rfl⟩
    cases hid.symm.trans hty
    exact ⟨x, hinit, rfl⟩
  · rintro ⟨x, hinit, rfl⟩
    exact ⟨_, _, ⟨rfl, rfl⟩, _, _, ⟨hid, rfl⟩, x, _, ⟨hinit, rfl⟩, rfl⟩

theorem fails_storeInit_iff {id : DeclId} {err : Error} (hid : s.arena.varTy id = .ok ty) :
    Fails (storeInit id e) s err s' ↔ e.initFor ty = .error err ∧ s = s' := by
  simp only [storeInit, fails_bind, gives_get, gives_check, fails_check, not_fails_get,
    not_fails_modify]
  constructor
  · rintro (h | ⟨_, _, ⟨rfl, rfl⟩, ⟨hty, rfl⟩ | ⟨_, _, ⟨hty, rfl⟩, h | ⟨_, _, _, h⟩⟩⟩)
    · exact h.elim
    · cases hid.symm.trans hty
    · cases hid.symm.trans hty
      exact h
    · exact h.elim
  · intro h
    exact .inr ⟨_, _, ⟨rfl, rfl⟩, .inr ⟨_, _, ⟨hid, rfl⟩, .inl h⟩⟩

theorem kind?_setInit {id : DeclId} (hid : s.arena.varTy id = .ok ty) (x : Expr) :
    (s.arena.modifyKind id (.setInit x)).kind? id = some (.var ty (some x)) := by
  obtain ⟨d, init, hd, hkind⟩ := Arena.varTy_eq_ok_iff.mp hid
  simp [Arena.kind?, Arena.decl?_modifyKind, hd, hkind, DeclKind.setInit]

section Call

variable {p : Place} {path : Path} {callee param : DeclId} {f : Func} {err : Error}
variable {before after : List DeclId} {args args' : List Expr}

theorem paramAccepts_eq (hparam : s.arena.varTy param = .ok ty) :
    s.paramAccepts param e = e.canPass ty := by
  rw [paramAccepts, hparam]

theorem passArg_eq (hparam : s.arena.varTy param = .ok ty) :
    s.passArg param e = e.pass ty := by
  rw [passArg, hparam]
  rfl

/-- If the other arguments are accepted, one argument decides. -/
theorem isViable_append (hf : s.arena.func callee = .ok f)
    (hparams : f.params = before ++ param :: after) (hbefore : s.Accepts before args)
    (hafter : s.Accepts after args') (hparam : s.arena.varTy param = .ok ty) :
    s.isViable (args ++ e :: args') callee = true ↔ e.Accepted ty := by
  rw [isViable_iff]
  constructor
  · rintro ⟨g, hg, haccepted⟩
    obtain rfl := Except.ok.inj (hf.symm.trans hg)
    rw [hparams] at haccepted
    have hrest := List.forall₂_drop_append _ _ _ haccepted
    rw [← hbefore.length_eq, List.drop_left] at hrest
    obtain ⟨⟨_, hty, he⟩, -⟩ := List.forall₂_cons.mp hrest
    obtain rfl := Except.ok.inj (hparam.symm.trans hty)
    exact he
  · intro he
    refine ⟨f, hf, ?_⟩
    rw [hparams]
    exact List.rel_append hbefore (.cons ⟨ty, hparam, he⟩ hafter)

/-- The only candidate is called, with the argument passed in its place. -/
theorem callExpr_append_of_pass (hcandidates : s.candidates p path = .ok [callee])
    (hf : s.arena.func callee = .ok f) (hparams : f.params = before ++ param :: after)
    (hbefore : s.Accepts before args) (hafter : s.Accepts after args')
    (hparam : s.arena.varTy param = .ok ty) (hpass : e.pass ty = .ok x) :
    ∃ passed, passed.length = f.params.length ∧ passed[args.length]? = some x ∧
      s.callExpr p path (args ++ e :: args') =
        .ok (.call ⟨f.returnTy, .rvalue⟩ callee passed) := by
  have hviable : s.isViable (args ++ e :: args') callee = true :=
    (isViable_append hf hparams hbefore hafter hparam).mpr
      (Expr.canPass_iff.mp (Expr.canPass_iff_exists_pass.mpr ⟨x, hpass⟩))
  have hfind : [callee].find? (s.isViable (args ++ e :: args')) = some callee := by
    simp [hviable]
  obtain ⟨g, passed, hg, ⟨hcount, hpassed⟩, hcall⟩ := callExpr_of_find? hcandidates hfind
  obtain rfl := Except.ok.inj (hf.symm.trans hg)
  refine ⟨passed, hcount, ?_, hcall⟩
  have hlength := hbefore.length_eq
  have hplace : args.length < passed.length := by
    simp [hcount, hparams, hlength]
  rw [hparams, List.zip_append hlength, List.zip_cons_cons] at hpassed
  obtain ⟨_, hty, hvalue⟩ := hpassed.get (hpassed.length_eq ▸ hplace) hplace
  simp only [List.get_eq_getElem, hlength, List.length_zip, Nat.min_self, Nat.le_refl,
    List.getElem_append_right, Nat.sub_self, List.getElem_cons_zero] at hty hvalue
  obtain rfl := Except.ok.inj (hparam.symm.trans hty)
  rw [List.getElem?_eq_getElem hplace, hvalue.eq_of_pass hpass]

theorem callExpr_append_of_not_pass (hcandidates : s.candidates p path = .ok [callee])
    (hf : s.arena.func callee = .ok f) (hparams : f.params = before ++ param :: after)
    (hbefore : s.Accepts before args) (hafter : s.Accepts after args')
    (hparam : s.arena.varTy param = .ok ty) (hpass : e.pass ty = .error err) :
    s.callExpr p path (args ++ e :: args') = .error (.noViableCall path.text 1) := by
  have hviable : s.isViable (args ++ e :: args') callee = false := by
    rw [Bool.eq_false_iff, ne_eq, isViable_append hf hparams hbefore hafter hparam,
      ← Expr.canPass_iff, Expr.canPass_iff_exists_pass]
    rintro ⟨x, hx⟩
    cases hpass.symm.trans hx
  refine callExpr_of_find?_eq_none hcandidates (List.cons_ne_nil _ _) ?_
  simp [hviable]

/-- The only candidate is called if its one parameter takes the argument. -/
theorem callExpr_singleton_of_pass (hcandidates : s.candidates p path = .ok [callee])
    (hf : s.arena.func callee = .ok f) (hparams : f.params = [param])
    (hparam : s.arena.varTy param = .ok ty) (hpass : e.pass ty = .ok x) :
    s.callExpr p path [e] = .ok (.call ⟨f.returnTy, .rvalue⟩ callee [x]) := by
  obtain ⟨passed, hcount, hplace, hcall⟩ :=
    callExpr_append_of_pass hcandidates hf hparams .nil .nil hparam hpass
  rw [hparams] at hcount
  obtain ⟨y, rfl⟩ := List.length_eq_one_iff.mp hcount
  obtain rfl := Option.some.inj hplace
  exact hcall

theorem callExpr_singleton_of_not_pass (hcandidates : s.candidates p path = .ok [callee])
    (hf : s.arena.func callee = .ok f) (hparams : f.params = [param])
    (hparam : s.arena.varTy param = .ok ty) (hpass : e.pass ty = .error err) :
    s.callExpr p path [e] = .error (.noViableCall path.text 1) :=
  callExpr_append_of_not_pass hcandidates hf hparams .nil .nil hparam hpass

end Call

theorem returnStmt_eq_map_pass {p : Place} {function : DeclId} {f : Func}
    (hp : p.function = some function) (hf : s.arena.func function = .ok f)
    (hvoid : f.returnTy.isVoid = false) :
    s.returnStmt p (some e) = (e.pass f.returnTy).map fun x => .ret (some x) := by
  simp only [returnStmt, hp, hf, ok_bind, hvoid]
  cases e.pass f.returnTy <;> rfl

theorem returnStmt_of_pass_error {p : Place} {function : DeclId} {f : Func} {err : Error}
    (hp : p.function = some function) (hf : s.arena.func function = .ok f)
    (h : e.pass f.returnTy = .error err) : ∃ err', s.returnStmt p (some e) = .error err' := by
  simp only [returnStmt, hp, hf, ok_bind]
  split
  · exact ⟨.unexpectedReturnValue (s.arena.displayName function), rfl⟩
  · exact ⟨err, by rw [h]; rfl⟩

end Store

theorem Ty.IsHandedOver.not_isVoid {ty : Ty} (h : ty.IsHandedOver) : ty.isVoid = false := by
  cases ty with
  | builtin quals kind =>
      rcases h with h | ⟨-, h⟩
      · cases h
      · exact h
  | _ => rfl

/-! ## Agreement -/

/--
A variable, the one parameter of the only function that a path may call, and the
result of a function are of one type.  Initializing, calling and returning then
succeed for the same expressions, and store, pass and return the same expression.
They fail in words of their own, except that a reference that does not bind is the
same error for a variable and for a result.
-/
theorem Store.handover_agrees {ty : Ty} (hty : ty.IsHandedOver) {s s₁ s₂ : Store} {id : DeclId}
    (hid : s.arena.varTy id = .ok ty) {p : Place} {path : Path} {callee param : DeclId}
    {f g : Func} (hcandidates : s₁.candidates p path = .ok [callee])
    (hf : s₁.arena.func callee = .ok f) (hparams : f.params = [param])
    (hparam : s₁.arena.varTy param = .ok ty) {q : Place} {function : DeclId}
    (hq : q.function = some function) (hg : s₂.arena.func function = .ok g)
    (hreturn : g.returnTy = ty) (e : Expr) :
    ((∃ s', Gives (storeInit id e) s () s') ↔ ∃ call, s₁.callExpr p path [e] = .ok call) ∧
    ((∃ call, s₁.callExpr p path [e] = .ok call) ↔
      ∃ stmt, s₂.returnStmt q (some e) = .ok stmt) ∧
    (∀ s' call stmt, Gives (storeInit id e) s () s' → s₁.callExpr p path [e] = .ok call →
      s₂.returnStmt q (some e) = .ok stmt →
      ∃ x, s'.arena.kind? id = some (.var ty (some x)) ∧
        call = .call ⟨f.returnTy, .rvalue⟩ callee [x] ∧ stmt = .ret (some x)) ∧
    ∀ s' err err', Fails (storeInit id e) s err s' → s₂.returnStmt q (some e) = .error err' →
      s₁.callExpr p path [e] = .error (.noViableCall path.text 1) ∧ e.Refused ty err err' := by
  have hstmt : s₂.returnStmt q (some e) = (e.pass ty).map fun x => .ret (some x) := by
    rw [returnStmt_eq_map_pass hq hg (hreturn ▸ hty.not_isVoid), hreturn]
  rw [hstmt]
  rcases e.initFor_pass_agree hty with ⟨x, hinit, hpass⟩ | ⟨err, err', hinit, hpass, hrefused⟩
  · have hcall := callExpr_singleton_of_pass hcandidates hf hparams hparam hpass
    have hgives := (gives_storeInit_iff hid).mpr ⟨x, hinit, rfl⟩
    rw [hcall, hpass]
    refine ⟨iff_of_true ⟨_, hgives⟩ ⟨_, rfl⟩, iff_of_true ⟨_, rfl⟩ ⟨_, rfl⟩, ?_, ?_⟩
    · intro s' call stmt hstored hcall hstmt
      obtain ⟨y, hy, rfl⟩ := (gives_storeInit_iff hid).mp hstored
      cases hinit.symm.trans hy
      cases hcall
      cases hstmt
      exact ⟨x, kind?_setInit hid x, rfl, rfl⟩
    · intro s' err err' _ hreturned
      cases hreturned
  · have hcall := callExpr_singleton_of_not_pass hcandidates hf hparams hparam hpass
    rw [hcall, hpass]
    have hinit_fails : ¬ ∃ s', Gives (storeInit id e) s () s' := by
      rintro ⟨s', hstored⟩
      obtain ⟨y, hy, -⟩ := (gives_storeInit_iff hid).mp hstored
      cases hinit.symm.trans hy
    refine ⟨iff_of_false hinit_fails ?_, iff_of_false ?_ ?_, ?_, ?_⟩
    · rintro ⟨call, hcall⟩
      cases hcall
    · rintro ⟨call, hcall⟩
      cases hcall
    · rintro ⟨stmt, hstmt⟩
      cases hstmt
    · intro s' call stmt _ hcall
      cases hcall
    · intro s' e₁ e₂ hfails hreturned
      obtain ⟨hinit', -⟩ := (fails_storeInit_iff hid).mp hfails
      cases hinit.symm.trans hinit'
      cases hreturned
      exact ⟨rfl, hrefused⟩

/--
The store of `let const vi32 x; func f(const vi32 a); func g() -> const vi32`, with
the literal `5`: in all three it is widened from `vi8` to `const vi32`.
-/
theorem Store.handover_agrees_widened_literal : ∃ s : Store, ∃ q : Place,
    s.arena.varTy 1 = .ok (.builtin ⟨true, false⟩ .vi32) ∧
    s.candidates .top ⟨"f", []⟩ = .ok [2] ∧ q.function = some 4 ∧
    ∃ x s', x = .cast ⟨.builtin ⟨true, false⟩ .vi32, .rvalue⟩ .integralWiden (.ofInt 5) ∧
      Gives (storeInit 1 (.ofInt 5)) s () s' ∧
      s'.arena.kind? 1 = some (.var (.builtin ⟨true, false⟩ .vi32) (some x)) ∧
      s.callExpr .top ⟨"f", []⟩ [.ofInt 5] = .ok (.call ⟨.ofBuiltin .void, .rvalue⟩ 2 [x]) ∧
      s.returnStmt q (some (.ofInt 5)) = .ok (.ret (some x)) := by
  let ty : Ty := .builtin ⟨true, false⟩ .vi32
  let f : Func := ⟨[3], .ofBuiltin .void, none, none⟩
  let g : Func := .prototype ty
  let s : Store :=
    ⟨⟨#[⟨none, none, .unit [1, 2, 4]⟩, ⟨some "x", some 0, .var ty none⟩,
      ⟨some "f", some 0, .func f⟩, ⟨some "a", some 0, .var ty none⟩, ⟨some "g", some 0, .func g⟩],
      ["g", "a", "f", "x"]⟩, ⟨#[⟨none, 0, [1, 2, 4]⟩]⟩⟩
  let q : Place := { Place.top with function := some 4 }
  have hx : s.arena.varTy 1 = .ok ty := rfl
  have hcandidates : s.candidates .top ⟨"f", []⟩ = .ok [2] := by decide +kernel
  have hf : s.arena.func 2 = .ok f := rfl
  have ha : s.arena.varTy 3 = .ok ty := rfl
  have hq : q.function = some 4 := rfl
  have hg : s.arena.func 4 = .ok g := rfl
  obtain ⟨hcalled, hreturned, hsame, -⟩ :=
    handover_agrees (.inr ⟨rfl, rfl⟩) hx hcandidates hf rfl ha hq hg rfl (.ofInt 5)
  obtain ⟨s', hstored⟩ : ∃ s', Gives (storeInit 1 (.ofInt 5)) s () s' := ⟨_, rfl⟩
  obtain ⟨call, hcall⟩ := hcalled.mp ⟨s', hstored⟩
  obtain ⟨stmt, hstmt⟩ := hreturned.mp ⟨call, hcall⟩
  obtain ⟨x, hkind, rfl, rfl⟩ := hsame s' call stmt hstored hcall hstmt
  refine ⟨s, q, hx, hcandidates, hq, x, s', ?_, hstored, hkind, hcall, hstmt⟩
  cases hstmt
  rfl

end UnitAnalysis
