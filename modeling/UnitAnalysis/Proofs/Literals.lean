import UnitAnalysis.Proofs.Handover

/-!
# Where an integer literal fits

A literal has the narrowest kind that holds its value, and integer kinds widen
up their ranks.  Together the two rules let a literal convert to exactly those
kinds that hold its value, whatever the qualifiers of the target.  What a variable
stores, a call passes, a function returns and an assignment assigns is the literal
or its conversion.  Main statement: `Store.literal_fits`.
-/

namespace UnitAnalysis

open Check UnitAnalysis.Action

/-! ## Kinds -/

namespace Builtin

variable {k l : Builtin} {v : Int64}

theorem Holds.category? (h : k.Holds v) : k.category? = some .integer := by
  obtain ⟨width, hwidth, -⟩ := h
  cases k <;> first | rfl | cases hwidth

theorem Holds.not_isVoid {q : Qualifiers} (h : k.Holds v) : (Ty.builtin q k).isVoid = false := by
  cases k with
  | void => cases h.category?
  | _ => rfl

theorem WidensTo.exists_width {width : Nat} (h : k.WidensTo l) (hk : k.width? = some width) :
    ∃ wider, l.width? = some wider ∧ width ≤ wider := by
  rcases h with rfl | ⟨-, hcategory, hrank⟩
  · exact ⟨width, hk, Nat.le_refl _⟩
  · cases k <;> cases hk <;> cases l <;> simp_all [Builtin.category?, rank, width?]

/-- A wider kind holds more values. -/
theorem WidensTo.holds (h : k.WidensTo l) (hk : k.Holds v) : l.Holds v := by
  obtain ⟨width, hwidth, hlow, hhigh⟩ := hk
  obtain ⟨wider, hwider, hle⟩ := h.exists_width hwidth
  have hpow : (2 : Int) ^ (width - 1) ≤ 2 ^ (wider - 1) := by
    exact_mod_cast Nat.pow_le_pow_right Nat.two_pos (Nat.sub_le_sub_right hle 1)
  exact ⟨wider, hwider, by omega, by omega⟩

theorem widensTo_ofInt_iff : (ofInt v).WidensTo k ↔ k.Holds v := by
  obtain ⟨hholds, hnarrowest⟩ := isNarrowest_ofInt v
  constructor
  · exact fun h => h.holds hholds
  · intro h
    refine .inr ⟨?_, ?_, hnarrowest k h⟩
    · rw [hholds.category?]
      rfl
    · rw [hholds.category?, h.category?]

end Builtin

/-! ## Conversions of a literal -/

namespace Expr

variable {v : Int64} {q : Qualifiers} {k : Builtin} {x : Expr} {ty : Ty}

/-- The literal itself where it has the type already, or one conversion of it to the type. -/
inductive IsLiteralAs (v : Int64) (ty : Ty) : Expr → Prop where
  | same (hty : (ofInt v).ty = ty) : IsLiteralAs v ty (.ofInt v)
  | cast (kind : CastKind) : IsLiteralAs v ty (.cast ⟨ty, .rvalue⟩ kind (.ofInt v))

theorem IsLiteralAs.loaded_eq (h : x.IsLiteralAs v ty) : x.loaded = x := by
  cases h <;> rfl

theorem canCast_ofInt_iff : (ofInt v).ty.canCast (.builtin q k) = true ↔ k.Holds v := by
  rw [Ty.canCast_builtin_iff, ← Builtin.widensTo_ofInt_iff]
  constructor
  · rintro ⟨r, l, hderef, -, hwidens⟩
    cases hderef
    exact hwidens
  · intro hwidens
    exact ⟨.none, _, rfl, by simp [Qualifiers.includes, Qualifiers.none], hwidens⟩

theorem exists_castRule_of_holds (h : k.Holds v) : ∃ kind,
    (ofInt v).ty.castRule (.builtin q k) = .ok kind ∧
      ((ofInt v).casted (.builtin q k) kind).IsLiteralAs v (.builtin q k) := by
  obtain ⟨kind, hcast⟩ := isOk_iff.mp (canCast_ofInt_iff.mpr h)
  refine ⟨kind, hcast, ?_⟩
  cases kind with
  | some kind => exact .cast kind
  | none =>
      rcases Ty.same_of_castRule_none hcast with hsame | hsame
      · exact .same (Ty.eq_of_same_builtin hsame)
      · exact .same (Ty.eq_of_same_builtin hsame)

theorem exists_castRule_error (h : ¬ k.Holds v) : ∃ reason,
    (ofInt v).ty.castRule (.builtin q k) = .error reason := by
  cases hcast : (ofInt v).ty.castRule (.builtin q k) with
  | error reason => exact ⟨reason, rfl⟩
  | ok kind => exact absurd (canCast_ofInt_iff.mp (isOk_iff.mpr ⟨kind, hcast⟩)) h

/-- Initializing and passing make the same of a literal that fits. -/
theorem exists_literal_of_holds (q : Qualifiers) (h : k.Holds v) :
    ∃ x : Expr, x.IsLiteralAs v (.builtin q k) ∧ (ofInt v).convert (.builtin q k) = .ok x ∧
      (ofInt v).initFor (.builtin q k) = .ok x := by
  obtain ⟨kind, hcast, hliteral⟩ := exists_castRule_of_holds (q := q) h
  have hloaded := hliteral.loaded_eq
  refine ⟨_, hliteral, ?_, ?_⟩
  · rw [convert_of_castRule hcast, hloaded]
  · have hbuiltin : (ofInt v).ty.deref.isBuiltin = true := rfl
    simp only [initFor, hbuiltin, if_true, hcast, hloaded]

theorem fails_of_not_holds (q : Qualifiers) (h : ¬ k.Holds v) :
    (∃ err, (ofInt v).convert (.builtin q k) = .error err) ∧
      ∃ err, (ofInt v).initFor (.builtin q k) = .error err := by
  obtain ⟨reason, hcast⟩ := exists_castRule_error (q := q) h
  refine ⟨⟨_, pass_builtin_of_castRule hcast⟩,
    .cannotInit (Ty.builtin q k).text (ofInt v).ty.text, ?_⟩
  have hbuiltin : (ofInt v).ty.deref.isBuiltin = true := rfl
  simp only [initFor, hbuiltin, if_true, hcast]

theorem assign_of_convert {lhs rhs : Expr} (hlvalue : lhs.isLvalue = true)
    (hconst : lhs.ty.isConst = false) (hderef : lhs.ty.deref.isConst = false)
    (h : rhs.convert lhs.ty.deref = .ok x) :
    lhs.assign rhs = .ok (.binary ⟨lhs.ty, .rvalue⟩ .assign lhs x) := by
  simp only [assign, hlvalue, hconst, hderef, h]
  rfl

theorem assign_of_convert_error {lhs rhs : Expr} {err : Error}
    (h : rhs.convert lhs.ty.deref = .error err) : ∃ err', lhs.assign rhs = .error err' := by
  simp only [assign, h]
  split
  · exact ⟨.notAnLvalue, rfl⟩
  · split
    · exact ⟨.assignToConst lhs.ty.text, rfl⟩
    · exact ⟨err, rfl⟩

end Expr

/-! ## Where a literal fits -/

/--
A literal meets a variable, a parameter, a function and storage to assign to, all of
one builtin type; the storage may be reached through a reference.  If the kind holds
the value, all four take the literal, or all take the same conversion of it, where
constant storage and a constant reference take no assignment.  Otherwise all four
fail, and so they do for every kind but the integer kinds.  A parameter answers for
itself, and for a call whose only candidate it belongs to if the other arguments are
accepted.
-/
theorem Store.literal_fits {v : Int64} {k : Builtin} {q : Qualifiers} {s : Store} {id : DeclId}
    (hid : s.arena.varTy id = .ok (.builtin q k)) {s₁ : Store} {p : Place} {path : Path}
    {callee param : DeclId} {f : Func} {before after : List DeclId} {args args' : List Expr}
    (hcandidates : s₁.candidates p path = .ok [callee]) (hf : s₁.arena.func callee = .ok f)
    (hparams : f.params = before ++ param :: after) (hbefore : s₁.Accepts before args)
    (hafter : s₁.Accepts after args') (hparam : s₁.arena.varTy param = .ok (.builtin q k))
    {s₂ : Store} {p₂ : Place} {function : DeclId} {g : Func}
    (hfunction : p₂.function = some function) (hg : s₂.arena.func function = .ok g)
    (hreturn : g.returnTy = .builtin q k) {lhs : Expr} (hlvalue : lhs.isLvalue = true)
    (hlhs : lhs.ty.deref = .builtin q k) :
    (k.Holds v → ∃ x : Expr, x.IsLiteralAs v (.builtin q k) ∧
      (∃ s', Gives (storeInit id (.ofInt v)) s () s' ∧
        s'.arena.kind? id = some (.var (.builtin q k) (some x))) ∧
      (s₁.paramAccepts param (.ofInt v) = true ∧ s₁.passArg param (.ofInt v) = .ok x) ∧
      (∃ passed, passed[args.length]? = some x ∧ s₁.callExpr p path (args ++ .ofInt v :: args') =
        .ok (.call ⟨f.returnTy, .rvalue⟩ callee passed)) ∧
      s₂.returnStmt p₂ (some (.ofInt v)) = .ok (.ret (some x)) ∧
      (q.isConst = false → lhs.ty.isConst = false →
        lhs.assign (.ofInt v) = .ok (.binary ⟨lhs.ty, .rvalue⟩ .assign lhs x))) ∧
    (¬ k.Holds v →
      (∃ err, Fails (storeInit id (.ofInt v)) s err s) ∧
      s₁.paramAccepts param (.ofInt v) = false ∧
      (∃ err, s₁.callExpr p path (args ++ .ofInt v :: args') = .error err) ∧
      (∃ err, s₂.returnStmt p₂ (some (.ofInt v)) = .error err) ∧
      ∃ err, lhs.assign (.ofInt v) = .error err) ∧
    (k.isInteger = false → ¬ k.Holds v) := by
  refine ⟨fun hholds => ?_, fun hnot => ?_, fun hkind hholds => ?_⟩
  · obtain ⟨x, hliteral, hconvert, hinit⟩ := Expr.exists_literal_of_holds q hholds
    have hvoid : g.returnTy.isVoid = false := hreturn ▸ hholds.not_isVoid
    have hpass : (Expr.ofInt v).pass g.returnTy = .ok x := hreturn ▸ hconvert
    obtain ⟨passed, -, hcall⟩ :=
      callExpr_append_of_pass hcandidates hf hparams hbefore hafter hparam hconvert
    refine ⟨x, hliteral, ⟨_, (gives_storeInit_iff hid).mpr ⟨x, hinit, rfl⟩, kind?_setInit hid x⟩,
      ⟨?_, (passArg_eq hparam).trans hconvert⟩, ⟨passed, hcall⟩, ?_, ?_⟩
    · rw [paramAccepts_eq hparam]
      exact Expr.canCast_ofInt_iff.mpr hholds
    · rw [returnStmt_eq_map_pass hfunction hg hvoid, hpass]
      rfl
    · intro hq hconst
      refine Expr.assign_of_convert hlvalue hconst ?_ (hlhs ▸ hconvert)
      rw [hlhs]
      exact hq
  · obtain ⟨⟨err, hconvert⟩, err', hinit⟩ := Expr.fails_of_not_holds q hnot
    have hpass : (Expr.ofInt v).pass g.returnTy = .error err := hreturn ▸ hconvert
    refine ⟨⟨err', (fails_storeInit_iff hid).mpr ⟨hinit, rfl⟩⟩, ?_,
      ⟨_, callExpr_append_of_not_pass hcandidates hf hparams hbefore hafter hparam hconvert⟩,
      returnStmt_of_pass_error hfunction hg hpass,
      Expr.assign_of_convert_error (hlhs ▸ hconvert)⟩
    rw [paramAccepts_eq hparam, Bool.eq_false_iff]
    exact fun haccepts => hnot (Expr.canCast_ofInt_iff.mp haccepts)
  · rw [Builtin.isInteger, hholds.category?] at hkind
    cases hkind

/--
The store of `let volatile vi16 x; func f(bool b, volatile vi16 a);
func g() -> volatile vi16; let volatile vi16& r`, with the smallest value of `vi16`.
-/
theorem Store.literal_fits_smallest : ∃ s : Store, ∃ p : Place, ∃ x s' passed,
    s.arena.varTy 1 = .ok (.builtin ⟨false, true⟩ .vi16) ∧
    s.candidates .top ⟨"f", []⟩ = .ok [2] ∧ p.function = some 5 ∧
    s.arena.varTy 6 = .ok (.reference .none (.builtin ⟨false, true⟩ .vi16)) ∧
    x.IsLiteralAs (-32768) (.builtin ⟨false, true⟩ .vi16) ∧
    Gives (storeInit 1 (.ofInt (-32768))) s () s' ∧
    s'.arena.kind? 1 = some (.var (.builtin ⟨false, true⟩ .vi16) (some x)) ∧
    passed[1]? = some x ∧ s.callExpr .top ⟨"f", []⟩ [.ofBool true, .ofInt (-32768)] =
      .ok (.call ⟨.ofBuiltin .void, .rvalue⟩ 2 passed) ∧
    s.returnStmt p (some (.ofInt (-32768))) = .ok (.ret (some x)) ∧
    (Expr.ref ⟨.reference .none (.builtin ⟨false, true⟩ .vi16), .lvalue⟩ 6).assign
      (.ofInt (-32768)) = .ok (.binary ⟨.reference .none (.builtin ⟨false, true⟩ .vi16), .rvalue⟩
        .assign (.ref ⟨.reference .none (.builtin ⟨false, true⟩ .vi16), .lvalue⟩ 6) x) := by
  let ty : Ty := .builtin ⟨false, true⟩ .vi16
  let f : Func := ⟨[3, 4], .ofBuiltin .void, none, none⟩
  let g : Func := .prototype ty
  let s : Store :=
    ⟨⟨#[⟨none, none, .unit [1, 2, 5, 6]⟩, ⟨some "x", some 0, .var ty none⟩,
      ⟨some "f", some 0, .func f⟩, ⟨some "b", some 0, .var (.ofBuiltin .bool) none⟩,
      ⟨some "a", some 0, .var ty none⟩, ⟨some "g", some 0, .func g⟩,
      ⟨some "r", some 0, .var (.reference .none ty) none⟩],
      ["r", "g", "a", "b", "f", "x"]⟩, ⟨#[⟨none, 0, [1, 2, 5, 6]⟩]⟩⟩
  let p : Place := { Place.top with function := some 5 }
  let r : Expr := .ref ⟨.reference .none ty, .lvalue⟩ 6
  have hcandidates : s.candidates .top ⟨"f", []⟩ = .ok [2] := by decide +kernel
  have hf : s.arena.func 2 = .ok f := rfl
  have hg : s.arena.func 5 = .ok g := rfl
  have hbefore : s.Accepts [3] [.ofBool true] := .cons ⟨.ofBuiltin .bool, rfl, none, rfl⟩ .nil
  have hx : s.arena.varTy 1 = .ok ty := rfl
  have ha : s.arena.varTy 4 = .ok ty := rfl
  have hp : p.function = some 5 := rfl
  have hlvalue : r.isLvalue = true := rfl
  have hholds : Builtin.vi16.Holds (-32768) := ⟨16, rfl, by decide, by decide⟩
  obtain ⟨x, hliteral, ⟨s', hstored, hkind⟩, -, ⟨passed, hplace, hcall⟩, hstmt, hassign⟩ :=
    (literal_fits hx hcandidates hf rfl hbefore .nil ha hp hg rfl hlvalue rfl).1 hholds
  exact ⟨s, p, x, s', passed, hx, hcandidates, hp, rfl, hliteral, hstored, hkind, hplace, hcall,
    hstmt, hassign rfl rfl⟩

theorem error_eq_of_decide {result : Except Error Arena} {err : Error}
    (h : (match result with
      | .ok _ => false
      | .error e => decide (e = err)) = true) : result = .error err := by
  cases result with
  | ok a => cases h
  | error e => rw [of_decide_eq_true h]

/--
In `let vi8& const r; func main() { r = 1; }` the value fits and `vi8` is not constant,
but the reference is.
-/
theorem assign_through_const_reference_fails : Builtin.vi8.Holds 1 ∧
    (Ty.reference ⟨true, false⟩ (.ofBuiltin .vi8)).deref = .ofBuiltin .vi8 ∧
    (Ty.ofBuiltin .vi8).isConst = false ∧
    (Expr.ref ⟨.reference ⟨true, false⟩ (.ofBuiltin .vi8), .lvalue⟩ 1).assign (.ofInt 1) =
      .error (.assignToConst "const reference to vi8") ∧
    analyze [.keyword .letKw, .builtin .vi8, .mark .amp, .qualifier .const, .name "r",
      .mark .semi, .keyword .funcKw, .name "main", .mark .lparen, .mark .rparen, .mark .lbrace,
      .name "r", .operator .assign, .int 1, .mark .semi, .mark .rbrace] =
        .error (.assignToConst "const reference to vi8") := by
  refine ⟨⟨8, rfl, by decide, by decide⟩, rfl, rfl, rfl, ?_⟩
  apply error_eq_of_decide
  decide +kernel

end UnitAnalysis
