import Mathlib.Data.List.Perm.Subperm
import UnitAnalysis.Proofs.Follow
import UnitAnalysis.Proofs.Redeclaration

/-!
# Overload resolution is first fit

A call looks for functions by name, takes the first declaration of each of them,
and calls the first one that takes the arguments.  Whether a function takes the
arguments is tried without converting any of them; the conversions that follow
cannot fail then.  The rule itself is a relation between candidates and results
(`Store.FirstFit`), stated without the search.  Main statement:
`Store.callExpr_first_fit`.
-/

namespace UnitAnalysis

open Check

/-! ## First declarations -/

/-- The first of the declarations that lead to a declaration of a function. -/
def Arena.First (a : Arena) (id first : DeclId) : Prop :=
  ∃ ids, a.Chain id ids ∧ ids.head? = some first

/-- Functions repeat functions only, up to one that repeats no other. -/
def Arena.Chained (a : Arena) : Prop :=
  ∀ ⦃id f⦄, a.func id = .ok f → ∃ ids, a.Chain id ids

namespace Arena.Chain

variable {a : Arena} {id x : DeclId} {ids ids' : List DeclId}

theorem unique (h : a.Chain id ids) (h' : a.Chain id ids') : ids = ids' := by
  induction h generalizing ids' with
  | first hf hprevious =>
      cases h' with
      | first => rfl
      | again hf' hprevious' _ =>
          obtain rfl := Except.ok.inj (hf.symm.trans hf')
          rw [hprevious] at hprevious'
          cases hprevious'
  | again hf hprevious _ ih =>
      cases h' with
      | first hf' hprevious' =>
          obtain rfl := Except.ok.inj (hf.symm.trans hf')
          rw [hprevious] at hprevious'
          cases hprevious'
      | again hf' hprevious' hchain =>
          obtain rfl := Except.ok.inj (hf.symm.trans hf')
          obtain rfl := Option.some.inj (hprevious.symm.trans hprevious')
          rw [ih hchain]

theorem func (h : a.Chain id ids) : ∃ f, a.func id = .ok f := by
  cases h with
  | first hf | again hf => exact ⟨_, hf⟩

/-- The chain of a declaration begins with the chain of each one in it. -/
theorem exists_of_mem (h : a.Chain id ids) (hx : x ∈ ids) :
    ∃ before after, ids = before ++ x :: after ∧ a.Chain x (before ++ [x]) := by
  induction h with
  | first hf hprevious =>
      obtain rfl := List.mem_singleton.mp hx
      exact ⟨[], [], rfl, .first hf hprevious⟩
  | @again id earlier f ids hf hprevious hchain ih =>
      rcases List.mem_append.mp hx with hx | hx
      · obtain ⟨before, after, rfl, hearlier⟩ := ih hx
        exact ⟨before, after ++ [id], by simp, hearlier⟩
      · obtain rfl := List.mem_singleton.mp hx
        exact ⟨ids, [], rfl, .again hf hprevious hchain⟩

/-- A declaration that came up twice would have a longer chain than itself. -/
theorem nodup (h : a.Chain id ids) : ids.Nodup := by
  induction h with
  | first => simp
  | @again id earlier f ids hf hprevious hchain ih =>
      refine List.nodup_append.mpr ⟨ih, by simp, ?_⟩
      rintro x hx _ hid rfl
      obtain rfl := List.mem_singleton.mp hid
      obtain ⟨before, after, heq, hearlier⟩ := hchain.exists_of_mem hx
      have hlength := congrArg List.length (hearlier.unique (.again hf hprevious hchain))
      rw [heq] at hlength
      simp only [List.length_append, List.length_cons, List.length_nil] at hlength
      omega

theorem length_le (h : a.Chain id ids) : ids.length ≤ a.size := by
  have hsubset : ids ⊆ List.range a.size := by
    intro x hx
    obtain ⟨before, after, -, hchain⟩ := h.exists_of_mem hx
    obtain ⟨f, hf⟩ := hchain.func
    obtain ⟨d, hd, -⟩ := func_eq_ok_iff.mp hf
    exact List.mem_range.mpr (decl?_eq_some_lt hd)
  simpa using (List.subperm_of_subset h.nodup hsubset).length_le

theorem firstWithin_of_length_le (h : a.Chain id ids) {steps : Nat} (hsteps : ids.length ≤ steps) :
    ∃ first, ids.head? = some first ∧ a.firstWithin steps id = .ok first := by
  induction h generalizing steps with
  | first hf hprevious =>
      obtain ⟨steps, rfl⟩ : ∃ n, steps = n + 1 := Nat.exists_eq_add_of_le' hsteps
      exact ⟨_, rfl, by rw [firstWithin_succ hf, hprevious]⟩
  | again hf hprevious _ ih =>
      rw [List.length_append] at hsteps
      obtain ⟨steps, rfl⟩ : ∃ n, steps = n + 1 :=
        Nat.exists_eq_add_of_le' (Nat.le_trans (Nat.le_add_left 1 _) hsteps)
      obtain ⟨first, hhead, hfirst⟩ := ih (Nat.le_of_add_le_add_right hsteps)
      refine ⟨first, by simp [List.head?_append, hhead], ?_⟩
      rw [firstWithin_succ hf, hprevious]
      exact hfirst

theorem firstDeclaration (h : a.Chain id ids) :
    ∃ first, a.First id first ∧ a.firstDeclaration id = .ok first := by
  obtain ⟨first, hhead, hfirst⟩ := h.firstWithin_of_length_le h.length_le
  exact ⟨first, ⟨ids, h, hhead⟩, hfirst⟩

end Arena.Chain

theorem Arena.Chained.exists_firsts {a : Arena} (h : a.Chained) {found : List DeclId}
    (hfound : ∀ id ∈ found, ∃ f, a.func id = .ok f) :
    ∃ firsts, List.Forall₂ a.First found firsts ∧
      found.mapM a.firstDeclaration = .ok firsts := by
  induction found with
  | nil => exact ⟨[], .nil, rfl⟩
  | cons id found ih =>
      obtain ⟨f, hf⟩ := hfound id List.mem_cons_self
      obtain ⟨ids, hchain⟩ := h hf
      obtain ⟨first, hfirst, hdeclaration⟩ := hchain.firstDeclaration
      obtain ⟨firsts, hfirsts, hmapM⟩ := ih fun x hx => hfound x (List.mem_cons_of_mem _ hx)
      refine ⟨first :: firsts, .cons hfirst hfirsts, ?_⟩
      rw [List.mapM_cons, hdeclaration, ok_bind, hmapM]
      rfl

/-! ## Arguments -/

namespace Expr

/-- A reference binds to an argument, and anything else has a conversion to it. -/
def Accepted (arg : Expr) : Ty → Prop
  | .reference _ referent => arg.bindRule referent = .ok ()
  | ty => ∃ kind, arg.ty.castRule ty = .ok kind

/-- What is passed for an argument: itself where a reference binds, else its conversion. -/
def Passed (arg passed : Expr) : Ty → Prop
  | .reference _ _ => passed = arg
  | ty => arg.convert ty = .ok passed

variable {arg : Expr} {ty : Ty}

theorem canPass_iff : arg.canPass ty = true ↔ arg.Accepted ty := by
  cases ty with
  | reference quals referent =>
      simp only [canPass, canBind, isOk_iff, Accepted]
      constructor
      · rintro ⟨_, h⟩
        exact h
      · intro h
        exact ⟨(), h⟩
  | _ => exact isOk_iff

theorem convert_of_castRule {kind : Option CastKind} (h : arg.ty.castRule ty = .ok kind) :
    arg.convert ty = .ok (arg.casted ty kind).loaded := by
  simp only [convert, Ty.requireCast, bind_eq_ok, mapError_eq_ok, pure_eq_ok]
  exact ⟨kind, h, rfl⟩

/-- The argument that was accepted on trial does pass. -/
theorem Accepted.exists_passed (h : arg.Accepted ty) :
    ∃ passed, arg.pass ty = .ok passed ∧ arg.Passed passed ty := by
  cases ty with
  | reference quals referent =>
      refine ⟨arg, ?_, rfl⟩
      simp only [pass, bindTo, requireBind, bind_eq_ok, mapError_eq_ok, pure_eq_ok, and_true]
      exact ⟨(), h⟩
  | builtin | pointer | tag =>
      obtain ⟨kind, hcast⟩ := h
      exact ⟨_, convert_of_castRule hcast, convert_of_castRule hcast⟩

end Expr

/-! ## Candidates -/

namespace Store

/-- There is one argument for each parameter, and the parameter accepts it. -/
def Accepts (s : Store) : (params : List DeclId) → (args : List Expr) → Prop :=
  List.Forall₂ fun param arg => ∃ ty, s.arena.varTy param = .ok ty ∧ arg.Accepted ty

/-- The parameters of a function accept the arguments. -/
def Takes (s : Store) (args : List Expr) (function : DeclId) : Prop :=
  ∃ f, s.arena.func function = .ok f ∧ s.Accepts f.params args

variable {s : Store} {args : List Expr}

theorem paramAccepts_iff {param : DeclId} {arg : Expr} :
    s.paramAccepts param arg = true ↔ ∃ ty, s.arena.varTy param = .ok ty ∧ arg.Accepted ty := by
  unfold paramAccepts
  cases s.arena.varTy param with
  | error e => simp
  | ok ty => simp [Expr.canPass_iff]

theorem isViable_iff {function : DeclId} :
    s.isViable args function = true ↔ s.Takes args function := by
  unfold isViable Takes
  cases s.arena.func function with
  | error e => simp
  | ok f => simp [Accepts, paramAccepts_iff, Func.arity, List.forall₂_iff_zip]

/-- What is passed to a function: one expression for each parameter, in order. -/
def PassesTo (s : Store) (f : Func) (args passed : List Expr) : Prop :=
  passed.length = f.params.length ∧
    List.Forall₂ (fun (pair : DeclId × Expr) value =>
      ∃ ty, s.arena.varTy pair.1 = .ok ty ∧ pair.2.Passed value ty) (f.params.zip args) passed

theorem exists_passed {params : List DeclId} (h : s.Accepts params args) :
    ∃ passed, (params.zip args).mapM (fun (param, arg) => s.passArg param arg) = .ok passed ∧
      List.Forall₂ (fun (pair : DeclId × Expr) value =>
        ∃ ty, s.arena.varTy pair.1 = .ok ty ∧ pair.2.Passed value ty) (params.zip args) passed := by
  induction h with
  | nil => exact ⟨[], rfl, .nil⟩
  | @cons param arg params args hfirst _ ih =>
      obtain ⟨ty, hty, haccepted⟩ := hfirst
      obtain ⟨value, hpass, hpassed⟩ := haccepted.exists_passed
      obtain ⟨values, hmapM, hrest⟩ := ih
      refine ⟨value :: values, ?_, .cons ⟨ty, hty, hpassed⟩ hrest⟩
      have hfirst : s.passArg param arg = .ok value := by
        rw [passArg, hty]
        exact hpass
      rw [List.zip_cons_cons, List.mapM_cons, hmapM]
      simp only [hfirst, ok_bind]
      rfl

theorem Takes.exists_passesTo {f : Func} {function : DeclId} (h : s.Takes args function)
    (hf : s.arena.func function = .ok f) :
    ∃ passed, (f.params.zip args).mapM (fun (param, arg) => s.passArg param arg) = .ok passed ∧
      s.PassesTo f args passed := by
  obtain ⟨g, hg, haccepted⟩ := h
  obtain rfl := Except.ok.inj (hf.symm.trans hg)
  obtain ⟨passed, hmapM, hpassed⟩ := exists_passed haccepted
  refine ⟨passed, hmapM, ?_, hpassed⟩
  have hlength := haccepted.length_eq
  have hzip := hpassed.length_eq
  rw [List.length_zip] at hzip
  omega

/-! ## Resolution -/

/-- The result of a call, given its candidates in order. -/
inductive FirstFit (s : Store) (path : Path) (args : List Expr) :
    List DeclId → Except Error Expr → Prop where
  | unknown : FirstFit s path args [] (.error (.unknownFunction path.text))
  | noViable {candidates : List DeclId} (hcandidates : candidates ≠ [])
      (hnone : ∀ c ∈ candidates, ¬ s.Takes args c) :
      FirstFit s path args candidates (.error (.noViableCall path.text candidates.length))
  | call {before after : List DeclId} {callee : DeclId} {f : Func} {passed : List Expr}
      (hbefore : ∀ c ∈ before, ¬ s.Takes args c) (htakes : s.Takes args callee)
      (hfunc : s.arena.func callee = .ok f) (hpassed : s.PassesTo f args passed) :
      FirstFit s path args (before ++ callee :: after)
        (.ok (.call ⟨f.returnTy, .rvalue⟩ callee passed))

variable {p : Place} {path : Path}

/-- A candidate that takes the arguments is called, since all of them then pass. -/
theorem callExpr_of_find? {candidates : List DeclId} {callee : DeclId}
    (h : s.candidates p path = .ok candidates)
    (hfind : candidates.find? (s.isViable args) = some callee) :
    ∃ f passed, s.arena.func callee = .ok f ∧ s.PassesTo f args passed ∧
      s.callExpr p path args = .ok (.call ⟨f.returnTy, .rvalue⟩ callee passed) := by
  have htakes := isViable_iff.mp (List.find?_some hfind)
  obtain ⟨f, hf, -⟩ := id htakes
  obtain ⟨passed, hmapM, hpassed⟩ := htakes.exists_passesTo hf
  refine ⟨f, passed, hf, hpassed, ?_⟩
  have hne : candidates.isEmpty = false :=
    List.isEmpty_eq_false_iff.mpr (List.ne_nil_of_mem (List.mem_of_find?_eq_some hfind))
  simp only [callExpr, h, ok_bind, hne, hfind, Bool.false_eq_true, if_false, hf, hmapM]
  rfl

theorem callExpr_of_find?_eq_none {candidates : List DeclId}
    (h : s.candidates p path = .ok candidates) (hne : candidates ≠ [])
    (hfind : candidates.find? (s.isViable args) = none) :
    s.callExpr p path args = .error (.noViableCall path.text candidates.length) := by
  have hnonempty : candidates.isEmpty = false := List.isEmpty_eq_false_iff.mpr hne
  simp only [callExpr, h, ok_bind, hnonempty, hfind, Bool.false_eq_true, if_false]
  rfl

theorem firstFit_of_candidates {candidates : List DeclId}
    (h : s.candidates p path = .ok candidates) :
    s.FirstFit path args candidates (s.callExpr p path args) := by
  cases hfind : candidates.find? (s.isViable args) with
  | some callee =>
      obtain ⟨f, passed, hf, hpassed, hcall⟩ := callExpr_of_find? h hfind
      obtain ⟨hviable, before, after, rfl, hbefore⟩ := List.find?_eq_some_iff_append.mp hfind
      rw [hcall]
      refine .call ?_ (isViable_iff.mp hviable) hf hpassed
      intro c hc htakes
      have hnot := hbefore c hc
      rw [isViable_iff.mpr htakes] at hnot
      cases hnot
  | none =>
      cases candidates with
      | nil =>
          have hcall : s.callExpr p path args = .error (.unknownFunction path.text) := by
            rw [callExpr, h]
            rfl
          rw [hcall]
          exact .unknown
      | cons first rest =>
          rw [callExpr_of_find?_eq_none h (List.cons_ne_nil _ _) hfind]
          refine .noViable (List.cons_ne_nil _ _) fun c hc htakes => ?_
          exact List.find?_eq_none.mp hfind c hc (isViable_iff.mpr htakes)

theorem candidates_of_lookupPath (hs : s.arena.Chained) {found : List DeclId}
    (h : s.lookupPath p path .function = .ok found) :
    ∃ firsts, List.Forall₂ s.arena.First found firsts ∧
      s.candidates p path = .ok firsts.eraseDups := by
  obtain ⟨firsts, hfirsts, hmapM⟩ := hs.exists_firsts (Ready.exists_func_of_lookupPath h)
  refine ⟨firsts, hfirsts, ?_⟩
  rw [candidates, h, ok_bind, hmapM]
  rfl

end Store

/-! ## Failures -/

/-- The failures of a conversion or of a binding. -/
def Error.isConversion : Error → Bool
  | .invalidCast .. | .rvalueToNonConst .. | .referenceMismatch .. => true
  | _ => false

theorem ScopeTree.not_isConversion_of_descend {a : Arena} {resolved : String}
    {found : List DeclId} {segments : List String} {e : Error}
    (h : descend a resolved found segments = .error e) : e.isConversion = false := by
  fun_induction descend a resolved found segments with
  | case1 => cases h
  | case2 => cases h; rfl
  | case3 _ _ _ _ _ ih => exact ih h
  | case4 => cases h; rfl
  | case5 => cases h; rfl

theorem Store.not_isConversion_of_lookupPath {s : Store} {p : Place} {path : Path}
    {sel : Selector} {e : Error} (h : s.lookupPath p path sel = .error e) :
    e.isConversion = false := by
  unfold Store.lookupPath ScopeTree.lookupPath at h
  split at h
  · cases h
  · cases hdescend : ScopeTree.descend s.arena path.first
      (s.scopes.lookup s.arena p.scope path.first .context) path.rest with
    | ok found =>
        rw [hdescend] at h
        cases h
    | error e' =>
        rw [hdescend] at h
        cases h
        exact ScopeTree.not_isConversion_of_descend hdescend

theorem Store.FirstFit.not_isConversion {s : Store} {path : Path} {args : List Expr}
    {candidates : List DeclId} {e : Error} (h : s.FirstFit path args candidates (.error e)) :
    e.isConversion = false := by
  cases h with
  | unknown => rfl
  | noViable => rfl

/-! ## Calls -/

/--
A call fails as its lookup does, and otherwise is resolved by first fit among
the first declarations of what was found, each taken once.
-/
theorem Store.callExpr_first_fit {s : Store} (hs : s.arena.Chained) (p : Place) (path : Path)
    (args : List Expr) :
    (∀ e, s.lookupPath p path .function = .error e → s.callExpr p path args = .error e) ∧
    (∀ found, s.lookupPath p path .function = .ok found →
      ∃ firsts, List.Forall₂ s.arena.First found firsts ∧
        s.FirstFit path args firsts.eraseDups (s.callExpr p path args)) ∧
    ∀ e, s.callExpr p path args = .error e → e.isConversion = false := by
  have herror : ∀ e, s.lookupPath p path .function = .error e →
      s.callExpr p path args = .error e := by
    intro e h
    rw [callExpr, candidates, h]
    rfl
  have hfound : ∀ found, s.lookupPath p path .function = .ok found →
      ∃ firsts, List.Forall₂ s.arena.First found firsts ∧
        s.FirstFit path args firsts.eraseDups (s.callExpr p path args) := by
    intro found h
    obtain ⟨firsts, hfirsts, hcandidates⟩ := candidates_of_lookupPath hs h
    exact ⟨firsts, hfirsts, firstFit_of_candidates hcandidates⟩
  refine ⟨herror, hfound, ?_⟩
  intro e he
  cases h : s.lookupPath p path .function with
  | error e' =>
      obtain rfl := Except.error.inj ((herror e' h).symm.trans he)
      exact not_isConversion_of_lookupPath h
  | ok found =>
      obtain ⟨firsts, -, hfit⟩ := hfound found h
      rw [he] at hfit
      exact hfit.not_isConversion

/--
The store after `func f(vi8 a); func f(bool b); func f(bool c);`, in which the
third declaration repeats the second one and `f(true)` is a call of that.
-/
theorem Store.callExpr_first_fit_overloaded : ∃ s : Store, s.arena.Chained ∧
    s.lookupPath .top ⟨"f", []⟩ .function = .ok [1, 3, 5] ∧
    (s.callExpr .top ⟨"f", []⟩ [.ofBool true]).isOk = true ∧
    ∃ firsts, List.Forall₂ s.arena.First [1, 3, 5] firsts ∧
      s.FirstFit ⟨"f", []⟩ [.ofBool true] firsts.eraseDups
        (s.callExpr .top ⟨"f", []⟩ [.ofBool true]) := by
  let func (params : List DeclId) (previous : Option DeclId) : Decl :=
    ⟨some "f", some 0, .func ⟨params, .ofBuiltin .void, none, previous⟩⟩
  let var (name : String) (kind : Builtin) : Decl :=
    ⟨some name, some 0, .var (.ofBuiltin kind) none⟩
  let s : Store :=
    ⟨⟨#[⟨none, none, .unit [1, 3, 5]⟩, func [2] none, var "a" .vi8, func [4] none, var "b" .bool,
      func [6] (some 3), var "c" .bool], ["c", "b", "a", "f"]⟩, ⟨#[⟨none, 0, [1, 3, 5]⟩]⟩⟩
  have hs : s.arena.Chained := by
    intro id f hf
    match id, hf with
    | 1, _ => exact ⟨_, .first rfl rfl⟩
    | 3, _ => exact ⟨_, .first rfl rfl⟩
    | 5, _ => exact ⟨_, .again rfl rfl (.first rfl rfl)⟩
    | 0, hf | 2, hf | 4, hf | 6, hf => cases hf
    | id + 7, hf =>
        obtain ⟨d, hd, -⟩ := Arena.func_eq_ok_iff.mp hf
        exact absurd (Arena.decl?_eq_some_lt hd) (Nat.not_lt_of_le (Nat.le_add_left 7 id))
  have hfound : s.lookupPath .top ⟨"f", []⟩ .function = .ok [1, 3, 5] := by decide +kernel
  exact ⟨s, hs, hfound, by decide +kernel, (callExpr_first_fit hs _ _ _).2.1 _ hfound⟩

end UnitAnalysis
