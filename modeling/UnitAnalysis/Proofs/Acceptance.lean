import UnitAnalysis.Analysis
import UnitAnalysis.Proofs.Action
import UnitAnalysis.Proofs.Signature

/-!
# Accepted units have runs

Main statement: a unit that the analysis accepts has a run from the empty store
that ends with its arena (`exists_run_of_analyze`).  The statements follow the
trees, and each of them takes one action apart.
-/

namespace UnitAnalysis

open UnitAnalysis.Action UnitAnalysis.Check

/-! ## Single actions -/

theorem Store.fresh_of_checkFresh {s : Store} {p : Place} {name : String}
    {overloadable : Bool} (h : s.checkFresh p name overloadable = .ok ()) :
    s.Fresh p name overloadable := by
  simp only [checkFresh] at h
  split at h
  · contradiction
  · rename_i hclash
    intro id hid hname
    obtain ⟨d, hd⟩ : ∃ d, s.arena.decl? id = some d := by
      cases hd : s.arena.decl? id with
      | none => simp [Arena.name?, hd] at hname
      | some d => exact ⟨d, rfl⟩
    have hfound :
        id ∈ s.scopes.lookupLocal s.arena p.scope name .everything := by
      simp [ScopeTree.lookupLocal, ScopeTree.matchesDecl, hid, hname, Arena.sort?,
        Arena.kind?, hd, Selector.accepts]
    have hany := hclash
    simp only [List.any_eq_true, not_exists, not_and] at hany
    simpa using hany id hfound

theorem not_isVoid_of_checkObject {name : String} {ty : Ty}
    (h : checkObject name ty = .ok ()) : ty.isVoid = false := by
  unfold checkObject at h
  split at h
  · contradiction
  · simpa using ‹¬ty.isVoid = true›

section Gives

variable {s s' : Store} {p q : Place} {id : DeclId} {name : String}

theorem gives_declare {kind : DeclKind} (h : Gives (declare p name kind) s id s') :
    id = s.arena.size ∧ s' = s.declared p name kind := by
  simp only [declare, gives_modifyGet] at h
  exact ⟨h.1.symm, h.2.symm⟩

theorem gives_reveal (h : Gives (reveal p id) s () s') : s' = s.revealed p id := by
  simp only [reveal, gives_modify] at h
  exact h.symm

theorem gives_enlist (h : Gives (enlist p id) s () s') : s' = s.enlisted p id := by
  simp only [enlist, gives_bind, gives_get, gives_check, gives_modify] at h
  obtain ⟨_, _, ⟨rfl, rfl⟩, arena, _, ⟨harena, rfl⟩, rfl⟩ := h
  unfold Arena.addMember at harena
  split at harena
  · cases harena
    rfl
  · contradiction

theorem gives_openScope (h : Gives (openScope p) s q s') :
    q = p.inside s ∧ s' = s.opened p := by
  simp only [openScope, gives_modifyGet] at h
  exact ⟨h.1.symm, h.2.symm⟩

theorem gives_closeScope (h : Gives (closeScope p) s q s') :
    s.scopes.parent? p.scope = some q.scope ∧ q = { p with scope := q.scope } ∧
      s' = s.closed p.scope := by
  simp only [closeScope, gives_bind, gives_get, gives_check] at h
  obtain ⟨_, _, ⟨rfl, rfl⟩, ⟨outer, scopes⟩, _, ⟨hpop, rfl⟩, h⟩ := h
  simp only [gives_modify, gives_pure] at h
  obtain ⟨_, _, rfl, rfl, rfl⟩ := h
  unfold ScopeTree.pop at hpop
  split at hpop
  · cases hpop
    exact ⟨by assumption, rfl, rfl⟩
  · contradiction

theorem gives_declareVar {ty : Ty} (h : Gives (declareVar p name ty) s id s') :
    s.Fresh p name false ∧ ty.isVoid = false ∧ id = s.arena.size ∧
      s' = s.declared p name (.var ty none) := by
  simp only [declareVar, gives_bind, gives_ask, gives_check] at h
  obtain ⟨_, _, ⟨hfresh, rfl⟩, _, _, ⟨hobject, rfl⟩, h⟩ := h
  exact ⟨Store.fresh_of_checkFresh hfresh, not_isVoid_of_checkObject hobject, gives_declare h⟩

theorem gives_declareFunc {returnTy : Ty} (h : Gives (declareFunc p name returnTy) s id s') :
    s.Fresh p name true ∧ id = s.arena.size ∧
      s' = s.declared p name (.func (.prototype returnTy)) := by
  simp only [declareFunc, gives_bind, gives_ask] at h
  obtain ⟨_, _, ⟨hfresh, rfl⟩, h⟩ := h
  exact ⟨Store.fresh_of_checkFresh hfresh, gives_declare h⟩

theorem gives_declareTag {kind : TagKind} (h : Gives (declareTag kind p name) s id s') :
    s.Fresh p name false ∧ id = s.arena.size ∧ s' = s.declared p name (.tag kind []) := by
  simp only [declareTag, gives_bind, gives_ask] at h
  obtain ⟨_, _, ⟨hfresh, rfl⟩, h⟩ := h
  exact ⟨Store.fresh_of_checkFresh hfresh, gives_declare h⟩

theorem Store.sort?_of_checkContext {kind : TagKind}
    (h : s.checkContext p kind = .ok ()) : s.arena.sort? p.context = some (.tag kind) := by
  unfold checkContext at h
  split at h
  · assumption
  · contradiction

theorem gives_declareField {ty : Ty} (h : Gives (declareField p name ty) s id s') :
    s.arena.sort? p.context = some (.tag .classTag) ∧ s.Fresh p name false ∧
      ty.isVoid = false ∧ id = s.arena.size ∧ s' = s.declared p name (.field ty) := by
  simp only [declareField, gives_bind, gives_ask, gives_check] at h
  obtain ⟨_, _, ⟨hcontext, rfl⟩, _, _, ⟨hfresh, rfl⟩, _, _, ⟨hobject, rfl⟩, h⟩ := h
  exact ⟨Store.sort?_of_checkContext hcontext, Store.fresh_of_checkFresh hfresh,
    not_isVoid_of_checkObject hobject, gives_declare h⟩

theorem gives_declareEnumerator {value : Option Int64}
    (h : Gives (declareEnumerator p name value) s id s') :
    s.arena.sort? p.context = some (.tag .enumTag) ∧ s.Fresh p name false ∧
      ∃ v, id = s.arena.size ∧ s' = s.declared p name (.enumerator v) := by
  simp only [declareEnumerator, gives_bind, gives_ask] at h
  obtain ⟨_, _, ⟨hcontext, rfl⟩, _, _, ⟨hfresh, rfl⟩, last, _, ⟨-, rfl⟩, h⟩ := h
  refine ⟨Store.sort?_of_checkContext hcontext, Store.fresh_of_checkFresh hfresh, ?_⟩
  split at h
  · exact ⟨_, gives_declare h⟩
  · cases (gives_check.mp h).1

theorem gives_addParam {function param : DeclId}
    (h : Gives (addParam function param) s () s') :
    s' = s.mapFunc function fun f => { f with params := f.params ++ [param] } := by
  simp only [addParam, gives_bind, gives_get, gives_check, gives_modify] at h
  obtain ⟨_, _, ⟨rfl, rfl⟩, _, _, ⟨-, rfl⟩, h⟩ := h
  exact h.symm

theorem gives_declareParam {function : DeclId} {ty : Ty}
    (h : Gives (declareParam p function name ty) s id s') :
    s.Fresh p name false ∧ ty.isVoid = false ∧ id = s.arena.size ∧
      s' = (s.declared p name (.var ty none)).mapFunc function fun f =>
        { f with params := f.params ++ [s.arena.size] } := by
  simp only [declareParam, gives_bind, gives_ask, gives_check, gives_pure] at h
  obtain ⟨_, _, ⟨hfresh, rfl⟩, _, _, ⟨hobject, rfl⟩, param, s₁, hdeclare, _, _, hadd, rfl,
    rfl⟩ := h
  obtain ⟨rfl, rfl⟩ := gives_declare hdeclare
  rw [gives_addParam hadd]
  exact ⟨Store.fresh_of_checkFresh hfresh, not_isVoid_of_checkObject hobject, rfl, rfl⟩

end Gives

theorem Fault.raise_ne_ok {α : Type} {fault : Fault} {a : α} : fault.raise ≠ .ok a :=
  nofun

theorem Fault.not_gives_raise {α : Type} {fault : Fault} {s s' : Store} {a : α} :
    ¬ Gives (liftM (fault.raise : Except Error α)) s a s' :=
  fun h => Fault.raise_ne_ok (gives_check.mp h).1

/-! ## Expressions -/

mutual

theorem ExprTree.exprAt_of_analyze {s : Store} {p : Place} :
    ∀ {tree : ExprTree} {e : Expr}, tree.analyze s p = .ok e → ExprAt s p e
  | .int value, e, h => by
      rw [ExprTree.analyze, pure_eq_ok] at h
      exact h ▸ .int value
  | .float value, e, h => by
      rw [ExprTree.analyze, pure_eq_ok] at h
      exact h ▸ .float value
  | .bool value, e, h => by
      rw [ExprTree.analyze, pure_eq_ok] at h
      exact h ▸ .bool value
  | .name path, e, h => by
      rw [ExprTree.analyze] at h
      exact .name h
  | .call path args, e, h => by
      rw [ExprTree.analyze, bind_eq_ok] at h
      obtain ⟨es, hargs, hcall⟩ := h
      exact .call (ExprTree.exprAt_of_analyzeAll hargs) hcall
  | .binary op lhs rhs, e, h => by
      simp only [ExprTree.analyze, bind_eq_ok] at h
      obtain ⟨l, hlhs, r, hrhs, hcombine⟩ := h
      exact .binary (ExprTree.exprAt_of_analyze hlhs) (ExprTree.exprAt_of_analyze hrhs) hcombine
  | .broken parts fault, e, h => by
      simp only [ExprTree.analyze, bind_eq_ok] at h
      obtain ⟨_, _, hraise⟩ := h
      exact absurd hraise Fault.raise_ne_ok

theorem ExprTree.exprAt_of_analyzeAll {s : Store} {p : Place} :
    ∀ {trees : List ExprTree} {es : List Expr},
      ExprTree.analyzeAll s p trees = .ok es → ∀ e ∈ es, ExprAt s p e
  | [], es, h => by
      rw [ExprTree.analyzeAll, pure_eq_ok] at h
      subst h
      simp
  | tree :: trees, es, h => by
      simp only [ExprTree.analyzeAll, bind_eq_ok, pure_eq_ok] at h
      obtain ⟨first, hfirst, rest, hrest, rfl⟩ := h
      intro e he
      rcases List.mem_cons.mp he with rfl | he
      · exact ExprTree.exprAt_of_analyze hfirst
      · exact ExprTree.exprAt_of_analyzeAll hrest e he

end

/-! ## Variables and statements -/

theorem Arena.push_modifyKind (a : Arena) (d : Decl) (change : DeclKind → DeclKind) :
    (a.push d).modifyKind a.size change = a.push { d with kind := change d.kind } := by
  unfold push modifyKind size
  congr 1
  apply Array.ext_getElem?
  intro x
  rw [Array.getElem?_modify, Array.getElem?_push, Array.getElem?_push]
  by_cases hx : a.decls.size = x
  · subst hx
    simp
  · have hx' : ¬ x = a.decls.size := fun heq => hx heq.symm
    simp [hx, hx']

/-- Storing the initializer of the variable declared last is declaring it with one. -/
theorem Store.declared_setInit (s : Store) (p : Place) (name : String) (ty : Ty) (init : Expr) :
    { s.declared p name (.var ty none) with
      arena := (s.declared p name (.var ty none)).arena.modifyKind s.arena.size (.setInit init) } =
      s.declared p name (.var ty (some init)) := by
  simp only [declared]
  rw [← Arena.size_intern s.arena name, Arena.push_modifyKind]
  rfl

theorem gives_storeInit {id : DeclId} {init : Expr} {s s' : Store}
    (h : Gives (storeInit id init) s () s') :
    ∃ ty stored, s.arena.varTy id = .ok ty ∧ init.initFor ty = .ok stored ∧
      s' = { s with arena := s.arena.modifyKind id (.setInit stored) } := by
  simp only [storeInit, gives_bind, gives_get, gives_check, gives_modify] at h
  obtain ⟨_, _, ⟨rfl, rfl⟩, ty, _, ⟨hty, rfl⟩, stored, _, ⟨hstored, rfl⟩, h⟩ := h
  exact ⟨ty, stored, hty, hstored, h.symm⟩

theorem VarTree.varStep_of_analyze {p : Place} {tree : VarTree} {s s' : Store} {id : DeclId}
    (h : Gives (tree.analyze p) s id s') : VarStep p s id s' := by
  simp only [VarTree.analyze, gives_bind, gives_ask, gives_check] at h
  obtain ⟨ty, _, ⟨-, rfl⟩, name, _, ⟨-, rfl⟩, var, s₁, hdeclare, h⟩ := h
  obtain ⟨hfresh, hobject, rfl, rfl⟩ := gives_declareVar hdeclare
  cases hinit : tree.init with
  | none =>
      simp only [hinit, gives_bind, gives_check, gives_pure] at h
      obtain ⟨_, _, ⟨-, rfl⟩, _, _, hreveal, rfl, rfl⟩ := h
      rw [gives_reveal hreveal]
      exact .plain hfresh hobject
  | some init =>
      simp only [hinit, gives_bind, gives_ask, gives_check, gives_pure] at h
      obtain ⟨e, _, ⟨hexpr, rfl⟩, _, _, hstore, _, _, ⟨-, rfl⟩, _, _, hreveal, rfl, rfl⟩ := h
      obtain ⟨ty', stored, hty, hstored, rfl⟩ := gives_storeInit hstore
      obtain ⟨d, _, hd, hkind⟩ := Arena.varTy_eq_ok_iff.mp hty
      rw [Store.decl?_declared, if_pos rfl, Option.some.injEq] at hd
      subst hd
      cases hkind
      rw [Store.declared_setInit] at hreveal
      rw [gives_reveal hreveal]
      exact .init hfresh hobject (ExprTree.exprAt_of_analyze hexpr) hstored

theorem Store.returnStmt_none {s : Store} {p : Place} {stmt : Stmt}
    (h : s.returnStmt p none = .ok stmt) :
    ∃ function f, p.function = some function ∧ s.arena.func function = .ok f ∧
      f.returnTy.isVoid = true ∧ stmt = .ret none := by
  unfold returnStmt at h
  cases hfunction : p.function with
  | none => simp [hfunction] at h
  | some function =>
      simp only [hfunction, bind_eq_ok] at h
      obtain ⟨f, hf, h⟩ := h
      split at h
      · simp only [bind_eq_ok] at h
        obtain ⟨_, hthrow, -⟩ := h
        exact absurd hthrow throw_ne_ok
      · rename_i hvoid
        simp only [pure_eq_ok] at h
        exact ⟨function, f, rfl, hf, by simpa using hvoid, h.symm⟩

theorem Store.returnStmt_some {s : Store} {p : Place} {e : Expr} {stmt : Stmt}
    (h : s.returnStmt p (some e) = .ok stmt) :
    ∃ function f value, p.function = some function ∧ s.arena.func function = .ok f ∧
      f.returnTy.isVoid = false ∧ e.pass f.returnTy = .ok value ∧ stmt = .ret (some value) := by
  unfold returnStmt at h
  cases hfunction : p.function with
  | none => simp [hfunction] at h
  | some function =>
      simp only [hfunction, bind_eq_ok] at h
      obtain ⟨f, hf, h⟩ := h
      split at h
      · simp only [bind_eq_ok] at h
        obtain ⟨_, hthrow, -⟩ := h
        exact absurd hthrow throw_ne_ok
      · rename_i hvoid
        simp only [bind_eq_ok, pure_eq_ok] at h
        obtain ⟨value, hvalue, rfl⟩ := h
        exact ⟨function, f, value, rfl, hf, by simpa using hvoid, hvalue, rfl⟩

mutual

theorem StmtTree.blockRun_of_analyze {p : Place} :
    ∀ {tree : StmtTree} {s s₁ s' : Store} {stmt : Stmt} {rest : List Stmt},
      Gives (tree.analyze p) s stmt s₁ → BlockRun p s₁ rest s' → BlockRun p s (stmt :: rest) s'
  | .block body, s, s₁, s', stmt, rest, h, hrest => by
      simp only [StmtTree.analyze, gives_bind, gives_pure] at h
      obtain ⟨inner, s₀, henter, stmts, s₂, hbody, outer, _, hleave, rfl, rfl⟩ := h
      obtain ⟨rfl, rfl⟩ := gives_openScope henter
      obtain ⟨-, -, rfl⟩ := gives_closeScope hleave
      exact .block (StmtTree.blockRun_of_analyzeAll hbody) hrest
  | .var tree, s, s₁, s', stmt, rest, h, hrest => by
      simp only [StmtTree.analyze, gives_bind, gives_pure] at h
      obtain ⟨id, _, hvar, rfl, rfl⟩ := h
      exact .var (VarTree.varStep_of_analyze hvar) hrest
  | .ret none semi, s, s₁, s', stmt, rest, h, hrest => by
      simp only [StmtTree.analyze, gives_bind, gives_ask, gives_check] at h
      obtain ⟨_, _, ⟨-, rfl⟩, hstmt, rfl⟩ := h
      obtain ⟨function, f, hfunction, hfunc, hvoid, rfl⟩ := Store.returnStmt_none hstmt
      exact .ret hfunction hfunc hvoid hrest
  | .ret (some value) semi, s, s₁, s', stmt, rest, h, hrest => by
      simp only [StmtTree.analyze, gives_bind, gives_ask, gives_check] at h
      obtain ⟨e, _, ⟨hexpr, rfl⟩, _, _, ⟨-, rfl⟩, hstmt, rfl⟩ := h
      obtain ⟨function, f, value, hfunction, hfunc, hvoid, hpass, rfl⟩ :=
        Store.returnStmt_some hstmt
      exact .retValue hfunction hfunc hvoid (ExprTree.exprAt_of_analyze hexpr) hpass hrest
  | .expr value semi, s, s₁, s', stmt, rest, h, hrest => by
      simp only [StmtTree.analyze, gives_bind, gives_ask, gives_check, gives_pure] at h
      obtain ⟨e, _, ⟨hexpr, rfl⟩, _, _, ⟨-, rfl⟩, rfl, rfl⟩ := h
      exact .expr (ExprTree.exprAt_of_analyze hexpr) hrest
  | .broken fault, s, s₁, s', stmt, rest, h, hrest => by
      rw [StmtTree.analyze] at h
      exact absurd h Fault.not_gives_raise

theorem StmtTree.blockRun_of_analyzeAll {p : Place} :
    ∀ {trees : List StmtTree} {s s' : Store} {stmts : List Stmt},
      Gives (StmtTree.analyzeAll p trees) s stmts s' → BlockRun p s stmts s'
  | [], s, s', stmts, h => by
      simp only [StmtTree.analyzeAll, gives_pure] at h
      obtain ⟨rfl, rfl⟩ := h
      exact .nil
  | tree :: trees, s, s', stmts, h => by
      simp only [StmtTree.analyzeAll, gives_bind, gives_pure] at h
      obtain ⟨stmt, s₁, hfirst, rest, _, hrest, rfl, rfl⟩ := h
      exact StmtTree.blockRun_of_analyze hfirst (StmtTree.blockRun_of_analyzeAll hrest)

end

/-! ## Functions -/

theorem exists_runs_of_forM {α : Type} {act : α → Action Unit}
    {step : Store → DeclId → Store → Prop}
    (hstep : ∀ {x s s'}, Gives (act x) s () s' → ∃ id, step s id s')
    {xs : List α} {s s' : Store} (h : Gives (xs.forM act) s () s') :
    ∃ ids, Runs step s ids s' := by
  induction xs generalizing s with
  | nil =>
      simp only [List.forM_eq_forM, List.forM_nil, gives_pure] at h
      obtain ⟨-, rfl⟩ := h
      exact ⟨[], .nil⟩
  | cons x xs ih =>
      simp only [List.forM_eq_forM, List.forM_cons, gives_bind] at h
      obtain ⟨_, s₁, hfirst, hrest⟩ := h
      obtain ⟨id, hid⟩ := hstep hfirst
      obtain ⟨ids, hids⟩ := ih (by simpa using hrest)
      exact ⟨id :: ids, .cons hid hids⟩

theorem ParamTree.paramStep_of_analyze {p : Place} {function : DeclId} {tree : ParamTree}
    {s s' : Store} (h : Gives (tree.analyze p function) s () s') :
    ∃ id, ParamStep p function s id s' := by
  simp only [ParamTree.analyze, gives_bind, gives_ask, gives_check] at h
  obtain ⟨ty, _, ⟨-, rfl⟩, name, _, ⟨-, rfl⟩, id, s₁, hdeclare, hreveal⟩ := h
  obtain ⟨hfresh, hobject, rfl, rfl⟩ := gives_declareParam hdeclare
  rw [gives_reveal hreveal]
  exact ⟨_, .mk hfresh hobject⟩

/-- Closing the parameters leads back to the place of the function. -/
theorem gives_leaveParams {p outer : Place} {s s₁ s' : Store} {name : String} {returnTy : Ty}
    {params : List DeclId}
    (hparams : Runs (ParamStep (p.inside s) s.arena.size)
      ((s.declared p name (.func (.prototype returnTy))).opened p) params s₁)
    (h : Gives (leaveParams (p.inside s) s.arena.size) s₁ outer s') :
    outer = p ∧ ∃ previous,
      (s₁.closed s.scopes.size).previous? name s.arena.size none
        ((s₁.closed s.scopes.size).scopes.lookupLocal s₁.arena p.scope name .function) =
          .ok previous ∧
      s' = (s₁.closed s.scopes.size).linked s.arena.size previous := by
  simp only [leaveParams, gives_bind, gives_get, gives_check] at h
  obtain ⟨out, s₂, hclose, _, _, ⟨rfl, rfl⟩, previous, _, ⟨hprevious, rfl⟩, h⟩ := h
  obtain ⟨hparent, hout, rfl⟩ := gives_closeScope hclose
  have hscopes := hparams.scopes_grows ParamStep.scopes_grows (Place.inside_lt p _)
  have hscope : out.scope = p.scope := by
    rw [Place.inside, hscopes.parent?_eq s.scopes.size (by simp [Store.opened])] at hparent
    simpa [Store.opened, ScopeTree.parent?_push] using hparent.symm
  have hplace : out = p := by
    rw [hout, hscope]
    rfl
  subst hplace
  have hname : (s₁.closed (out.inside s).scope).arena.displayName s.arena.size = name := by
    have hsame := ParamStep.name?_eq_all hparams (x := s.arena.size) (by simp)
    rw [Store.arena_closed, Arena.displayName, hsame]
    simp [Arena.name?, Store.decl?_declared]
  rw [hname] at hprevious
  cases previous with
  | none =>
      simp only [gives_pure] at h
      obtain ⟨rfl, rfl⟩ := h
      exact ⟨rfl, none, hprevious, rfl⟩
  | some earlier =>
      simp only [gives_bind, gives_set, gives_pure] at h
      obtain ⟨_, _, rfl, rfl, rfl⟩ := h
      exact ⟨rfl, some earlier, hprevious, rfl⟩

theorem gives_enterBody {p q : Place} {s s' : Store} {id : DeclId}
    (h : Gives (enterBody p id) s q s') :
    ∃ f, s.arena.isDefined id = .ok false ∧ s.arena.func id = .ok f ∧
      q = { p.inside s with function := some id } ∧
      s' = (s.opened p).revealedAll s.scopes.size f.params := by
  simp only [enterBody, gives_bind, gives_get, gives_check] at h
  obtain ⟨_, _, ⟨rfl, rfl⟩, defined, _, ⟨hdefined, rfl⟩, h⟩ := h
  cases defined with
  | true =>
      simp only [if_true, gives_bind] at h
      obtain ⟨_, _, hthrow, -⟩ := h
      exact absurd hthrow not_gives_throw
  | false =>
      simp only [Bool.false_eq_true, if_false, gives_bind, gives_check, gives_modify,
        gives_pure] at h
      obtain ⟨f, _, ⟨hfunc, rfl⟩, q, _, hopen, _, _, rfl, rfl, rfl⟩ := h
      obtain ⟨rfl, rfl⟩ := gives_openScope hopen
      exact ⟨f, hdefined, hfunc, rfl, rfl⟩

theorem gives_leaveBody {p q : Place} {s s' : Store} {body : List Stmt}
    (h : Gives (leaveBody p body) s q s') :
    ∃ function, p.function = some function ∧ s.scopes.parent? p.scope = some q.scope ∧
      q = { p with scope := q.scope, function := none } ∧
      s' = (s.mapFunc function fun f => { f with body := some body }).closed p.scope := by
  unfold leaveBody at h
  cases hfunction : p.function with
  | none =>
      rw [hfunction] at h
      exact absurd h not_gives_throw
  | some function =>
      rw [hfunction] at h
      simp only [gives_bind, gives_get, gives_check, gives_modify, gives_pure] at h
      obtain ⟨_, _, ⟨rfl, rfl⟩, _, _, ⟨-, rfl⟩, _, _, rfl, outer, _, hclose, rfl, rfl⟩ := h
      obtain ⟨hparent, hplace, rfl⟩ := gives_closeScope hclose
      refine ⟨function, rfl, hparent, ?_, rfl⟩
      rw [hplace]

theorem BodyTree.funcStep_of_analyze {p : Place} {tree : BodyTree} {s s₁ s' : Store}
    {id : DeclId} (hsignature : SignatureStep p s id s₁)
    (h : Gives (tree.analyze p id) s₁ () s') : FuncStep p s id s' := by
  cases tree with
  | prototype =>
      simp only [BodyTree.analyze, gives_pure] at h
      obtain ⟨-, rfl⟩ := h
      exact .prototype hsignature
  | broken fault =>
      exact absurd h Fault.not_gives_raise
  | block body =>
      simp only [BodyTree.analyze, gives_bind, gives_pure] at h
      obtain ⟨inner, s₂, henter, stmts, s₃, hbody, outer, s₄, hleave, -, rfl⟩ := h
      obtain ⟨f, hdefined, hfunc, rfl, rfl⟩ := gives_enterBody henter
      obtain ⟨_, ⟨⟩, -, -, rfl⟩ := gives_leaveBody hleave
      exact .definition hsignature hdefined hfunc (StmtTree.blockRun_of_analyzeAll hbody)

theorem FuncTree.gives_analyzeReturn {p : Place} {tree : FuncTree} {s s' : Store} {ty : Ty}
    (h : Gives (tree.analyzeReturn p) s ty s') : s = s' := by
  unfold FuncTree.analyzeReturn at h
  split at h
  · exact (gives_ask.mp h).2
  · exact (gives_pure.mp h).2

/-- The parameters of a function have been declared inside its parentheses. -/
theorem FuncTree.runs_of_analyzeParams {p inner : Place} {tree : FuncTree} {s s' : Store}
    {id : DeclId} (h : Gives (tree.analyzeParams p) s (inner, id) s') :
    inner = p.inside s ∧ id = s.arena.size ∧ ∃ name returnTy params, s.Fresh p name true ∧
      Runs (ParamStep (p.inside s) s.arena.size)
        ((s.declared p name (.func (.prototype returnTy))).opened p) params s' := by
  simp only [FuncTree.analyzeParams, gives_bind, gives_check, gives_pure, Prod.mk.injEq] at h
  obtain ⟨name, _, ⟨-, rfl⟩, _, _, ⟨-, rfl⟩, returnTy, _, hreturn, function, _, hdeclare, place, _,
    henter, _, _, hforM, _, _, ⟨-, rfl⟩, ⟨rfl, rfl⟩, rfl⟩ := h
  obtain rfl := FuncTree.gives_analyzeReturn hreturn
  obtain ⟨hfresh, rfl, rfl⟩ := gives_declareFunc hdeclare
  obtain ⟨rfl, rfl⟩ := gives_openScope henter
  obtain ⟨params, hparams⟩ := exists_runs_of_forM ParamTree.paramStep_of_analyze hforM
  exact ⟨rfl, rfl, name, returnTy, params, hfresh, hparams⟩

theorem FuncTree.signatureStep_of_sign {p outer : Place} {tree : FuncTree}
    {s s' : Store} {id : DeclId} (h : Gives (tree.sign p) s (outer, id) s') :
    outer = p ∧ SignatureStep p s id s' := by
  simp only [FuncTree.sign, gives_bind, gives_pure, Prod.mk.injEq] at h
  obtain ⟨⟨inner, function⟩, s₁, hanalyze, out, _, hleave, _, _, hreveal, _, _, henlist,
    ⟨rfl, rfl⟩, rfl⟩ := h
  obtain ⟨rfl, rfl, name, returnTy, params, hfresh, hparams⟩ :=
    FuncTree.runs_of_analyzeParams hanalyze
  obtain ⟨rfl, previous, hprevious, rfl⟩ := gives_leaveParams hparams hleave
  rw [gives_enlist henlist, gives_reveal hreveal]
  exact ⟨rfl, .mk hfresh hparams hprevious⟩

theorem FuncTree.funcStep_of_analyze {p : Place} {tree : FuncTree} {s s' : Store}
    (h : Gives (tree.analyze p) s () s') : ∃ id, FuncStep p s id s' := by
  rw [FuncTree.analyze, gives_bind] at h
  obtain ⟨⟨outer, id⟩, s₁, hanalyze, hbody⟩ := h
  obtain ⟨rfl, hsignature⟩ := FuncTree.signatureStep_of_sign hanalyze
  exact ⟨id, BodyTree.funcStep_of_analyze hsignature hbody⟩

/-! ## Classes, enums and items -/

theorem FieldTree.fieldStep_of_analyze {p : Place} {tree : FieldTree} {s s' : Store}
    (h : Gives (tree.analyze p) s () s') : ∃ id, FieldStep p s id s' := by
  simp only [FieldTree.analyze, gives_bind, gives_ask, gives_check] at h
  obtain ⟨ty, _, ⟨-, rfl⟩, name, _, ⟨-, rfl⟩, id, _, hdeclare, _, _, ⟨-, rfl⟩, _, _, hreveal,
    henlist⟩ := h
  obtain ⟨hcontext, hfresh, hobject, rfl, rfl⟩ := gives_declareField hdeclare
  rw [gives_enlist henlist, gives_reveal hreveal]
  exact ⟨_, .mk hcontext hfresh hobject⟩

theorem MemberTree.memberStep_of_analyze {p : Place} {tree : MemberTree} {s s' : Store}
    (h : Gives (tree.analyze p) s () s') : ∃ id, MemberStep p s id s' := by
  cases tree with
  | field tree =>
      obtain ⟨id, hfield⟩ := FieldTree.fieldStep_of_analyze h
      exact ⟨id, .field hfield⟩
  | func tree =>
      obtain ⟨id, hfunc⟩ := FuncTree.funcStep_of_analyze h
      exact ⟨id, .func hfunc⟩
  | broken fault => exact absurd h Fault.not_gives_raise

theorem EnumeratorTree.enumeratorStep_of_analyze {p : Place} {tree : EnumeratorTree}
    {s s' : Store} (h : Gives (tree.analyze p) s () s') : ∃ id, EnumeratorStep p s id s' := by
  simp only [EnumeratorTree.analyze, gives_bind, gives_check] at h
  obtain ⟨name, _, ⟨-, rfl⟩, h⟩ := h
  have hmain : ∃ value, Gives (do
      let id ← declareEnumerator p name value
      reveal p id
      enlist p id) s () s' := by
    cases hvalue : tree.value with
    | none =>
        simp only [hvalue] at h
        rw [gives_bind] at h
        obtain ⟨value, _, hpure, h⟩ := h
        obtain ⟨-, rfl⟩ := gives_pure.mp hpure
        exact ⟨value, h⟩
    | some piece =>
        simp only [hvalue, map_eq_pure_bind] at h
        rw [gives_bind] at h
        obtain ⟨value, _, hcheck, h⟩ := h
        simp only [gives_bind, gives_check, gives_pure] at hcheck
        obtain ⟨_, _, ⟨-, rfl⟩, -, rfl⟩ := hcheck
        exact ⟨value, h⟩
  obtain ⟨value, h⟩ := hmain
  simp only [gives_bind] at h
  obtain ⟨id, _, hdeclare, _, _, hreveal, henlist⟩ := h
  obtain ⟨hcontext, hfresh, v, rfl, rfl⟩ := gives_declareEnumerator hdeclare
  rw [gives_enlist henlist, gives_reveal hreveal]
  exact ⟨_, .mk hcontext hfresh⟩

theorem gives_enterTag {p q : Place} {s s' : Store} {tag : DeclId}
    (h : Gives (enterTag p tag) s q s') :
    q = { p.inside s with context := tag } ∧ s' = s.opened p := by
  simp only [enterTag, gives_bind, gives_get] at h
  obtain ⟨_, _, ⟨rfl, rfl⟩, h⟩ := h
  split at h
  · simp only [gives_bind, gives_pure] at h
    obtain ⟨_, _, hopen, rfl, rfl⟩ := h
    obtain ⟨rfl, rfl⟩ := gives_openScope hopen
    exact ⟨rfl, rfl⟩
  · exact absurd h not_gives_throw

theorem gives_leaveTag {p q : Place} {s s' : Store} (h : Gives (leaveTag p) s q s') :
    s' = s.closed p.scope := by
  simp only [leaveTag, gives_bind, gives_get] at h
  obtain ⟨_, _, ⟨rfl, rfl⟩, h⟩ := h
  split at h
  · simp only [gives_bind, gives_pure] at h
    obtain ⟨_, _, hclose, -, rfl⟩ := h
    exact (gives_closeScope hclose).2.2
  · exact absurd h not_gives_throw

theorem Place.inside_tagged (p : Place) (s : Store) (name : String) (kind : TagKind) :
    p.inside (s.tagged p name kind) = p.inside s := by
  simp [Place.inside]

theorem gives_openTag {kind : TagKind} {p q : Place} {piece : Required String}
    {lbrace : Required Unit} {s s' : Store} (h : Gives (openTag kind p piece lbrace) s q s') :
    ∃ name, piece = .ok name ∧ s.Fresh p name false ∧
      q = { p.inside s with context := s.arena.size } ∧
      s' = (s.tagged p name kind).opened p := by
  simp only [openTag, gives_bind, gives_check] at h
  obtain ⟨name, _, ⟨hname, rfl⟩, id, _, hdeclare, _, _, hreveal, _, s₁, henlist, _, _, ⟨-, rfl⟩,
    henter⟩ := h
  obtain ⟨hfresh, rfl, rfl⟩ := gives_declareTag hdeclare
  obtain rfl := gives_reveal hreveal
  obtain rfl : s₁ = s.tagged p name kind := gives_enlist henlist
  obtain ⟨rfl, rfl⟩ := gives_enterTag henter
  rw [Place.inside_tagged]
  exact ⟨name, mapError_eq_ok.mp hname, hfresh, rfl, rfl⟩

theorem ClassTree.tagStep_of_analyze {p : Place} {tree : ClassTree} {s s' : Store}
    (h : Gives (tree.analyze p) s () s') : ∃ id, TagStep .classTag MemberStep p s id s' := by
  simp only [ClassTree.analyze, gives_bind, gives_pure] at h
  obtain ⟨inner, _, hopen, _, s₁, hforM, _, _, hleave, -, rfl⟩ := h
  obtain ⟨name, -, hfresh, rfl, rfl⟩ := gives_openTag hopen
  obtain ⟨members, hmembers⟩ := exists_runs_of_forM MemberTree.memberStep_of_analyze hforM
  rw [gives_leaveTag hleave]
  exact ⟨_, .mk hfresh hmembers⟩

theorem EnumTree.tagStep_of_analyze {p : Place} {tree : EnumTree} {s s' : Store}
    (h : Gives (tree.analyze p) s () s') : ∃ id, TagStep .enumTag EnumeratorStep p s id s' := by
  simp only [EnumTree.analyze, gives_bind, gives_check, gives_pure] at h
  obtain ⟨inner, _, hopen, _, s₁, hforM, _, _, ⟨-, rfl⟩, _, _, hleave, -, rfl⟩ := h
  obtain ⟨name, -, hfresh, rfl, rfl⟩ := gives_openTag hopen
  obtain ⟨members, hmembers⟩ := exists_runs_of_forM EnumeratorTree.enumeratorStep_of_analyze hforM
  rw [gives_leaveTag hleave]
  exact ⟨_, .mk hfresh hmembers⟩

theorem ItemTree.itemStep_of_analyze {p : Place} {tree : ItemTree} {s s' : Store}
    (h : Gives (tree.analyze p) s () s') : ∃ id, ItemStep p s id s' := by
  cases tree with
  | classItem item =>
      obtain ⟨id, hclass⟩ := ClassTree.tagStep_of_analyze h
      exact ⟨id, .classItem hclass⟩
  | enumItem item =>
      obtain ⟨id, henum⟩ := EnumTree.tagStep_of_analyze h
      exact ⟨id, .enumItem henum⟩
  | funcItem item =>
      obtain ⟨id, hfunc⟩ := FuncTree.funcStep_of_analyze h
      exact ⟨id, .func hfunc⟩
  | varItem item =>
      simp only [ItemTree.analyze, gives_bind] at h
      obtain ⟨id, s₁, hvar, henlist⟩ := h
      rw [gives_enlist henlist]
      exact ⟨id, .var (VarTree.varStep_of_analyze hvar)⟩
  | broken fault => exact absurd h Fault.not_gives_raise

/-! ## Units -/

theorem exists_run_of_analyze {tokens : List Token} {a : Arena} (h : analyze tokens = .ok a) :
    ∃ ids s, UnitRun ids s ∧ s.arena = a := by
  unfold analyze at h
  split at h
  · rename_i s hrun
    cases h
    obtain ⟨ids, hids⟩ := exists_runs_of_forM ItemTree.itemStep_of_analyze hrun
    exact ⟨ids, s, hids, rfl⟩
  · contradiction

end UnitAnalysis
