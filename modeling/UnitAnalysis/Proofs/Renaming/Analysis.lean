import UnitAnalysis.Proofs.Alike
import UnitAnalysis.Proofs.Renaming.Queries

/-!
# Analysis of a renamed unit

Every action has the same outcome in a store and in the renamed one, and the
stores that it leads to differ by the renaming again.  So the analysis of a
renamed unit mirrors the analysis of the unit: `analyze_rename`.
-/

namespace UnitAnalysis

variable {ρ : String → String}

/-! ## Updates -/

namespace Arena

theorem intern_rename (hρ : Function.Injective ρ) (a : Arena) (name : String) :
    (a.rename ρ).intern (ρ name) = (a.intern name).rename ρ := by
  have hknown : (a.names.map ρ).contains (ρ name) = a.names.contains name := by
    simp [hρ.eq_iff]
  unfold intern
  simp only [rename, hknown]
  split <;> rfl

theorem push_rename (a : Arena) (d : Decl) :
    (a.rename ρ).push (d.rename ρ) = (a.push d).rename ρ := by
  simp [push, rename]

theorem modifyKind_rename (a : Arena) (id : DeclId) {change change' : DeclKind → DeclKind}
    (h : ∀ k, change' (k.rename ρ) = (change k).rename ρ) :
    (a.rename ρ).modifyKind id change' = (a.modifyKind id change).rename ρ := by
  simp only [modifyKind, rename, mk.injEq, and_true]
  refine Array.ext_getElem? fun x => ?_
  simp only [Array.getElem?_modify, Array.getElem?_map]
  split
  · cases a.decls[x]? <;> simp [Decl.rename, h]
  · rfl

variable {a : Arena}

theorem TagsNamed.push (h : a.TagsNamed) (name : String) (parent : Option DeclId)
    (kind : DeclKind) : (a.push ⟨some name, parent, kind⟩).TagsNamed := by
  intro id tag hsort
  simp only [sort?, kind?, name?, decl?_push] at hsort ⊢
  split
  · exact ⟨name, rfl⟩
  · rename_i hid
    rw [if_neg hid] at hsort
    exact h hsort

theorem TagsNamed.intern (h : a.TagsNamed) (name : String) : (a.intern name).TagsNamed := by
  intro id tag hsort
  simp only [sort?, kind?, name?, decl?_intern] at hsort ⊢
  exact h hsort

theorem TagsNamed.modifyKind (h : a.TagsNamed) (id : DeclId) {change : DeclKind → DeclKind}
    (hchange : ∀ k, (change k).sort = k.sort) : (a.modifyKind id change).TagsNamed := by
  intro x tag hsort
  have hsort' : a.sort? x = some (.tag tag) := by
    simp only [sort?, kind?, decl?_modifyKind] at hsort ⊢
    split at hsort
    · simpa [Function.comp_def, hchange] using hsort
    · exact hsort
  obtain ⟨name, hname⟩ := h hsort'
  refine ⟨name, ?_⟩
  rw [← hname]
  simp only [name?, decl?_modifyKind]
  split
  · cases a.decl? x <;> rfl
  · rfl

theorem mirrors_addMember (a : Arena) (context id : DeclId) :
    Mirrors (rename ρ) (a.addMember context id) ((a.rename ρ).addMember context id) := by
  unfold addMember
  rw [isContext_rename]
  split
  · have hchange : ∀ k : DeclKind, (k.rename ρ).addMember id = (k.addMember id).rename ρ := by
      intro k
      cases k <;> rfl
    rw [modifyKind_rename a context hchange]
    exact .ok _
  · exact .error rfl

theorem TagsNamed.addMember (h : a.TagsNamed) {context id : DeclId} {b : Arena}
    (hadd : a.addMember context id = .ok b) : b.TagsNamed := by
  unfold Arena.addMember at hadd
  split at hadd
  · cases hadd
    exact h.modifyKind context fun k => k.sort_addMember id
  · cases hadd

end Arena

/-! ## Actions -/

namespace Action

/-- Two results of actions that differ by `f` and a renaming, or in the texts of their errors. -/
inductive Mirrored (ρ : String → String) {α β : Type} (f : α → β) :
    EStateM.Result Error Store α → EStateM.Result Error Store β → Prop where
  | ok (a : α) {s : Store} (h : s.arena.TagsNamed) : Mirrored ρ f (.ok a s) (.ok (f a) (s.rename ρ))
  | error {e e' : Error} {s s' : Store} (h : e'.outline = e.outline) :
      Mirrored ρ f (.error e s) (.error e' s')

/-- The second action does in the renamed store what the first one does in the store. -/
def Mirrors (ρ : String → String) {α β : Type} (f : α → β) (s : Store) (x : Action α)
    (y : Action β) : Prop :=
  Mirrored ρ f (x.run s) (y.run (s.rename ρ))

namespace Mirrors

variable {α β γ δ : Type} {f : α → β} {g : γ → δ} {s : Store}

theorem pure (hs : s.arena.TagsNamed) (a : α) :
    Mirrors ρ f s (Pure.pure a) (Pure.pure (f a)) :=
  .ok a hs

theorem throw {e e' : Error} (h : e'.outline = e.outline) :
    Mirrors ρ f s (MonadExcept.throw e) (MonadExcept.throw e') :=
  .error h

theorem bind {x : Action α} {y : Action β} {k : α → Action γ} {l : β → Action δ}
    (h : Mirrors ρ f s x y)
    (hnext : ∀ a s', Gives x s a s' → s'.arena.TagsNamed → Mirrors ρ g s' (k a) (l (f a))) :
    Mirrors ρ g s (x >>= k) (y >>= l) := by
  unfold Mirrors at h ⊢
  rw [EStateM.run_bind, EStateM.run_bind]
  generalize hx : x.run s = r, y.run (s.rename ρ) = r' at h ⊢
  cases h with
  | ok a hnamed => exact hnext a _ hx hnamed
  | error h => exact .error h

theorem get_bind {k : Store → Action γ} {l : Store → Action δ}
    (h : Mirrors ρ g s (k s) (l (s.rename ρ))) : Mirrors ρ g s (get >>= k) (get >>= l) :=
  h

theorem check (hs : s.arena.TagsNamed) {x : Except Error α} {y : Except Error β}
    (h : UnitAnalysis.Mirrors f x y) : Mirrors ρ f s (liftM x) (liftM y) := by
  cases h with
  | ok a => exact .ok a hs
  | error h => exact .error h

theorem check_bind {x : Except Error α} {y : Except Error β} {k : α → Action γ}
    {l : β → Action δ} (h : UnitAnalysis.Mirrors f x y)
    (hnext : ∀ a, x = .ok a → Mirrors ρ g s (k a) (l (f a))) :
    Mirrors ρ g s (liftM x >>= k) (liftM y >>= l) := by
  cases h with
  | ok a => exact hnext a rfl
  | error h => exact .error h

theorem ask (hs : s.arena.TagsNamed) {query : Store → Except Error α}
    {query' : Store → Except Error β}
    (h : UnitAnalysis.Mirrors f (query s) (query' (s.rename ρ))) :
    Mirrors ρ f s (Effects.ask query) (Effects.ask query') :=
  get_bind (.check hs h)

theorem ask_bind (hs : s.arena.TagsNamed) {query : Store → Except Error α}
    {query' : Store → Except Error β} {k : α → Action γ} {l : β → Action δ}
    (h : UnitAnalysis.Mirrors f (query s) (query' (s.rename ρ)))
    (hnext : ∀ a, query s = .ok a → Mirrors ρ g s (k a) (l (f a))) :
    Mirrors ρ g s (Effects.ask query >>= k) (Effects.ask query' >>= l) := by
  refine (ask hs h).bind fun a s' hgives _ => ?_
  obtain ⟨ha, rfl⟩ := gives_ask.mp hgives
  exact hnext a ha

theorem update {change change' : Store → Store} (h : (change s).arena.TagsNamed)
    (hchange : change' (s.rename ρ) = (change s).rename ρ) :
    Mirrors ρ id s (modify change) (modify change') := by
  have hok : Mirrored ρ id (.ok () (change s)) (.ok () ((change s).rename ρ)) := .ok () h
  rw [← hchange] at hok
  exact hok

theorem update_get {change : Store → α × Store} {change' : Store → β × Store}
    (h : (change s).2.arena.TagsNamed)
    (hchange : change' (s.rename ρ) = (f (change s).1, (change s).2.rename ρ)) :
    Mirrors ρ f s (modifyGet change) (modifyGet change') := by
  have hok : Mirrored ρ f (.ok (change s).1 (change s).2)
      (.ok (f (change s).1) ((change s).2.rename ρ)) := .ok _ h
  have hrun : (modifyGet change' : Action β).run (s.rename ρ) =
      .ok (change' (s.rename ρ)).1 (change' (s.rename ρ)).2 := rfl
  unfold Mirrors
  rw [hrun, hchange]
  exact hok

theorem forM {act : γ → Action Unit} {act' : δ → Action Unit} {xs : List γ}
    (hs : s.arena.TagsNamed)
    (h : ∀ x ∈ xs, ∀ s : Store, s.arena.TagsNamed → Mirrors ρ id s (act x) (act' (g x))) :
    Mirrors ρ id s (xs.forM act) ((xs.map g).forM act') := by
  induction xs generalizing s with
  | nil => exact .pure hs ()
  | cons x xs ih =>
      refine (h x List.mem_cons_self s hs).bind fun _ s' _ hs' => ?_
      exact ih hs' fun y hy => h y (List.mem_cons_of_mem _ hy)

end Mirrors

end Action

section Actions

variable {s : Store}

/-! ## Declaring -/

theorem mirrors_declare (hρ : Function.Injective ρ) (hs : s.arena.TagsNamed) (p : Place)
    (name : String) (kind : DeclKind) :
    Action.Mirrors ρ id s (declare p name kind) (declare p (ρ name) (kind.rename ρ)) := by
  refine .update_get ((hs.intern name).push name (some p.context) kind) ?_
  have hpush := Arena.push_rename (ρ := ρ) (s.arena.intern name) ⟨some name, some p.context, kind⟩
  rw [← Arena.intern_rename hρ] at hpush
  simp only [Store.rename, Arena.size_rename, id_eq, ← hpush]
  rfl

theorem mirrors_declareVar (hρ : Function.Injective ρ) (hs : s.arena.TagsNamed) (p : Place)
    (name : String) (ty : Ty) :
    Action.Mirrors ρ id s (declareVar p name ty) (declareVar p (ρ name) (ty.rename ρ)) := by
  refine .ask_bind hs (Store.mirrors_checkFresh hρ s p name false) fun _ _ => ?_
  refine .check_bind (Store.mirrors_checkObject name ty) fun _ _ => ?_
  exact mirrors_declare hρ hs p name (.var ty none)

theorem mirrors_declareField (hρ : Function.Injective ρ) (hs : s.arena.TagsNamed) (p : Place)
    (name : String) (ty : Ty) :
    Action.Mirrors ρ id s (declareField p name ty) (declareField p (ρ name) (ty.rename ρ)) := by
  refine .ask_bind hs (Store.mirrors_checkContext s p .classTag) fun _ _ => ?_
  refine .ask_bind hs (Store.mirrors_checkFresh hρ s p name false) fun _ _ => ?_
  refine .check_bind (Store.mirrors_checkObject name ty) fun _ _ => ?_
  exact mirrors_declare hρ hs p name (.field ty)

theorem mirrors_declareTag (hρ : Function.Injective ρ) (hs : s.arena.TagsNamed) (kind : TagKind)
    (p : Place) (name : String) :
    Action.Mirrors ρ id s (declareTag kind p name) (declareTag kind p (ρ name)) := by
  refine .ask_bind hs (Store.mirrors_checkFresh hρ s p name false) fun _ _ => ?_
  exact mirrors_declare hρ hs p name (.tag kind [])

theorem Store.mirrors_lastEnumerator? (s : Store) (context : DeclId) :
    Mirrors id (Queries.lastEnumerator? s context)
      (Queries.lastEnumerator? (s.rename ρ) context) := by
  have hsame : Queries.lastEnumerator? (s.rename ρ) context =
      (.ok (s.lastEnumerator? context) : Except Error (Option Int64)) :=
    congrArg Except.ok (s.lastEnumerator?_rename context)
  rw [hsame]
  exact .ok _

theorem mirrors_declareEnumerator (hρ : Function.Injective ρ) (hs : s.arena.TagsNamed) (p : Place)
    (name : String) (value : Option Int64) :
    Action.Mirrors ρ id s (declareEnumerator p name value)
      (declareEnumerator p (ρ name) value) := by
  refine .ask_bind hs (Store.mirrors_checkContext s p .enumTag) fun _ _ => ?_
  refine .ask_bind hs (Store.mirrors_checkFresh hρ s p name false) fun _ _ => ?_
  refine .ask_bind hs (s.mirrors_lastEnumerator? p.context) fun last _ => ?_
  rw [id_eq]
  cases value <|> nextEnumerator? last with
  | none => exact .throw rfl
  | some value => exact mirrors_declare hρ hs p name (.enumerator value)

theorem mirrors_declareFunc (hρ : Function.Injective ρ) (hs : s.arena.TagsNamed) (p : Place)
    (name : String) (returnTy : Ty) :
    Action.Mirrors ρ id s (declareFunc p name returnTy)
      (declareFunc p (ρ name) (returnTy.rename ρ)) := by
  refine .ask_bind hs (Store.mirrors_checkFresh hρ s p name true) fun _ _ => ?_
  exact mirrors_declare hρ hs p name (.func (.prototype returnTy))

/-- Changing a declaration commutes with renaming, if the change does. -/
theorem mirrors_modifyKind (hs : s.arena.TagsNamed) (id : DeclId)
    {change change' : DeclKind → DeclKind} (hsort : ∀ k, (change k).sort = k.sort)
    (hchange : ∀ k, change' (k.rename ρ) = (change k).rename ρ) :
    Action.Mirrors ρ (fun x => x) s
      (modify fun s => { s with arena := s.arena.modifyKind id change })
      (modify fun s => { s with arena := s.arena.modifyKind id change' }) := by
  refine .update (hs.modifyKind id hsort) ?_
  simp only [Store.rename, s.arena.modifyKind_rename id hchange]

theorem DeclKind.mapFunc_rename {change change' : Func → Func}
    (h : ∀ f, change' (f.rename ρ) = (change f).rename ρ) (k : DeclKind) :
    (k.rename ρ).mapFunc change' = (k.mapFunc change).rename ρ := by
  cases k with
  | func f => exact congrArg DeclKind.func (h f)
  | _ => rfl

theorem mirrors_addParam (hs : s.arena.TagsNamed) (function param : DeclId) :
    Action.Mirrors ρ (fun x => x) s (addParam function param) (addParam function param) := by
  refine .get_bind (.check_bind (s.arena.mirrors_func ρ function) fun _ _ => ?_)
  exact mirrors_modifyKind hs function (fun k => k.sort_mapFunc _)
    (DeclKind.mapFunc_rename fun _ => rfl)

theorem mirrors_declareParam (hρ : Function.Injective ρ) (hs : s.arena.TagsNamed) (p : Place)
    (function : DeclId) (name : String) (ty : Ty) :
    Action.Mirrors ρ id s (declareParam p function name ty)
      (declareParam p function (ρ name) (ty.rename ρ)) := by
  refine .ask_bind hs (Store.mirrors_checkFresh hρ s p name false) fun _ _ => ?_
  refine .check_bind (Store.mirrors_checkObject name ty) fun _ _ => ?_
  refine (mirrors_declare hρ hs p name (.var ty none)).bind fun param s' _ hs' => ?_
  exact (mirrors_addParam hs' function param).bind fun _ _ _ hs' => .pure hs' param

theorem mirrors_reveal (hs : s.arena.TagsNamed) (p : Place) (id : DeclId) :
    Action.Mirrors ρ (fun x => x) s (reveal p id) (reveal p id) :=
  .update hs rfl

theorem mirrors_enlist (hs : s.arena.TagsNamed) (p : Place) (id : DeclId) :
    Action.Mirrors ρ (fun x => x) s (enlist p id) (enlist p id) := by
  refine .get_bind (.check_bind (s.arena.mirrors_addMember p.context id) fun arena hadd => ?_)
  exact .update (hs.addMember hadd) rfl

theorem mirrors_storeInit (hs : s.arena.TagsNamed) (id : DeclId) (init : Expr) :
    Action.Mirrors ρ (fun x => x) s (storeInit id init) (storeInit id (init.rename ρ)) := by
  refine .get_bind (.check_bind (s.arena.mirrors_varTy ρ id) fun ty _ => ?_)
  refine .check_bind (init.mirrors_initFor ρ ty) fun init _ => ?_
  refine mirrors_modifyKind hs id (fun k => k.sort_setInit init) fun k => ?_
  cases k <;> rfl

/-! ## Brackets -/

theorem mirrors_openScope (hs : s.arena.TagsNamed) (p : Place) :
    Action.Mirrors ρ id s (openScope p) (openScope p) :=
  .update_get hs rfl

theorem mirrors_closeScope (hs : s.arena.TagsNamed) (p : Place) :
    Action.Mirrors ρ id s (closeScope p) (closeScope p) := by
  refine .get_bind (.check_bind (.refl (s.scopes.pop p.scope)) fun popped _ => ?_)
  refine .bind (.update hs rfl) fun _ _ _ hs' => ?_
  exact .pure hs' _

theorem mirrors_enterTag (hs : s.arena.TagsNamed) (p : Place) (tag : DeclId) :
    Action.Mirrors ρ id s (enterTag p tag) (enterTag p tag) := by
  refine .get_bind ?_
  simp only [Store.rename, Arena.sort?_rename]
  split
  · exact (mirrors_openScope hs p).bind fun inner _ _ hs' => .pure hs' _
  · exact .throw rfl

theorem mirrors_leaveTag (hs : s.arena.TagsNamed) (p : Place) :
    Action.Mirrors ρ id s (leaveTag p) (leaveTag p) := by
  refine .get_bind ?_
  simp only [Store.rename, Arena.parent?_rename]
  split
  · exact (mirrors_closeScope hs p).bind fun outer _ _ hs' => .pure hs' _
  · exact .throw rfl

/--
Earlier declarations are looked up by the name that the function is shown
with, so that it must have one.
-/
theorem mirrors_leaveParams (hρ : Function.Injective ρ) (hs : s.arena.TagsNamed) (p : Place)
    {function : DeclId} {name : String} (hname : s.arena.name? function = some name) :
    Action.Mirrors ρ id s (leaveParams p function) (leaveParams p function) := by
  refine (mirrors_closeScope hs p).bind fun outer s' hclose hs' => .get_bind ?_
  obtain ⟨-, -, rfl⟩ := gives_closeScope hclose
  have hshown : (s.closed p.scope).arena.displayName function = name := by
    rw [Store.arena_closed, Arena.displayName, hname, Option.getD_some]
  have hshown' : ((s.closed p.scope).rename ρ).arena.displayName function = ρ name := by
    simp only [Store.rename, Store.arena_closed, Arena.displayName, Arena.name?_rename, hname,
      Option.map_some, Option.getD_some]
  have hothers : ((s.closed p.scope).rename ρ).scopes.lookupLocal
        ((s.closed p.scope).rename ρ).arena outer.scope (ρ name) .function =
      (s.closed p.scope).scopes.lookupLocal (s.closed p.scope).arena outer.scope name .function :=
    ScopeTree.lookupLocal_rename _ _ hρ outer.scope name .function
  simp only [id_eq, hshown, hshown', hothers]
  refine .check_bind (Store.mirrors_previous? _ name function _ none) fun previous _ => ?_
  cases previous with
  | none => exact .pure hs' outer
  | some earlier =>
      refine .bind (mirrors_modifyKind hs' function (fun k => k.sort_mapFunc _)
        (DeclKind.mapFunc_rename fun _ => rfl)) fun _ _ _ hs' => ?_
      exact .pure hs' outer

theorem mirrors_enterBody (hs : s.arena.TagsNamed) (p : Place) (function : DeclId) :
    Action.Mirrors ρ id s (enterBody p function) (enterBody p function) := by
  refine .get_bind (.check_bind (s.arena.mirrors_isDefined ρ function) fun defined _ => ?_)
  cases defined with
  | true => exact .throw rfl
  | false =>
      refine .check_bind (s.arena.mirrors_func ρ function) fun f _ => ?_
      refine (mirrors_openScope hs p).bind fun inner _ _ hs' => ?_
      refine .bind (.update hs' rfl) fun _ _ _ hs' => ?_
      exact .pure hs' _

theorem mirrors_leaveBody (hs : s.arena.TagsNamed) (p : Place) (body : List Stmt) :
    Action.Mirrors ρ id s (leaveBody p body) (leaveBody p (Stmt.renameAll ρ body)) := by
  unfold leaveBody
  cases p.function with
  | none => exact .throw rfl
  | some function =>
      refine .get_bind (.check_bind (s.arena.mirrors_func ρ function) fun f _ => ?_)
      refine .bind (mirrors_modifyKind hs function (fun k => k.sort_mapFunc _)
        (DeclKind.mapFunc_rename fun _ => rfl)) fun _ _ _ hs' => ?_
      exact (mirrors_closeScope hs' p).bind fun outer _ _ hs' => .pure hs' _

end Actions

/-! ## Types and expressions -/

theorem Required.mirrors_check {α β : Type} (f : α → β) (piece : Required α) :
    Mirrors f piece.check (Required.rename ρ f piece).check := by
  cases piece with
  | ok a => exact .ok a
  | error fault => exact .error rfl

theorem TypeSuffix.apply_rename (t : Ty) (suffix : TypeSuffix) :
    suffix.apply (t.rename ρ) = (suffix.apply t).rename ρ := by
  cases suffix with
  | qualifier word => cases t <;> rfl
  | pointer => rfl
  | reference => cases t <;> rfl

theorem TypeSuffix.foldl_apply_rename (suffixes : List TypeSuffix) :
    ∀ t : Ty, suffixes.foldl TypeSuffix.apply (t.rename ρ) =
      (suffixes.foldl TypeSuffix.apply t).rename ρ := by
  induction suffixes with
  | nil => exact fun t => rfl
  | cons suffix suffixes ih =>
      intro t
      rw [List.foldl_cons, apply_rename, ih, List.foldl_cons]

section Trees

variable {s : Store} {p : Place}

theorem TypeTree.mirrors_analyze (hρ : Function.Injective ρ) (hs : s.arena.TagsNamed)
    (tree : TypeTree) :
    Mirrors (Ty.rename ρ) (tree.analyze s p) ((tree.rename ρ).analyze (s.rename ρ) p) := by
  refine (Required.mirrors_check (TypeBase.rename ρ) tree.base).bind fun base _ => ?_
  have hsuffixes : ∀ t : Ty, Mirrors (Ty.rename ρ)
      (pure (tree.suffixes.foldl TypeSuffix.apply (t.withQuals tree.quals)))
      (pure (tree.suffixes.foldl TypeSuffix.apply ((t.rename ρ).withQuals tree.quals))) := by
    intro t
    rw [← Ty.rename_withQuals, TypeSuffix.foldl_apply_rename]
    exact .ok _
  cases base with
  | builtin kind => exact hsuffixes (.ofBuiltin kind)
  | named path => exact (Store.mirrors_namedTy hρ hs path).bind fun t _ => hsuffixes t

mutual

theorem ExprTree.mirrors_analyze (hρ : Function.Injective ρ) (hs : s.arena.TagsNamed) :
    ∀ tree : ExprTree,
      Mirrors (Expr.rename ρ) (tree.analyze s p) ((tree.rename ρ).analyze (s.rename ρ) p)
  | .int value => .ok (Expr.ofInt value)
  | .float value => .ok (Expr.ofFloat value)
  | .bool value => .ok (Expr.ofBool value)
  | .name path => by
      rw [ExprTree.analyze, ExprTree.rename, ExprTree.analyze]
      exact Store.mirrors_nameExpr hρ hs path
  | .call path args => by
      rw [ExprTree.analyze, ExprTree.rename, ExprTree.analyze]
      refine (ExprTree.mirrors_analyzeAll hρ hs args).bind fun args _ => ?_
      exact Store.mirrors_callExpr hρ s p path args
  | .binary op lhs rhs => by
      rw [ExprTree.analyze, ExprTree.rename, ExprTree.analyze]
      refine (ExprTree.mirrors_analyze hρ hs lhs).bind fun l _ => ?_
      refine (ExprTree.mirrors_analyze hρ hs rhs).bind fun r _ => ?_
      exact Expr.mirrors_combine ρ op l r
  | .broken parts fault => by
      rw [ExprTree.analyze, ExprTree.rename, ExprTree.analyze]
      exact (ExprTree.mirrors_analyzeAll hρ hs parts).bind fun _ _ => .error rfl

theorem ExprTree.mirrors_analyzeAll (hρ : Function.Injective ρ) (hs : s.arena.TagsNamed) :
    ∀ trees : List ExprTree,
      Mirrors (Expr.renameAll ρ) (ExprTree.analyzeAll s p trees)
        (ExprTree.analyzeAll (s.rename ρ) p (ExprTree.renameAll ρ trees))
  | [] => .ok []
  | tree :: trees => by
      rw [ExprTree.analyzeAll, ExprTree.renameAll, ExprTree.analyzeAll]
      refine (ExprTree.mirrors_analyze hρ hs tree).bind fun e _ => ?_
      exact (ExprTree.mirrors_analyzeAll hρ hs trees).bind fun es _ => .ok (e :: es)

end

/-! ## Variables and statements -/

theorem VarTree.mirrors_analyze (hρ : Function.Injective ρ) (hs : s.arena.TagsNamed)
    (tree : VarTree) :
    Action.Mirrors ρ id s (tree.analyze p) ((tree.rename ρ).analyze p) := by
  refine .ask_bind hs (tree.type.mirrors_analyze hρ hs) fun ty _ => ?_
  refine .check_bind (Required.mirrors_check ρ tree.name) fun name _ => ?_
  refine (mirrors_declareVar hρ hs p name ty).bind fun id s' _ hs' => ?_
  have hend : ∀ {s : Store}, s.arena.TagsNamed → Action.Mirrors ρ (fun id => id) s
      (do tree.semi.check; reveal p id; pure id)
      (do (tree.rename ρ).semi.check; reveal p id; pure id) := by
    intro s hs
    refine .check_bind (Required.mirrors_check _ tree.semi) fun _ _ => ?_
    exact (mirrors_reveal hs p id).bind fun _ _ _ hs' => .pure hs' id
  unfold VarTree.rename
  cases tree.init with
  | none => exact hend hs'
  | some init =>
      refine .ask_bind hs' (init.mirrors_analyze hρ hs') fun e _ => ?_
      exact (mirrors_storeInit hs' id e).bind fun _ _ _ hs' => hend hs'

mutual

theorem StmtTree.mirrors_analyze (hρ : Function.Injective ρ) {s : Store}
    (hs : s.arena.TagsNamed) (p : Place) :
    ∀ tree : StmtTree,
      Action.Mirrors ρ (Stmt.rename ρ) s (tree.analyze p) ((tree.rename ρ).analyze p)
  | .block body => by
      rw [StmtTree.analyze, StmtTree.rename, StmtTree.analyze]
      refine (mirrors_openScope hs p).bind fun inner _ _ hs' => ?_
      refine (StmtTree.mirrors_analyzeAll hρ hs' inner body).bind fun body _ _ hs' => ?_
      exact (mirrors_closeScope hs' inner).bind fun _ _ _ hs' => .pure hs' (Stmt.compound body)
  | .var tree => by
      rw [StmtTree.analyze, StmtTree.rename, StmtTree.analyze]
      exact (tree.mirrors_analyze hρ hs).bind fun id _ _ hs' => .pure hs' (Stmt.decl id)
  | .ret none semi => by
      rw [StmtTree.analyze, StmtTree.rename, Option.map_none, StmtTree.analyze]
      refine .check_bind (Required.mirrors_check id semi) fun _ _ => ?_
      exact .ask hs (Store.mirrors_returnStmt s p none)
  | .ret (some value) semi => by
      rw [StmtTree.analyze, StmtTree.rename, Option.map_some, StmtTree.analyze]
      refine .ask_bind hs (value.mirrors_analyze hρ hs) fun e _ => ?_
      refine .check_bind (Required.mirrors_check id semi) fun _ _ => ?_
      exact .ask hs (Store.mirrors_returnStmt s p (some e))
  | .expr value semi => by
      rw [StmtTree.analyze, StmtTree.rename, StmtTree.analyze]
      refine .ask_bind hs (value.mirrors_analyze hρ hs) fun e _ => ?_
      exact .check_bind (Required.mirrors_check id semi) fun _ _ => .pure hs (Stmt.expr e)
  | .broken fault => by
      rw [StmtTree.analyze, StmtTree.rename, StmtTree.analyze]
      exact .throw rfl

theorem StmtTree.mirrors_analyzeAll (hρ : Function.Injective ρ) {s : Store}
    (hs : s.arena.TagsNamed) (p : Place) :
    ∀ trees : List StmtTree,
      Action.Mirrors ρ (Stmt.renameAll ρ) s (StmtTree.analyzeAll p trees)
        (StmtTree.analyzeAll p (StmtTree.renameAll ρ trees))
  | [] => by
      rw [StmtTree.analyzeAll, StmtTree.renameAll, StmtTree.analyzeAll]
      exact .pure hs []
  | tree :: trees => by
      rw [StmtTree.analyzeAll, StmtTree.renameAll, StmtTree.analyzeAll]
      refine (StmtTree.mirrors_analyze hρ hs p tree).bind fun stmt _ _ hs' => ?_
      refine (StmtTree.mirrors_analyzeAll hρ hs' p trees).bind fun stmts _ _ hs' => ?_
      exact .pure hs' (stmt :: stmts)

end

/-! ## Functions -/

theorem ParamTree.mirrors_analyze (hρ : Function.Injective ρ) (hs : s.arena.TagsNamed)
    (function : DeclId) (tree : ParamTree) :
    Action.Mirrors ρ id s (tree.analyze p function) ((tree.rename ρ).analyze p function) := by
  refine .ask_bind hs (tree.type.mirrors_analyze hρ hs) fun ty _ => ?_
  refine .check_bind (Required.mirrors_check ρ tree.name) fun name _ => ?_
  refine (mirrors_declareParam hρ hs p function name ty).bind fun id _ _ hs' => ?_
  exact mirrors_reveal hs' p id

theorem BodyTree.mirrors_analyze (hρ : Function.Injective ρ) (hs : s.arena.TagsNamed)
    (function : DeclId) (tree : BodyTree) :
    Action.Mirrors ρ id s (tree.analyze p function) ((tree.rename ρ).analyze p function) := by
  cases tree with
  | prototype => exact .pure hs ()
  | broken fault => exact .throw rfl
  | block body =>
      refine (mirrors_enterBody hs p function).bind fun inner _ _ hs' => ?_
      refine (StmtTree.mirrors_analyzeAll hρ hs' inner body).bind fun stmts _ _ hs' => ?_
      exact (mirrors_leaveBody hs' inner stmts).bind fun _ _ _ hs' => .pure hs' ()

theorem FuncTree.mirrors_analyzeReturn (hρ : Function.Injective ρ) (hs : s.arena.TagsNamed)
    (tree : FuncTree) :
    Action.Mirrors ρ (Ty.rename ρ) s (tree.analyzeReturn p) ((tree.rename ρ).analyzeReturn p) := by
  unfold FuncTree.analyzeReturn FuncTree.rename
  cases tree.returnType with
  | none => exact .pure hs (Ty.ofBuiltin .void)
  | some type => exact .ask hs (type.mirrors_analyze hρ hs)

theorem FuncTree.mirrors_analyzeParams (hρ : Function.Injective ρ) (hs : s.arena.TagsNamed)
    (tree : FuncTree) :
    Action.Mirrors ρ (fun inside => inside) s (tree.analyzeParams p)
      ((tree.rename ρ).analyzeParams p) := by
  refine .check_bind (Required.mirrors_check ρ tree.name) fun name _ => ?_
  refine .check_bind (Required.mirrors_check id tree.parens) fun _ _ => ?_
  refine (tree.mirrors_analyzeReturn hρ hs).bind fun returnTy _ _ hs₁ => ?_
  refine (mirrors_declareFunc hρ hs₁ p name returnTy).bind fun id _ _ hs₂ => ?_
  refine (mirrors_openScope hs₂ p).bind fun inner _ _ hs₃ => ?_
  refine .bind (.forM hs₃ fun tree _ s hs => tree.mirrors_analyze hρ hs id) fun _ _ _ hs₄ => ?_
  exact .check_bind (Required.mirrors_check _ tree.rparen) fun _ _ => .pure hs₄ (inner, id)

theorem FuncTree.mirrors_sign (hρ : Function.Injective ρ) (hs : s.arena.TagsNamed)
    (tree : FuncTree) :
    Action.Mirrors ρ (fun outside => outside) s (tree.sign p) ((tree.rename ρ).sign p) := by
  refine (tree.mirrors_analyzeParams hρ hs).bind ?_
  rintro ⟨inner, id⟩ s₁ hanalyze hs₁
  -- The function has kept its name while its parameters were declared.
  have hname : ∃ name, s₁.arena.name? id = some name := by
    obtain ⟨-, rfl, name, returnTy, params, -, hruns⟩ := FuncTree.runs_of_analyzeParams hanalyze
    refine ⟨name, ?_⟩
    rw [ParamStep.name?_eq_all hruns (by simp)]
    simp [Arena.name?, Store.decl?_declared]
  obtain ⟨name, hname⟩ := hname
  refine (mirrors_leaveParams hρ hs₁ inner hname).bind fun outer s₂ _ hs₂ => ?_
  refine (mirrors_reveal hs₂ outer id).bind fun _ s₃ _ hs₃ => ?_
  exact (mirrors_enlist hs₃ outer id).bind fun _ s₄ _ hs₄ => .pure hs₄ (outer, id)

theorem FuncTree.mirrors_analyze (hρ : Function.Injective ρ) (hs : s.arena.TagsNamed)
    (tree : FuncTree) :
    Action.Mirrors ρ id s (tree.analyze p) ((tree.rename ρ).analyze p) := by
  refine (tree.mirrors_sign hρ hs).bind ?_
  rintro ⟨outer, id⟩ s₁ - hs₁
  exact tree.body.mirrors_analyze hρ hs₁ id

/-! ## Classes and enums -/

theorem FieldTree.mirrors_analyze (hρ : Function.Injective ρ) (hs : s.arena.TagsNamed)
    (tree : FieldTree) :
    Action.Mirrors ρ id s (tree.analyze p) ((tree.rename ρ).analyze p) := by
  refine .ask_bind hs (tree.type.mirrors_analyze hρ hs) fun ty _ => ?_
  refine .check_bind (Required.mirrors_check ρ tree.name) fun name _ => ?_
  refine (mirrors_declareField hρ hs p name ty).bind fun id _ _ hs' => ?_
  refine .check_bind (Required.mirrors_check _ tree.semi) fun _ _ => ?_
  exact (mirrors_reveal hs' p id).bind fun _ _ _ hs' => mirrors_enlist hs' p id

theorem MemberTree.mirrors_analyze (hρ : Function.Injective ρ) (hs : s.arena.TagsNamed)
    (tree : MemberTree) :
    Action.Mirrors ρ id s (tree.analyze p) ((tree.rename ρ).analyze p) := by
  cases tree with
  | field tree => exact tree.mirrors_analyze hρ hs
  | func tree => exact tree.mirrors_analyze hρ hs
  | broken fault => exact .throw rfl

theorem EnumeratorTree.mirrors_analyze (hρ : Function.Injective ρ) (hs : s.arena.TagsNamed)
    (tree : EnumeratorTree) :
    Action.Mirrors ρ id s (tree.analyze p) ((tree.rename ρ).analyze p) := by
  refine .check_bind (Required.mirrors_check ρ tree.name) fun name _ => ?_
  have hrest : ∀ value : Option Int64, Action.Mirrors ρ id s
      (do
        let id ← declareEnumerator p name value
        reveal p id
        enlist p id)
      (do
        let id ← declareEnumerator p (ρ name) value
        reveal p id
        enlist p id) := by
    intro value
    refine (mirrors_declareEnumerator hρ hs p name value).bind fun id _ _ hs' => ?_
    exact (mirrors_reveal hs' p id).bind fun _ _ _ hs' => mirrors_enlist hs' p id
  unfold EnumeratorTree.rename
  cases tree.value with
  | none => exact hrest none
  | some value =>
      cases value with
      | ok value => exact hrest (some value)
      | error fault => exact .throw rfl

theorem mirrors_openTag (hρ : Function.Injective ρ) (hs : s.arena.TagsNamed) (kind : TagKind)
    (name : Required String) (lbrace : Required Unit) :
    Action.Mirrors ρ id s (openTag kind p name lbrace)
      (openTag kind p (Required.rename ρ ρ name) (Required.rename ρ id lbrace)) := by
  refine .check_bind (Required.mirrors_check ρ name) fun name _ => ?_
  refine (mirrors_declareTag hρ hs kind p name).bind fun id _ _ hs' => ?_
  refine (mirrors_reveal hs' p id).bind fun _ _ _ hs' => ?_
  refine (mirrors_enlist hs' p id).bind fun _ _ _ hs' => ?_
  exact .check_bind (Required.mirrors_check _ lbrace) fun _ _ => mirrors_enterTag hs' p id

theorem ClassTree.mirrors_analyze (hρ : Function.Injective ρ) (hs : s.arena.TagsNamed)
    (tree : ClassTree) :
    Action.Mirrors ρ id s (tree.analyze p) ((tree.rename ρ).analyze p) := by
  refine (mirrors_openTag hρ hs .classTag tree.name tree.lbrace).bind fun inner _ _ hs' => ?_
  refine .bind (.forM hs' fun member _ s hs => member.mirrors_analyze hρ hs) fun _ _ _ hs' => ?_
  exact (mirrors_leaveTag hs' inner).bind fun _ _ _ hs' => .pure hs' ()

theorem EnumTree.mirrors_analyze (hρ : Function.Injective ρ) (hs : s.arena.TagsNamed)
    (tree : EnumTree) :
    Action.Mirrors ρ id s (tree.analyze p) ((tree.rename ρ).analyze p) := by
  refine (mirrors_openTag hρ hs .enumTag tree.name tree.lbrace).bind fun inner _ _ hs' => ?_
  refine .bind (.forM hs' fun member _ s hs => member.mirrors_analyze hρ hs) fun _ _ _ hs' => ?_
  refine .check_bind (Required.mirrors_check id tree.rbrace) fun _ _ => ?_
  exact (mirrors_leaveTag hs' inner).bind fun _ _ _ hs' => .pure hs' ()

/-! ## Units -/

theorem ItemTree.mirrors_analyze (hρ : Function.Injective ρ) (hs : s.arena.TagsNamed)
    (tree : ItemTree) :
    Action.Mirrors ρ id s (tree.analyze p) ((tree.rename ρ).analyze p) := by
  cases tree with
  | classItem item => exact item.mirrors_analyze hρ hs
  | enumItem item => exact item.mirrors_analyze hρ hs
  | funcItem item => exact item.mirrors_analyze hρ hs
  | varItem item =>
      exact (item.mirrors_analyze hρ hs).bind fun id _ _ hs' => mirrors_enlist hs' p id
  | broken fault => exact .throw rfl

end Trees

theorem Arena.tagsNamed_empty : Arena.empty.TagsNamed := by
  intro id kind hsort
  have hlt := sort?_eq_some_lt hsort
  obtain rfl : id = 0 := Nat.lt_one_iff.mp hlt
  cases hsort

/--
Renaming the names of a unit renames its declarations and changes nothing else,
and a unit that is refused stays refused for the same reason.
-/
theorem analyze_rename (hρ : Function.Injective ρ) (tokens : List Token) :
    Mirrors (Arena.rename ρ) (analyze tokens) (analyze (tokens.map (Token.rename ρ))) := by
  have hrun : Action.Mirrors ρ id .empty (analyzeItems (readItems tokens))
      (analyzeItems (readItems (tokens.map (Token.rename ρ)))) := by
    rw [readItems_rename]
    exact .forM Arena.tagsNamed_empty fun item _ s hs => item.mirrors_analyze hρ hs
  unfold analyze
  unfold Action.Mirrors at hrun
  have hempty : Store.empty.rename ρ = Store.empty := by
    simp [Store.rename, Store.empty, Arena.rename, Arena.empty, Decl.rename, DeclKind.rename]
  rw [hempty] at hrun
  generalize (analyzeItems (readItems tokens) : Action Unit).run .empty = r,
    (analyzeItems (readItems (tokens.map (Token.rename ρ))) : Action Unit).run .empty = r'
    at hrun ⊢
  cases hrun with
  | ok _ hs => exact .ok _
  | error h => exact .error h

/-- `enum E { A } func f(E x) -> E { return E::A; }`, with an underscore after each name. -/
theorem rename_enum_unit : ∃ a, analyze
    [.keyword .enumKw, .name "E", .mark .lbrace, .name "A", .mark .rbrace, .keyword .funcKw,
      .name "f", .mark .lparen, .name "E", .name "x", .mark .rparen, .mark .arrow, .name "E",
      .mark .lbrace, .keyword .returnKw, .name "E", .mark .colons, .name "A", .mark .semi,
      .mark .rbrace] = .ok a ∧
    analyze
    [.keyword .enumKw, .name "E_", .mark .lbrace, .name "A_", .mark .rbrace, .keyword .funcKw,
      .name "f_", .mark .lparen, .name "E_", .name "x_", .mark .rparen, .mark .arrow, .name "E_",
      .mark .lbrace, .keyword .returnKw, .name "E_", .mark .colons, .name "A_", .mark .semi,
      .mark .rbrace] = .ok (a.rename (· ++ "_")) := by
  refine Check.exists_ok_and (by decide +kernel) fun a h => ?_
  have hinjective : Function.Injective (· ++ "_") := by
    intro x y hxy
    simpa using hxy
  simpa [Token.rename] using (analyze_rename hinjective _).eq_ok h

end UnitAnalysis
