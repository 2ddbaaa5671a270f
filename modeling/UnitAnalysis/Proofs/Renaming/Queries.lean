import UnitAnalysis.Proofs.Renaming.Basic
import UnitAnalysis.Proofs.Resolution

/-!
# Queries of a renamed store

Conversions look at no name at all, and lookups compare names only for
equality, which an injective renaming keeps.  Every query therefore has the
same outcome in a store and in the renamed one: renamed results, or errors that
differ in their texts only.  Main statements: `Store.mirrors_nameExpr`,
`Store.mirrors_namedTy` and `Store.mirrors_callExpr`.
-/

namespace UnitAnalysis

/-! ## Outcomes -/

/-- Two outcomes that differ by `f` in their results, or in the texts of their errors. -/
inductive Mirrors {α β : Type} (f : α → β) : Except Error α → Except Error β → Prop where
  | ok (a : α) : Mirrors f (.ok a) (.ok (f a))
  | error {e e' : Error} (h : e'.outline = e.outline) : Mirrors f (.error e) (.error e')

namespace Mirrors

variable {α β γ δ : Type} {f : α → β} {g : γ → δ}

theorem refl (x : Except Error α) : Mirrors id x x := by
  cases x with
  | ok a => exact .ok a
  | error e => exact .error rfl

theorem eq_ok {x : Except Error α} {y : Except Error β} (h : Mirrors f x y) {a : α}
    (hx : x = .ok a) : y = .ok (f a) := by
  subst hx
  cases h
  rfl

theorem bind {x : Except Error α} {y : Except Error β} {k : α → Except Error γ}
    {l : β → Except Error δ} (h : Mirrors f x y)
    (hnext : ∀ a, x = .ok a → Mirrors g (k a) (l (f a))) :
    Mirrors g (x >>= k) (y >>= l) := by
  cases h with
  | ok a => exact hnext a rfl
  | error h => exact .error h

theorem mapM {k : γ → Except Error α} {l : δ → Except Error β} {xs : List γ}
    (h : ∀ x ∈ xs, Mirrors f (k x) (l (g x))) :
    Mirrors (List.map f) (xs.mapM k) ((xs.map g).mapM l) := by
  induction xs with
  | nil => exact .ok []
  | cons x xs ih =>
      rw [List.map_cons, List.mapM_cons, List.mapM_cons]
      refine .bind (h x List.mem_cons_self) fun a _ => ?_
      exact .bind (ih fun y hy => h y (List.mem_cons_of_mem _ hy)) fun as _ => .ok (a :: as)

theorem map {x y : Except Error α} (h : Mirrors id x y) (k : α → γ) :
    Mirrors id (x.map k) (y.map k) := by
  cases h with
  | ok a => exact .ok (k a)
  | error h => exact .error h

theorem mapError {ε : Type} {wrap wrap' : ε → Error} (x : Except ε α)
    (h : ∀ e, (wrap' e).outline = (wrap e).outline) :
    Mirrors id (x.mapError wrap) (x.mapError wrap') := by
  cases x with
  | ok a => exact .ok a
  | error e => exact .error (h e)

end Mirrors

variable (ρ : String → String)

/-! ## Types -/

namespace Ty

@[simp] theorem quals_rename (t : Ty) : (t.rename ρ).quals = t.quals := by
  cases t <;> rfl

@[simp] theorem rename_withQuals (q : Qualifiers) (t : Ty) :
    (t.withQuals q).rename ρ = (t.rename ρ).withQuals q := by
  cases t <;> rfl

@[simp] theorem builtin?_rename (t : Ty) : (t.rename ρ).builtin? = t.builtin? := by
  cases t <;> rfl

@[simp] theorem referent?_rename (t : Ty) :
    (t.rename ρ).referent? = t.referent?.map (rename ρ) := by
  cases t <;> rfl

@[simp] theorem isBuiltin_rename (t : Ty) : (t.rename ρ).isBuiltin = t.isBuiltin := by
  simp [isBuiltin]

@[simp] theorem isReference_rename (t : Ty) : (t.rename ρ).isReference = t.isReference := by
  simp [isReference]

@[simp] theorem isVoid_rename (t : Ty) : (t.rename ρ).isVoid = t.isVoid := by
  simp [isVoid]

@[simp] theorem isBool_rename (t : Ty) : (t.rename ρ).isBool = t.isBool := by
  simp [isBool]

@[simp] theorem isConst_rename (t : Ty) : (t.rename ρ).isConst = t.isConst := by
  simp [isConst]

@[simp] theorem deref_rename (t : Ty) : (t.rename ρ).deref = t.deref.rename ρ := by
  cases t <;> rfl

@[simp] theorem same_rename (s t : Ty) : (s.rename ρ).same (t.rename ρ) = s.same t := by
  induction s generalizing t <;> cases t <;> simp_all [rename, same]

@[simp] theorem sameShape_rename (s t : Ty) :
    (s.rename ρ).sameShape (t.rename ρ) = s.sameShape t := by
  simp [sameShape, ← rename_withQuals]

@[simp] theorem sameAll_rename (ss ts : List Ty) :
    sameAll (ss.map (rename ρ)) (ts.map (rename ρ)) = sameAll ss ts := by
  induction ss generalizing ts <;> cases ts <;> simp_all [sameAll]

@[simp] theorem castShape_rename (s t : Ty) :
    (s.rename ρ).castShape (t.rename ρ) = s.castShape t := by
  cases s <;> cases t <;> simp [rename, castShape]

@[simp] theorem castRule_rename (s t : Ty) :
    (s.rename ρ).castRule (t.rename ρ) = s.castRule t := by
  simp [castRule]

theorem canCast_rename (s t : Ty) : (s.rename ρ).canCast (t.rename ρ) = s.canCast t := by
  simp [canCast]

theorem common?_rename (s t : Ty) :
    (s.rename ρ).common? (t.rename ρ) = (s.common? t).map (rename ρ) := by
  unfold common?
  rw [deref_rename, deref_rename]
  cases s.deref <;> cases t.deref <;> simp only [rename, Option.map_none]
  split <;> rfl

theorem mirrors_requireCast (s t : Ty) :
    Mirrors id (s.requireCast t) ((s.rename ρ).requireCast (t.rename ρ)) := by
  unfold requireCast
  rw [castRule_rename]
  exact .mapError _ fun _ => rfl

end Ty

/-! ## Expressions -/

namespace Expr

theorem renameAll_eq_map (es : List Expr) : renameAll ρ es = es.map (rename ρ) := by
  induction es with
  | nil => rfl
  | cons e es ih => rw [renameAll, ih, List.map_cons]

@[simp] theorem typing_rename (e : Expr) : (e.rename ρ).typing = e.typing.rename ρ := by
  cases e <;> simp only [rename, typing]

@[simp] theorem ty_rename (e : Expr) : (e.rename ρ).ty = e.ty.rename ρ := by
  simp [ty, Typing.rename]

@[simp] theorem isLvalue_rename (e : Expr) : (e.rename ρ).isLvalue = e.isLvalue := by
  simp [isLvalue, Typing.rename]

@[simp] theorem isRvalue_rename (e : Expr) : (e.rename ρ).isRvalue = e.isRvalue := by
  simp [isRvalue, Typing.rename]

@[simp] theorem rename_loaded (e : Expr) : e.loaded.rename ρ = (e.rename ρ).loaded := by
  unfold loaded
  rw [isRvalue_rename]
  split
  · rfl
  · simp [rename, Typing.rename]

@[simp] theorem rename_casted (e : Expr) (target : Ty) (kind : Option CastKind) :
    (e.casted target kind).rename ρ = (e.rename ρ).casted (target.rename ρ) kind := by
  cases kind <;> simp [casted, rename, Typing.rename]

theorem mirrors_convert (e : Expr) (target : Ty) :
    Mirrors (rename ρ) (e.convert target) ((e.rename ρ).convert (target.rename ρ)) := by
  unfold convert
  rw [ty_rename]
  refine (e.ty.mirrors_requireCast ρ target).bind fun kind _ => ?_
  rw [id_eq, ← rename_casted, ← rename_loaded]
  exact .ok _

@[simp] theorem bindRule_rename (referent : Ty) (e : Expr) :
    (e.rename ρ).bindRule (referent.rename ρ) = e.bindRule referent := by
  simp [bindRule]

theorem mirrors_bindTo (e : Expr) (referent : Ty) :
    Mirrors (rename ρ) (e.bindTo referent) ((e.rename ρ).bindTo (referent.rename ρ)) := by
  unfold bindTo requireBind
  rw [bindRule_rename]
  refine .bind (.mapError (e.bindRule referent) fun failure => ?_) fun _ _ => .ok e
  cases failure <;> rfl

theorem mirrors_pass (e : Expr) (target : Ty) :
    Mirrors (rename ρ) (e.pass target) ((e.rename ρ).pass (target.rename ρ)) := by
  cases target with
  | reference q referent => exact e.mirrors_bindTo ρ referent
  | builtin q kind => exact e.mirrors_convert ρ (.builtin q kind)
  | pointer q pointee => exact e.mirrors_convert ρ (.pointer q pointee)
  | tag q kind decl name => exact e.mirrors_convert ρ (.tag q kind decl name)

theorem canPass_rename (e : Expr) (target : Ty) :
    (e.rename ρ).canPass (target.rename ρ) = e.canPass target := by
  have hcast : ∀ t, (e.rename ρ).ty.canCast (Ty.rename ρ t) = e.ty.canCast t := by
    intro t
    rw [ty_rename, Ty.canCast_rename]
  cases target with
  | reference q referent => simp [Ty.rename, canPass, canBind]
  | builtin q kind => exact hcast (.builtin q kind)
  | pointer q pointee => exact hcast (.pointer q pointee)
  | tag q kind decl name => exact hcast (.tag q kind decl name)

theorem mirrors_initFor (e : Expr) (target : Ty) :
    Mirrors (rename ρ) (e.initFor target) ((e.rename ρ).initFor (target.rename ρ)) := by
  cases target with
  | reference q referent => exact e.mirrors_bindTo ρ referent
  | builtin q kind =>
      have hrule := e.ty.castRule_rename ρ (.builtin q kind)
      simp only [Ty.rename, initFor, ty_rename, Ty.deref_rename, Ty.isBuiltin_rename] at hrule ⊢
      rw [hrule]
      split
      · cases e.ty.castRule (.builtin q kind) with
        | ok kind' =>
            simp only
            rw [← Ty.rename, ← rename_casted, ← rename_loaded]
            exact .ok _
        | error failure => exact .error rfl
      · exact .error rfl
  | pointer q pointee => exact .error rfl
  | tag q kind decl name => exact .error rfl

theorem mirrors_assign (lhs rhs : Expr) :
    Mirrors (rename ρ) (lhs.assign rhs) ((lhs.rename ρ).assign (rhs.rename ρ)) := by
  unfold assign
  simp only [isLvalue_rename, ty_rename, Ty.isConst_rename, Ty.deref_rename]
  cases !lhs.isLvalue with
  | true => exact .error rfl
  | false =>
      cases lhs.ty.isConst || lhs.ty.deref.isConst with
      | true => exact .error rfl
      | false =>
          refine .bind (rhs.mirrors_convert ρ lhs.ty.deref) fun value _ => ?_
          exact .ok (Expr.binary ⟨lhs.ty, .rvalue⟩ .assign lhs value)

theorem mirrors_requireBool (op : BinaryOp) (e : Expr) :
    Mirrors id (e.requireBool op) ((e.rename ρ).requireBool op) := by
  simp only [requireBool, ty_rename, Ty.deref_rename, Ty.isBool_rename]
  split
  · exact .ok ()
  · exact .error rfl

theorem mirrors_logical (op : BinaryOp) (lhs rhs : Expr) :
    Mirrors (rename ρ) (logical op lhs rhs) (logical op (lhs.rename ρ) (rhs.rename ρ)) := by
  refine .bind (lhs.mirrors_requireBool ρ op) fun _ _ => ?_
  refine .bind (rhs.mirrors_requireBool ρ op) fun _ _ => ?_
  rw [← rename_loaded, ← rename_loaded]
  exact .ok (Expr.binary ⟨.ofBuiltin .bool, .rvalue⟩ op lhs.loaded rhs.loaded)

theorem mirrors_algebra (op : BinaryOp) (lhs rhs : Expr) :
    Mirrors (rename ρ) (algebra op lhs rhs) (algebra op (lhs.rename ρ) (rhs.rename ρ)) := by
  unfold algebra
  rw [ty_rename, ty_rename, Ty.common?_rename]
  cases lhs.ty.common? rhs.ty with
  | none => exact .error rfl
  | some common =>
      refine .bind (lhs.mirrors_convert ρ common) fun l _ => ?_
      refine .bind (rhs.mirrors_convert ρ common) fun r _ => ?_
      cases op.isComparison
      · exact .ok (Expr.binary ⟨common, .rvalue⟩ op l r)
      · exact .ok (Expr.binary ⟨.ofBuiltin .bool, .rvalue⟩ op l r)

theorem mirrors_combine (op : BinaryOp) (lhs rhs : Expr) :
    Mirrors (rename ρ) (combine op lhs rhs) (combine op (lhs.rename ρ) (rhs.rename ρ)) := by
  unfold combine
  split
  · exact lhs.mirrors_assign ρ rhs
  · split
    · exact mirrors_logical ρ op lhs rhs
    · exact mirrors_algebra ρ op lhs rhs

end Expr

/-! ## Declarations -/

namespace DeclKind

@[simp] theorem sort_rename (k : DeclKind) : (k.rename ρ).sort = k.sort := by
  cases k <;> rfl

@[simp] theorem members?_rename (k : DeclKind) : (k.rename ρ).members? = k.members? := by
  cases k <;> rfl

@[simp] theorem enumeratorValue?_rename (k : DeclKind) :
    (k.rename ρ).enumeratorValue? = k.enumeratorValue? := by
  cases k <;> rfl

end DeclKind

namespace Arena

variable (a : Arena) (id : DeclId)

@[simp] theorem size_rename : (a.rename ρ).size = a.size := by
  simp [rename, size]

@[simp] theorem decl?_rename : (a.rename ρ).decl? id = (a.decl? id).map (Decl.rename ρ) := by
  simp [rename, decl?]

@[simp] theorem kind?_rename : (a.rename ρ).kind? id = (a.kind? id).map (DeclKind.rename ρ) := by
  simp [kind?, Function.comp_def, Decl.rename]

@[simp] theorem sort?_rename : (a.rename ρ).sort? id = a.sort? id := by
  simp [sort?, Function.comp_def]

@[simp] theorem parent?_rename : (a.rename ρ).parent? id = a.parent? id := by
  simp [parent?, Option.bind_map, Function.comp_def, Decl.rename]

@[simp] theorem name?_rename : (a.rename ρ).name? id = (a.name? id).map ρ := by
  cases hd : a.decl? id <;> simp [name?, hd, Decl.rename]

@[simp] theorem members?_rename : (a.rename ρ).members? id = a.members? id := by
  cases hk : a.kind? id <;> simp [members?, hk]

@[simp] theorem isContext_rename : (a.rename ρ).isContext id = a.isContext id := by
  simp [isContext]

theorem mirrors_func : Mirrors (Func.rename ρ) (a.func id) ((a.rename ρ).func id) := by
  unfold func
  rw [kind?_rename]
  cases a.kind? id with
  | none => exact .error rfl
  | some k =>
      cases k with
      | func f => exact .ok f
      | _ => exact .error rfl

theorem mirrors_varTy : Mirrors (Ty.rename ρ) (a.varTy id) ((a.rename ρ).varTy id) := by
  unfold varTy
  rw [kind?_rename]
  cases a.kind? id with
  | none => exact .error rfl
  | some k =>
      cases k with
      | var ty init => exact .ok ty
      | _ => exact .error rfl

theorem mirrors_paramTys :
    Mirrors (List.map (Ty.rename ρ)) (a.paramTys id) ((a.rename ρ).paramTys id) := by
  refine (a.mirrors_func ρ id).bind fun f _ => ?_
  have hparams : ∀ param ∈ f.params, Mirrors (Ty.rename ρ) (a.varTy param)
      ((a.rename ρ).varTy param) := fun param _ => a.mirrors_varTy ρ param
  simpa [Func.rename] using Mirrors.mapM (g := fun param => param) hparams

theorem mirrors_firstWithin (steps : Nat) :
    ∀ id, Mirrors (fun first => first) (a.firstWithin steps id)
      ((a.rename ρ).firstWithin steps id) := by
  induction steps with
  | zero => exact fun id => .ok id
  | succ steps ih =>
      intro id
      refine (a.mirrors_func ρ id).bind fun f _ => ?_
      cases hprevious : f.previous with
      | none =>
          simp only [Func.rename, hprevious]
          exact .ok id
      | some earlier =>
          simp only [Func.rename, hprevious]
          exact ih earlier

theorem mirrors_firstDeclaration :
    Mirrors (fun first => first) (a.firstDeclaration id)
      ((a.rename ρ).firstDeclaration id) := by
  unfold firstDeclaration
  rw [size_rename]
  exact a.mirrors_firstWithin ρ a.size id

theorem mirrors_definedWithin (steps : Nat) :
    ∀ id, Mirrors (fun defined => defined) (a.definedWithin steps id)
      ((a.rename ρ).definedWithin steps id) := by
  induction steps with
  | zero => exact fun id => .ok false
  | succ steps ih =>
      intro id
      refine (a.mirrors_func ρ id).bind fun f _ => ?_
      have hdefinition : (f.rename ρ).isDefinition = f.isDefinition := by
        simp [Func.isDefinition, Func.rename]
      rw [hdefinition]
      split
      · exact .ok true
      · cases hprevious : f.previous with
        | none =>
            simp only [Func.rename, hprevious]
            exact .ok false
        | some earlier =>
            simp only [Func.rename, hprevious]
            exact ih earlier

theorem mirrors_isDefined :
    Mirrors (fun defined => defined) (a.isDefined id) ((a.rename ρ).isDefined id) := by
  unfold isDefined
  rw [size_rename]
  exact a.mirrors_definedWithin ρ a.size id

/-- Classes and enums have names, so that the text of their types changes with their names. -/
def TagsNamed (a : Arena) : Prop :=
  ∀ ⦃id kind⦄, a.sort? id = some (.tag kind) → ∃ name, a.name? id = some name

variable {a}

theorem TagsNamed.tagTy?_rename (h : a.TagsNamed) (id : DeclId) :
    (a.rename ρ).tagTy? id = (a.tagTy? id).map (Ty.rename ρ) := by
  unfold tagTy?
  rw [sort?_rename]
  split
  · rename_i kind hsort
    obtain ⟨name, hname⟩ := h hsort
    simp [displayName, hname, Ty.rename]
  · rfl

theorem TagsNamed.valueTy?_rename (h : a.TagsNamed) (id : DeclId) :
    (a.rename ρ).valueTy? id = (a.valueTy? id).map (Ty.rename ρ) := by
  unfold valueTy?
  rw [kind?_rename, parent?_rename]
  cases a.kind? id with
  | none => rfl
  | some k =>
      cases k with
      | enumerator value =>
          cases hparent : a.parent? id with
          | none => rfl
          | some parent => exact h.tagTy?_rename ρ parent
      | _ => rfl

end Arena

/-! ## Lookup -/

section Lookup

variable {ρ}

theorem Arena.name?_rename_beq (hρ : Function.Injective ρ) (a : Arena) (id : DeclId)
    (name : String) :
    ((a.rename ρ).name? id == some (ρ name)) = (a.name? id == some name) := by
  rw [Arena.name?_rename]
  cases a.name? id with
  | none => rfl
  | some found => simp [hρ.eq_iff]

theorem Arena.membersNamed_rename (hρ : Function.Injective ρ) (a : Arena) (context : DeclId)
    (name : String) : (a.rename ρ).membersNamed context (ρ name) = a.membersNamed context name := by
  simp only [membersNamed, members?_rename, name?_rename_beq hρ]

namespace ScopeTree

variable (t : ScopeTree) (a : Arena)

theorem lookupLocal_rename (hρ : Function.Injective ρ) (id : ScopeId) (name : String)
    (sel : Selector) :
    t.lookupLocal (a.rename ρ) id (ρ name) sel = t.lookupLocal a id name sel := by
  refine List.filter_congr fun x _ => ?_
  simp only [matchesDecl, Arena.name?_rename_beq hρ, Arena.sort?_rename]

theorem lookup_rename (hρ : Function.Injective ρ) (id : ScopeId) (name : String)
    (sel : Selector) : t.lookup (a.rename ρ) id (ρ name) sel = t.lookup a id name sel := by
  have hlocal := fun x => t.lookupLocal_rename a hρ x name sel
  fun_induction t.lookup a id name sel with
  | case1 id hnil parent hup hlt ih =>
      rw [lookup, hlocal, hnil]
      simp only [hup, hlt, if_true]
      exact ih
  | case2 id hnil parent hup hlt =>
      rw [lookup, hlocal, hnil]
      simp only [hup, hlt, if_false]
  | case3 id hnil hup =>
      rw [lookup, hlocal, hnil]
      simp only [hup]
  | case4 id hne =>
      rw [lookup, hlocal]
      split
      · contradiction
      · rfl

theorem mirrors_descend (hρ : Function.Injective ρ) (segments : List String) :
    ∀ (resolved resolved' : String) (found : List DeclId),
      Mirrors id (descend a resolved found segments)
        (descend (a.rename ρ) resolved' found (segments.map ρ)) := by
  induction segments with
  | nil => exact fun _ _ found => .ok found
  | cons segment segments ih =>
      intro resolved resolved' found
      match found with
      | [] => exact .error rfl
      | _ :: _ :: _ => exact .error rfl
      | [context] =>
          simp only [List.map_cons, descend, Arena.isContext_rename, Arena.membersNamed_rename hρ]
          split
          · exact ih _ _ _
          · exact .error rfl

end ScopeTree

namespace Store

variable {s : Store} {p : Place}

theorem mirrors_lookupPath (hρ : Function.Injective ρ) (s : Store) (p : Place) (path : Path)
    (sel : Selector) :
    Mirrors id (s.lookupPath p path sel) ((s.rename ρ).lookupPath p (path.rename ρ) sel) := by
  unfold lookupPath ScopeTree.lookupPath
  simp only [rename, Path.rename, List.isEmpty_map, ScopeTree.lookup_rename _ _ hρ,
    Arena.sort?_rename]
  split
  · exact .ok _
  · exact (ScopeTree.mirrors_descend s.arena hρ path.rest _ _ _).map _

/-! ## Names and calls -/

theorem mirrors_refer (h : s.arena.TagsNamed) (id : DeclId) :
    Mirrors (Expr.rename ρ) (s.refer id) ((s.rename ρ).refer id) := by
  have hvalue := h.valueTy?_rename ρ id
  unfold refer
  simp only [rename, Arena.kind?_rename, hvalue]
  cases s.arena.kind? id with
  | none => exact .error rfl
  | some k =>
      cases k with
      | var ty init => exact .ok (Expr.ref ⟨ty, .lvalue⟩ id)
      | field ty => exact .ok (Expr.ref ⟨ty, .lvalue⟩ id)
      | enumerator value =>
          cases s.arena.valueTy? id with
          | none => exact .error rfl
          | some ty => exact .ok (Expr.ref ⟨ty, .rvalue⟩ id)
      | _ => exact .error rfl

theorem mirrors_nameExpr (hρ : Function.Injective ρ) (h : s.arena.TagsNamed) (path : Path) :
    Mirrors (Expr.rename ρ) (s.nameExpr p path) ((s.rename ρ).nameExpr p (path.rename ρ)) := by
  refine (mirrors_lookupPath hρ s p path .everything).bind fun found _ => ?_
  cases found with
  | nil => exact .error rfl
  | cons id _ => exact mirrors_refer h id

theorem mirrors_namedTy (hρ : Function.Injective ρ) (h : s.arena.TagsNamed) (path : Path) :
    Mirrors (Ty.rename ρ) (s.namedTy p path) ((s.rename ρ).namedTy p (path.rename ρ)) := by
  refine (mirrors_lookupPath hρ s p path .context).bind fun found _ => ?_
  match found with
  | [] => exact .error rfl
  | _ :: _ :: _ => exact .error rfl
  | [id] =>
      simp only [id_eq, rename, h.tagTy?_rename ρ]
      cases s.arena.tagTy? id with
      | none => exact .error rfl
      | some ty => exact .ok ty

theorem mirrors_returnStmt (s : Store) (p : Place) (value : Option Expr) :
    Mirrors (Stmt.rename ρ) (s.returnStmt p value)
      ((s.rename ρ).returnStmt p (value.map (Expr.rename ρ))) := by
  unfold returnStmt
  cases p.function with
  | none => exact .error rfl
  | some function =>
      refine .bind (s.arena.mirrors_func ρ function) fun f _ => ?_
      have hvoid : (f.rename ρ).returnTy.isVoid = f.returnTy.isVoid := by
        simp [Func.rename]
      cases value with
      | none =>
          simp only [Option.map_none, hvoid]
          cases f.returnTy.isVoid with
          | true => exact .ok (Stmt.ret none)
          | false => exact .error rfl
      | some value =>
          simp only [Option.map_some, hvoid]
          cases f.returnTy.isVoid with
          | true => exact .error rfl
          | false =>
              refine .bind (value.mirrors_pass ρ f.returnTy) fun e _ => ?_
              exact .ok (Stmt.ret (some e))

theorem mirrors_candidates (hρ : Function.Injective ρ) (s : Store) (p : Place) (path : Path) :
    Mirrors id (s.candidates p path) ((s.rename ρ).candidates p (path.rename ρ)) := by
  refine (mirrors_lookupPath hρ s p path .function).bind fun found _ => ?_
  have hfirst : ∀ x ∈ found, Mirrors (fun first => first) (s.arena.firstDeclaration x)
      ((s.rename ρ).arena.firstDeclaration x) := fun x _ => s.arena.mirrors_firstDeclaration ρ x
  have hfirsts := Mirrors.mapM (g := fun x => x) hfirst
  simp only [List.map_id_fun'] at hfirsts
  exact hfirsts.bind fun firsts _ => .ok firsts.eraseDups

theorem paramAccepts_rename (s : Store) (param : DeclId) (arg : Expr) :
    (s.rename ρ).paramAccepts param (arg.rename ρ) = s.paramAccepts param arg := by
  have hty : Mirrors (Ty.rename ρ) (s.arena.varTy param) ((s.rename ρ).arena.varTy param) :=
    s.arena.mirrors_varTy ρ param
  unfold paramAccepts
  generalize s.arena.varTy param = x, (s.rename ρ).arena.varTy param = y at hty ⊢
  cases hty with
  | ok ty => exact arg.canPass_rename ρ ty
  | error _ => rfl

theorem isViable_rename (s : Store) (args : List Expr) (function : DeclId) :
    (s.rename ρ).isViable (Expr.renameAll ρ args) function = s.isViable args function := by
  have hfunc : Mirrors (Func.rename ρ) (s.arena.func function) ((s.rename ρ).arena.func function) :=
    s.arena.mirrors_func ρ function
  unfold isViable
  rw [Expr.renameAll_eq_map]
  generalize s.arena.func function = x, (s.rename ρ).arena.func function = y at hfunc ⊢
  cases hfunc with
  | ok f =>
      simp only [Func.arity, Func.rename, List.length_map, List.zip_map_right, List.all_map,
        Function.comp_def, Prod.map, id_eq, paramAccepts_rename]
  | error _ => rfl

theorem mirrors_passAll (s : Store) (params : List DeclId) (args : List Expr) :
    Mirrors (List.map (Expr.rename ρ))
      ((params.zip args).mapM fun (param, arg) => s.passArg param arg)
      ((params.zip (Expr.renameAll ρ args)).mapM fun (param, arg) =>
        (s.rename ρ).passArg param arg) := by
  rw [Expr.renameAll_eq_map, List.zip_map_right]
  refine Mirrors.mapM fun x _ => ?_
  exact (s.arena.mirrors_varTy ρ x.1).bind fun ty _ => x.2.mirrors_pass ρ ty

theorem mirrors_callExpr (hρ : Function.Injective ρ) (s : Store) (p : Place) (path : Path)
    (args : List Expr) :
    Mirrors (Expr.rename ρ) (s.callExpr p path args)
      ((s.rename ρ).callExpr p (path.rename ρ) (Expr.renameAll ρ args)) := by
  refine (mirrors_candidates hρ s p path).bind fun candidates _ => ?_
  have hviable : (s.rename ρ).isViable (Expr.renameAll ρ args) = s.isViable args :=
    funext (s.isViable_rename args)
  simp only [id_eq, hviable]
  cases candidates.isEmpty with
  | true => exact .error rfl
  | false =>
      cases candidates.find? (s.isViable args) with
      | none => exact .error rfl
      | some callee =>
          refine (s.arena.mirrors_func ρ callee).bind fun f _ => ?_
          refine (s.mirrors_passAll f.params args).bind fun passed _ => ?_
          rw [← Expr.renameAll_eq_map]
          exact .ok (Expr.call ⟨f.returnTy, .rvalue⟩ callee passed)

/-! ## Checks of new declarations -/

theorem mirrors_checkFresh (hρ : Function.Injective ρ) (s : Store) (p : Place) (name : String)
    (overloadable : Bool) :
    Mirrors id (s.checkFresh p name overloadable)
      ((s.rename ρ).checkFresh p (ρ name) overloadable) := by
  simp only [checkFresh, rename, ScopeTree.lookupLocal_rename _ _ hρ, Arena.sort?_rename]
  split
  · exact .error rfl
  · exact .ok ()

theorem mirrors_checkContext (s : Store) (p : Place) (kind : TagKind) :
    Mirrors id (s.checkContext p kind) ((s.rename ρ).checkContext p kind) := by
  simp only [checkContext, rename, Arena.sort?_rename]
  split
  · exact .ok ()
  · exact .error rfl

theorem lastEnumerator?_rename (s : Store) (context : DeclId) :
    (s.rename ρ).lastEnumerator? context = s.lastEnumerator? context := by
  simp only [lastEnumerator?, rename, Arena.members?_rename, Arena.kind?_rename, Option.bind_map,
    Function.comp_def, DeclKind.enumeratorValue?_rename]

theorem mirrors_checkObject (name : String) (ty : Ty) :
    Mirrors id (checkObject name ty) (checkObject (ρ name) (ty.rename ρ)) := by
  simp only [checkObject, Ty.isVoid_rename]
  split
  · exact .error rfl
  · exact .ok ()

/-! ## Earlier declarations of a function -/

theorem mirrors_redeclares (s : Store) (name : String) (function other : DeclId) :
    Mirrors id (s.redeclares name function other)
      ((s.rename ρ).redeclares (ρ name) function other) := by
  unfold redeclares
  by_cases hsame : other = function
  · simp only [hsame, if_true]
    exact .ok false
  · simp only [hsame, if_false]
    refine (s.arena.mirrors_paramTys ρ other).bind fun earlier _ => ?_
    refine (s.arena.mirrors_paramTys ρ function).bind fun later _ => ?_
    rw [Ty.sameAll_rename]
    cases Ty.sameAll earlier later with
    | false => exact .ok false
    | true =>
        refine (s.arena.mirrors_func ρ other).bind fun f _ => ?_
        refine (s.arena.mirrors_func ρ function).bind fun g _ => ?_
        simp only [Func.rename, Ty.same_rename]
        cases f.returnTy.same g.returnTy with
        | false => exact .error rfl
        | true => exact .ok true

theorem mirrors_previous? (s : Store) (name : String) (function : DeclId) (others : List DeclId) :
    ∀ last, Mirrors id (s.previous? name function last others)
      ((s.rename ρ).previous? (ρ name) function last others) := by
  induction others with
  | nil => exact fun last => .ok last
  | cons other others ih =>
      intro last
      refine (s.mirrors_redeclares name function other).bind fun repeated _ => ?_
      cases repeated with
      | true => exact ih (some other)
      | false => exact ih last

end Store

end Lookup

end UnitAnalysis
