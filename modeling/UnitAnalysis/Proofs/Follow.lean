import UnitAnalysis.Proofs.Checked
import UnitAnalysis.Proofs.Fault
import UnitAnalysis.Proofs.Resolution
import UnitAnalysis.Proofs.Settled

/-!
# Checked queries give the answers of the plain ones

`Follows s c x faults` compares a checked action with the plain one that it
stands for, in one store: both have the same outcome, an error of theirs is one
of meaning or comes from the given faults, and there are no faults if they
succeed.  This module shows it for everything that only reads the store.  Main
statements: `Store.Ready.answers_nameExpr`, `Store.Ready.answers_namedTy` and
`Store.Ready.answers_callExpr`.
-/

namespace UnitAnalysis

open UnitAnalysis.Action UnitAnalysis.Check

/-! ## Errors of meaning -/

/-- A check that fails only with errors of meaning. -/
def Check.Meant {α : Type} (r : Except Error α) : Prop :=
  ∀ ⦃e⦄, r = .error e → e.ofMeaning = true

namespace Check.Meant

variable {α β : Type}

theorem ok (a : α) : Meant (.ok a) :=
  fun _ h => nomatch h

theorem error {e : Error} (h : e.ofMeaning = true) : Meant (.error e : Except Error α) := by
  rintro _ ⟨⟩
  exact h

theorem bind {r : Except Error α} {f : α → Except Error β} (h : Meant r) (hf : ∀ a, Meant (f a)) :
    Meant (r >>= f) := by
  cases r with
  | ok a => exact hf a
  | error e => exact .error (h rfl)

theorem mapError {ε : Type} (r : Except ε α) {wrap : ε → Error}
    (h : ∀ e, (wrap e).ofMeaning = true) : Meant (r.mapError wrap) := by
  cases r with
  | ok a => exact .ok a
  | error e => exact .error (h e)

end Check.Meant

namespace Expr

theorem meant_convert (e : Expr) (target : Ty) : Meant (e.convert target) :=
  .bind (.mapError _ fun _ => rfl) fun _ => .ok _

theorem meant_bindTo (e : Expr) (referent : Ty) : Meant (e.bindTo referent) := by
  refine .bind (.mapError _ fun failure => ?_) fun _ => .ok _
  cases failure <;> rfl

theorem meant_pass (e : Expr) (target : Ty) : Meant (e.pass target) := by
  unfold pass
  split
  · exact meant_bindTo e _
  · exact meant_convert e _

theorem meant_initFor (e : Expr) (target : Ty) : Meant (e.initFor target) := by
  unfold initFor
  split
  · exact meant_bindTo e _
  · split
    · split
      · exact .ok _
      · exact .error rfl
    · exact .error rfl
  · exact .error rfl

theorem meant_assign (lhs rhs : Expr) : Meant (lhs.assign rhs) := by
  unfold assign
  cases !lhs.isLvalue with
  | true => exact .error rfl
  | false =>
      cases lhs.ty.isConst || lhs.ty.deref.isConst with
      | true => exact .error rfl
      | false => exact .bind (meant_convert rhs lhs.ty.deref) fun _ => .ok _

theorem meant_requireBool (op : BinaryOp) (e : Expr) : Meant (e.requireBool op) := by
  unfold requireBool
  split
  · exact .ok _
  · exact .error rfl

theorem meant_algebra (op : BinaryOp) (lhs rhs : Expr) : Meant (algebra op lhs rhs) := by
  unfold algebra
  split
  · exact .bind (meant_convert _ _) fun _ => .bind (meant_convert _ _) fun _ => .ok _
  · exact .error rfl

theorem meant_combine (op : BinaryOp) (lhs rhs : Expr) : Meant (combine op lhs rhs) := by
  unfold combine
  split
  · exact meant_assign lhs rhs
  · split
    · exact .bind (meant_requireBool op lhs) fun _ =>
        .bind (meant_requireBool op rhs) fun _ => .ok _
    · exact meant_algebra op lhs rhs

end Expr

theorem meant_checkObject (name : String) (ty : Ty) : Meant (checkObject name ty) := by
  unfold checkObject
  split
  · exact .error rfl
  · exact .ok _

/-! ## Comparing outcomes -/

section Follows

variable {α β : Type} {s : Store}

def Checked.wrap : EStateM.Result Error Store α → EStateM.Result Failure Store α
  | .ok a s => .ok a s
  | .error e s => .error (.error e) s

structure Follows (s : Store) (c : Checked α) (x : Action α) (faults : List Fault) : Prop where
  agrees : c.run s = Checked.wrap (x.run s)
  blames : ∀ {e s'}, x.run s = .error e s' → e.Blames faults
  clean : ∀ {a s'}, x.run s = .ok a s' → faults = []

theorem Checked.run_bind {c : Checked α} {f : α → Checked β} {a : α} {s' : Store}
    (h : c.run s = .ok a s') : (c >>= f).run s = (f a).run s' := by
  rw [EStateM.run_bind, h]

namespace Follows

variable {c : Checked α} {x : Action α} {faults more : List Fault}

theorem bind {f : α → Checked β} {g : α → Action β} (h : Follows s c x faults)
    (hnext : ∀ a s', Gives x s a s' → Follows s' (f a) (g a) more) :
    Follows s (c >>= f) (x >>= g) (faults ++ more) := by
  cases hx : x.run s with
  | error e t =>
      have hc : c.run s = .error (.error e) t := by
        rw [h.agrees, hx, Checked.wrap]
      refine ⟨?_, ?_, ?_⟩
      · rw [EStateM.run_bind, EStateM.run_bind, hx, hc]
        rfl
      · intro e' s' heq
        rw [EStateM.run_bind, hx] at heq
        cases heq
        exact (h.blames hx).mono (by simp)
      · intro b s' heq
        rw [EStateM.run_bind, hx] at heq
        cases heq
  | ok a t =>
      have hc : c.run s = .ok a t := by
        rw [h.agrees, hx, Checked.wrap]
      obtain rfl := h.clean hx
      have hrest := hnext a t hx
      have hg : (x >>= g).run s = (g a).run t := by
        rw [EStateM.run_bind, hx]
      exact ⟨by rw [Checked.run_bind hc, hg, hrest.agrees], fun heq => hrest.blames (hg ▸ heq),
        fun heq => hrest.clean (hg ▸ heq)⟩

theorem bind_nil {f : α → Checked β} {g : α → Action β} (h : Follows s c x faults)
    (hnext : ∀ a s', Gives x s a s' → Follows s' (f a) (g a) []) :
    Follows s (c >>= f) (x >>= g) faults := by
  simpa using h.bind hnext

theorem nil_bind {f : α → Checked β} {g : α → Action β} (h : Follows s c x [])
    (hnext : ∀ a s', Gives x s a s' → Follows s' (f a) (g a) faults) :
    Follows s (c >>= f) (x >>= g) faults :=
  h.bind hnext

theorem of_run {a : α} {s' : Store} (hc : c.run s = .ok a s') (hx : x.run s = .ok a s') :
    Follows s c x [] := by
  refine ⟨by rw [hc, hx, Checked.wrap], ?_, fun _ => rfl⟩
  intro e t heq
  rw [hx] at heq
  cases heq

theorem pure (a : α) : Follows s (pure a) (pure a) [] :=
  of_run rfl rfl

theorem throw {e : Error} (he : e.Blames faults) :
    Follows s (Checked.fail e : Checked α) (throw e) faults := by
  refine ⟨rfl, ?_, fun heq => nomatch heq⟩
  intro e' t heq
  cases heq
  exact he

theorem fault (fault : Fault) :
    Follows s (liftM (fault.raise : Except Error α) : Checked α) (liftM fault.raise) [fault] :=
  throw (.inr ⟨fault, by simp, rfl⟩)

theorem run_bind {f : α → Checked β} {y : Action β} {a : α} (hc : c.run s = .ok a s)
    (h : Follows s (f a) y faults) : Follows s (c >>= f) y faults := by
  have hf : (c >>= f).run s = (f a).run s := Checked.run_bind hc
  exact ⟨hf.trans h.agrees, h.blames, h.clean⟩

theorem get {g : Store → Action α} (h : Follows s c (g s) faults) :
    Follows s c (MonadState.get >>= g) faults :=
  ⟨h.agrees, h.blames, h.clean⟩

end Follows

/-- The comparison for queries, which leave the store alone. -/
def Answers (s : Store) (c : Checked α) (r : Except Error α) (faults : List Fault) : Prop :=
  Follows s c (Action.ofExcept r) faults

namespace Answers

variable {c : Checked α} {r : Except Error α} {faults more : List Fault}

theorem follows (h : Answers s c r faults) : Follows s c (liftM r) faults :=
  h

theorem lift {r : Except Error α} (h : Meant r) : Answers s (liftM r) r [] := by
  cases r with
  | ok a => exact .pure a
  | error e => exact .throw (.inl (h rfl))

theorem ok (a : α) : Answers s (pure a) (.ok a) [] :=
  .pure a

theorem error {e : Error} (he : e.ofMeaning = true) :
    Answers s (Checked.fail e : Checked α) (.error e) [] :=
  .throw (.inl he)

theorem run_bind {f : α → Checked β} {r : Except Error β} {a : α} (hc : c.run s = .ok a s)
    (h : Answers s (f a) r faults) : Answers s (c >>= f) r faults :=
  Follows.run_bind hc h

theorem bind {f : α → Checked β} {g : α → Except Error β} (h : Answers s c r faults)
    (hnext : ∀ a, r = .ok a → Answers s (f a) (g a) more) :
    Answers s (c >>= f) (r >>= g) (faults ++ more) := by
  have heq : Action.ofExcept (r >>= g) = Action.ofExcept r >>= fun a => Action.ofExcept (g a) := by
    cases r <;> rfl
  unfold Answers
  rw [heq]
  refine Follows.bind h ?_
  intro a s' hgives
  obtain ⟨hr, rfl⟩ := gives_check.mp hgives
  exact hnext a hr

theorem bind_nil {f : α → Checked β} {g : α → Except Error β} (h : Answers s c r faults)
    (hnext : ∀ a, r = .ok a → Answers s (f a) (g a) []) :
    Answers s (c >>= f) (r >>= g) faults := by
  simpa using h.bind hnext

theorem of_run {a : α} (hc : c.run s = .ok a s) : Answers s c (.ok a) [] :=
  Follows.of_run hc rfl

theorem mapM {f : α → Checked β} {g : α → Except Error β} {as : List α}
    (h : ∀ a ∈ as, Answers s (f a) (g a) []) : Answers s (as.mapM f) (as.mapM g) [] := by
  induction as with
  | nil => exact .ok _
  | cons a as ih =>
      rw [List.mapM_cons, List.mapM_cons]
      refine .bind_nil (h a List.mem_cons_self) fun _ _ => ?_
      exact .bind_nil (ih fun x hx => h x (List.mem_cons_of_mem _ hx)) fun _ _ => .ok _

end Answers

theorem Answers.required {α : Type} (s : Store) (piece : Required α) :
    Answers s (liftM piece.check) piece.check piece.faults := by
  cases piece with
  | ok a => exact .pure a
  | error fault => exact .fault fault

end Follows

/-! ## Declarations and scopes -/

namespace Checked

variable {s : Store} {id : DeclId}

theorem run_decl {d : Decl} (h : s.arena.decl? id = some d) : (decl id).run s = .ok d s := by
  have hget : (get : Checked Store).run s = .ok s s := rfl
  rw [decl, run_bind hget, h]
  rfl

theorem run_scope {x : ScopeId} {sc : Scope} (h : s.scopes.scope? x = some sc) :
    (scope x).run s = .ok sc s := by
  have hget : (get : Checked Store).run s = .ok s s := rfl
  rw [scope, run_bind hget, h]
  rfl

theorem run_modifyDecl (h : id < s.arena.size) (change : DeclKind → DeclKind) :
    (modifyDecl id change).run s = .ok () { s with arena := s.arena.modifyKind id change } := by
  obtain ⟨d, hd⟩ := Arena.exists_decl?_of_lt h
  exact run_bind (run_decl hd)

theorem exists_scope? {x : ScopeId} (h : x < s.scopes.size) : ∃ sc, s.scopes.scope? x = some sc :=
  ⟨_, Array.getElem?_eq_getElem h⟩

theorem run_modifyScope {x : ScopeId} (h : x < s.scopes.size)
    (change : List DeclId → List DeclId) :
    (modifyScope x change).run s =
      .ok () { s with scopes := s.scopes.modifyVisible x change } := by
  obtain ⟨sc, hsc⟩ := exists_scope? h
  exact run_bind (run_scope hsc)

theorem run_select {wanted : Decl → Bool} {ids : List DeclId} (h : ∀ id ∈ ids, id < s.arena.size) :
    (select wanted ids).run s = .ok (ids.filter fun id => (s.arena.decl? id).any wanted) s := by
  induction ids with
  | nil => rfl
  | cons id ids ih =>
      obtain ⟨d, hd⟩ := Arena.exists_decl?_of_lt (h id List.mem_cons_self)
      have hrest := ih fun x hx => h x (List.mem_cons_of_mem _ hx)
      rw [select, run_bind (run_decl hd), run_bind hrest, List.filter_cons, hd]
      rfl

theorem run_func {f : Func} (h : s.arena.func id = .ok f) : (func id).run s = .ok f s := by
  obtain ⟨d, hd, hkind⟩ := Arena.func_eq_ok_iff.mp h
  rw [func, run_bind (run_decl hd), hkind]
  rfl

theorem run_varTy {ty : Ty} (h : s.arena.varTy id = .ok ty) : (varTy id).run s = .ok ty s := by
  obtain ⟨d, init, hd, hkind⟩ := Arena.varTy_eq_ok_iff.mp h
  rw [varTy, run_bind (run_decl hd), hkind]
  rfl

/-- A query that answers for each element answers for the list. -/
theorem run_mapM {α β : Type} {f : α → Checked β} {g : α → Except Error β} {as : List α}
    {bs : List β} (h : as.mapM g = .ok bs)
    (hrun : ∀ a ∈ as, ∀ b, g a = .ok b → (f a).run s = .ok b s) : (as.mapM f).run s = .ok bs s := by
  induction as generalizing bs with
  | nil =>
      cases h
      rfl
  | cons a as ih =>
      simp only [List.mapM_cons, bind_eq_ok, pure_eq_ok] at h
      obtain ⟨b, hb, bs, hbs, rfl⟩ := h
      have hrest := ih hbs fun x hx => hrun x (List.mem_cons_of_mem _ hx)
      rw [List.mapM_cons, run_bind (hrun a List.mem_cons_self b hb), run_bind hrest]
      rfl

theorem run_paramTys {tys : List Ty} (h : s.arena.paramTys id = .ok tys) :
    (paramTys id).run s = .ok tys s := by
  simp only [Arena.paramTys, bind_eq_ok] at h
  obtain ⟨f, hf, htys⟩ := h
  rw [paramTys, run_bind (run_func hf)]
  exact run_mapM htys fun param _ ty hty => run_varTy hty

theorem run_firstWithin {steps : Nat} {first : DeclId}
    (h : s.arena.firstWithin steps id = .ok first) :
    (firstWithin steps id).run s = .ok first s := by
  induction steps generalizing id with
  | zero =>
      cases h
      rfl
  | succ steps ih =>
      simp only [Arena.firstWithin, bind_eq_ok] at h
      obtain ⟨f, hf, h⟩ := h
      rw [firstWithin, run_bind (run_func hf)]
      cases hprevious : f.previous with
      | none =>
          simp only [hprevious] at h
          cases h
          rfl
      | some earlier =>
          simp only [hprevious] at h
          exact ih h

theorem run_firstDeclaration {first : DeclId} (h : s.arena.firstDeclaration id = .ok first) :
    (firstDeclaration id).run s = .ok first s :=
  run_firstWithin h

theorem run_definedWithin {steps : Nat} {defined : Bool}
    (h : s.arena.definedWithin steps id = .ok defined) :
    (definedWithin steps id).run s = .ok defined s := by
  induction steps generalizing id with
  | zero =>
      cases h
      rfl
  | succ steps ih =>
      simp only [Arena.definedWithin, bind_eq_ok] at h
      obtain ⟨f, hf, h⟩ := h
      rw [definedWithin, run_bind (run_func hf)]
      split at h
      · rename_i hdefinition
        cases h
        rw [if_pos hdefinition]
        rfl
      · rename_i hdefinition
        rw [if_neg hdefinition]
        cases hprevious : f.previous with
        | none =>
            simp only [hprevious] at h
            cases h
            rfl
        | some earlier =>
            simp only [hprevious] at h
            exact ih h

theorem run_isDefined {defined : Bool} (h : s.arena.isDefined id = .ok defined) :
    (isDefined id).run s = .ok defined s :=
  run_definedWithin h

theorem run_tagTy? (h : id < s.arena.size) : (tagTy? id).run s = .ok (s.arena.tagTy? id) s := by
  obtain ⟨d, hd⟩ := Arena.exists_decl?_of_lt h
  have hsort : s.arena.sort? id = some d.kind.sort := by
    simp [Arena.sort?, Arena.kind?, hd]
  have hname : s.arena.displayName id = d.displayName := by
    simp [Arena.displayName, Decl.displayName, Arena.name?, hd]
  rw [tagTy?, run_bind (run_decl hd), Arena.tagTy?, hsort, hname]
  cases d.kind.sort <;> rfl

end Checked

/-! ## Stores that answer -/

/-- Functions repeat functions, and enumerators belong to enums. -/
structure Arena.Tied (a : Arena) : Prop where
  previous : ∀ {id f earlier}, a.func id = .ok f → f.previous = some earlier →
    ∃ g, a.func earlier = .ok g
  owned : a.All Arena.Owned

/-- A store in which everything mentioned at a place exists. -/
structure Store.Ready (s : Store) (p : Place) : Prop where
  bounded : s.Bounded
  scope_lt : p.scope < s.scopes.size
  context_lt : p.context < s.arena.size
  tied : s.arena.Tied

theorem Store.Settled.tied {s : Store} {p : Place} (hs : s.Settled p) : s.arena.Tied := by
  refine ⟨?_, hs.owned⟩
  intro id f earlier hf hprevious
  obtain ⟨context, members, hmembers, hid⟩ := hs.funcs hf
  obtain ⟨before, after, heq⟩ := List.append_of_mem hid
  rw [(hs.formed hmembers before id after heq).previous hf] at hprevious
  have hrepeats := (List.mem_filter.mp (List.mem_of_getLast? hprevious)).2
  obtain ⟨-, tys, -, htys, -⟩ := Arena.repeats_iff.mp hrepeats
  exact Arena.func_of_paramTys htys

theorem Store.Settled.ready {s : Store} {p : Place} (hs : s.Settled p) : s.Ready p :=
  ⟨hs.bounded, hs.scope_lt, hs.context_lt, hs.tied⟩

namespace Arena.Tied

variable {a : Arena}

theorem exists_firstWithin (h : a.Tied) (steps : Nat) {id : DeclId} {f : Func}
    (hf : a.func id = .ok f) :
    ∃ first g, a.firstWithin steps id = .ok first ∧ a.func first = .ok g := by
  induction steps generalizing id f with
  | zero => exact ⟨id, f, rfl, hf⟩
  | succ steps ih =>
      rw [firstWithin_succ hf]
      cases hprevious : f.previous with
      | none => exact ⟨id, f, rfl, hf⟩
      | some earlier =>
          obtain ⟨g, hg⟩ := h.previous hf hprevious
          exact ih hg

theorem exists_definedWithin (h : a.Tied) (steps : Nat) {id : DeclId} {f : Func}
    (hf : a.func id = .ok f) : ∃ defined, a.definedWithin steps id = .ok defined := by
  induction steps generalizing id f with
  | zero => exact ⟨false, rfl⟩
  | succ steps ih =>
      rw [definedWithin_succ hf]
      split
      · exact ⟨true, rfl⟩
      · cases hprevious : f.previous with
        | none => exact ⟨false, rfl⟩
        | some earlier =>
            obtain ⟨g, hg⟩ := h.previous hf hprevious
            exact ih hg

theorem exists_firstDeclarations (h : a.Tied) {found : List DeclId}
    (hfound : ∀ id ∈ found, ∃ f, a.func id = .ok f) :
    ∃ firsts, found.mapM a.firstDeclaration = .ok firsts ∧
      ∀ first ∈ firsts, ∃ g, a.func first = .ok g := by
  induction found with
  | nil => exact ⟨[], rfl, by simp⟩
  | cons id found ih =>
      obtain ⟨f, hf⟩ := hfound id List.mem_cons_self
      obtain ⟨first, g, hfirst, hg⟩ := h.exists_firstWithin a.size hf
      obtain ⟨firsts, hfirsts, hall⟩ := ih fun x hx => hfound x (List.mem_cons_of_mem _ hx)
      refine ⟨first :: firsts, ?_, ?_⟩
      · rw [List.mapM_cons, firstDeclaration, hfirst, ok_bind, hfirsts]
        rfl
      · intro x hx
        rcases List.mem_cons.mp hx with rfl | hx
        · exact ⟨g, hg⟩
        · exact hall x hx

end Arena.Tied

/-! ## Names -/

theorem Store.exists_of_lookupPath {s : Store} {p : Place} {path : Path} {sel : Selector}
    {found : List DeclId} (h : s.lookupPath p path sel = .ok found) :
    ∀ id ∈ found, ∃ sort, s.arena.sort? id = some sort ∧ sel.accepts sort = true := by
  intro id hid
  suffices hany : (s.arena.sort? id).any sel.accepts = true by
    simpa [Option.any_eq_true] using hany
  unfold Store.lookupPath ScopeTree.lookupPath at h
  split at h
  · cases h
    obtain ⟨outer, -, hid⟩ := ScopeTree.exists_of_mem_lookup hid
    have hmatches := (List.mem_filter.mp hid).2
    simp only [ScopeTree.matchesDecl, Bool.and_eq_true] at hmatches
    exact hmatches.2
  · obtain ⟨result, -, rfl⟩ := map_eq_ok.mp h
    exact (List.mem_filter.mp hid).2

theorem Store.lt_of_lookupPath {s : Store} {p : Place} {path : Path} {sel : Selector}
    {found : List DeclId} (h : s.lookupPath p path sel = .ok found) :
    ∀ id ∈ found, id < s.arena.size := by
  intro id hid
  obtain ⟨sort, hsort, -⟩ := Store.exists_of_lookupPath h id hid
  exact Arena.sort?_eq_some_lt hsort

namespace Checked

variable {s : Store} {scope : ScopeId}

theorem run_lookupLocal (hs : s.Bounded) (hscope : scope < s.scopes.size) (name : String)
    (sel : Selector) :
    (lookupLocal scope name sel).run s = .ok (s.scopes.lookupLocal s.arena scope name sel) s := by
  obtain ⟨sc, hsc⟩ := exists_scope? hscope
  have hvisible : s.scopes.visible scope = sc.visible := by
    simp [ScopeTree.visible, hsc]
  have hlt := hs.scopes.visible_lt scope
  rw [hvisible] at hlt
  rw [lookupLocal, run_bind (run_scope hsc), run_select hlt, ScopeTree.lookupLocal, hvisible]
  congr 1
  refine List.filter_congr fun id hid => ?_
  obtain ⟨d, hd⟩ := Arena.exists_decl?_of_lt (hlt id hid)
  simp [ScopeTree.matchesDecl, Arena.name?, Arena.sort?, Arena.kind?, hd]

theorem run_lookup (hs : s.Bounded) (hscope : scope < s.scopes.size) (name : String)
    (sel : Selector) :
    (lookup scope name sel).run s = .ok (s.scopes.lookup s.arena scope name sel) s := by
  have hlocal := fun {x} (hx : x < s.scopes.size) => run_lookupLocal hs hx name sel
  have hparent : ∀ {x}, x < s.scopes.size → ∃ sc, s.scopes.scope? x = some sc ∧
      sc.parent = s.scopes.parent? x := by
    intro x hx
    obtain ⟨sc, hsc⟩ := exists_scope? hx
    exact ⟨sc, hsc, by simp [ScopeTree.parent?, hsc]⟩
  fun_induction s.scopes.lookup s.arena scope name sel with
  | case1 scope hnil parent hup hlt ih =>
      obtain ⟨sc, hsc, hsame⟩ := hparent hscope
      rw [lookup, run_bind (hlocal hscope), hnil, run_bind (run_scope hsc), hsame, hup]
      simp only [hlt, if_true]
      exact ih (Nat.lt_trans hlt hscope)
  | case2 scope hnil parent hup hlt =>
      obtain ⟨sc, hsc, hsame⟩ := hparent hscope
      rw [lookup, run_bind (hlocal hscope), hnil, run_bind (run_scope hsc), hsame, hup]
      simp only [hlt, if_false]
      rfl
  | case3 scope hnil hup =>
      obtain ⟨sc, hsc, hsame⟩ := hparent hscope
      rw [lookup, run_bind (hlocal hscope), hnil, run_bind (run_scope hsc), hsame, hup]
      rfl
  | case4 scope hne =>
      rw [lookup, run_bind (hlocal hscope)]
      split
      · contradiction
      · rfl

end Checked

theorem Answers.descend {s : Store} (hs : s.Bounded) (segments : List String) :
    ∀ {resolved : String} {found : List DeclId}, (∀ id ∈ found, id < s.arena.size) →
      Answers s (Checked.descend resolved found segments)
        (ScopeTree.descend s.arena resolved found segments) [] := by
  induction segments with
  | nil => exact fun _ => .ok _
  | cons segment segments ih =>
      intro resolved found hfound
      match found, hfound with
      | [], _ => exact .error rfl
      | _ :: _ :: _, _ => exact .error rfl
      | [context], hfound =>
          obtain ⟨d, hd⟩ := Arena.exists_decl?_of_lt (hfound context List.mem_cons_self)
          refine .run_bind (Checked.run_decl hd) ?_
          rw [ScopeTree.descend, Arena.isContext, Arena.membersNamed, Arena.members?_of_decl? hd]
          cases hmembers : d.kind.members? with
          | none => exact .error rfl
          | some members =>
              have hlt := hs.arena.members_lt (Arena.members?_eq_some_iff.mpr ⟨d, hd, hmembers⟩)
              have hnamed : (members.filter fun id => (s.arena.decl? id).any fun d =>
                  d.name == some segment) =
                  members.filter fun id => s.arena.name? id == some segment := by
                refine List.filter_congr fun id hid => ?_
                obtain ⟨d, hd⟩ := Arena.exists_decl?_of_lt (hlt id hid)
                simp [Arena.name?, hd]
              refine .run_bind (Checked.run_select hlt) ?_
              rw [hnamed]
              exact ih fun id hid => hlt id (List.mem_filter.mp hid).1

namespace Store.Ready

variable {s : Store} {p : Place}

theorem answers_lookupPath (hs : s.Ready p) (path : Path) (sel : Selector) :
    Answers s (Checked.lookupPath p path sel) (s.lookupPath p path sel) [] := by
  have hlookup := fun sel => Checked.run_lookup hs.bounded hs.scope_lt path.first sel
  unfold Checked.lookupPath Store.lookupPath ScopeTree.lookupPath
  split
  · exact .of_run (hlookup sel)
  · rename_i hrest
    obtain ⟨segment, segments, hsegments⟩ : ∃ segment segments, path.rest = segment :: segments :=
      List.exists_cons_of_ne_nil (by simpa using hrest)
    have hfound : ∀ id ∈ s.scopes.lookup s.arena p.scope path.first .context,
        id < s.arena.size := by
      intro id hid
      obtain ⟨outer, -, hid⟩ := ScopeTree.exists_of_mem_lookup hid
      exact hs.bounded.scopes.visible_lt outer id (ScopeTree.name?_of_mem_lookupLocal hid).1
    have hmap : ∀ {r : Except Error (List DeclId)} {f : List DeclId → List DeclId},
        r.map f = r >>= fun found => .ok (f found) := by
      intro r f
      cases r <;> rfl
    rw [hmap]
    refine .run_bind (hlookup .context) (.bind (.descend hs.bounded path.rest hfound) ?_)
    intro result hresult
    rw [hsegments] at hresult
    have hlt : ∀ id ∈ result, id < s.arena.size := by
      intro id hid
      obtain ⟨context, members, hmembers, hid⟩ := ScopeTree.listed_of_descend hresult id hid
      exact hs.bounded.arena.members_lt hmembers id hid
    have hsorts : (result.filter fun id => (s.arena.decl? id).any fun d =>
        sel.accepts d.kind.sort) = result.filter fun id => (s.arena.sort? id).any sel.accepts := by
      refine List.filter_congr fun id hid => ?_
      obtain ⟨d, hd⟩ := Arena.exists_decl?_of_lt (hlt id hid)
      simp [Arena.sort?, Arena.kind?, hd]
    rw [← hsorts]
    exact .of_run (Checked.run_select hlt)

theorem answers_refer (hs : s.Ready p) {id : DeclId} (hid : id < s.arena.size) :
    Answers s (Checked.refer id) (s.refer id) [] := by
  obtain ⟨d, hd⟩ := Arena.exists_decl?_of_lt hid
  have hkind : s.arena.kind? id = some d.kind := by
    simp [Arena.kind?, hd]
  have hname : s.arena.displayName id = d.displayName := by
    simp [Arena.displayName, Decl.displayName, Arena.name?, hd]
  refine .run_bind (Checked.run_decl hd) ?_
  unfold Store.refer
  rw [hkind, hname]
  cases hk : d.kind with
  | var ty init => exact .ok _
  | field ty => exact .ok _
  | enumerator value =>
      obtain ⟨owner, hparent, hsort⟩ := hs.tied.owned hkind (by simp [hk, DeclKind.sort])
      have hd' : d.parent = some owner := by
        simpa [Arena.parent?, hd] using hparent
      have hty : s.arena.valueTy? id = s.arena.tagTy? owner := by
        simp [Arena.valueTy?, hkind, hk, hparent]
      have htag : s.arena.tagTy? owner = some (.tag .none .enumTag owner
          (s.arena.displayName owner)) := by
        simp [Arena.tagTy?, hsort]
      have hrun := Checked.run_tagTy? (Arena.sort?_eq_some_lt hsort)
      simp only [hd', hty]
      rw [htag] at hrun ⊢
      exact .run_bind hrun (.ok _)
  | unit members => exact .error rfl
  | func f => exact .error rfl
  | tag kind members => exact .error rfl

theorem answers_nameExpr (hs : s.Ready p) (path : Path) :
    Answers s (Checked.nameExpr p path) (s.nameExpr p path) [] := by
  refine .bind_nil (hs.answers_lookupPath path .everything) ?_
  intro found hfound
  cases found with
  | nil => exact .error rfl
  | cons id rest => exact hs.answers_refer (Store.lt_of_lookupPath hfound id List.mem_cons_self)

theorem answers_namedTy (hs : s.Ready p) (path : Path) :
    Answers s (Checked.namedTy p path) (s.namedTy p path) [] := by
  refine .bind_nil (hs.answers_lookupPath path .context) ?_
  intro found hfound
  match found with
  | [] => exact .error rfl
  | _ :: _ :: _ => exact .error rfl
  | [id] =>
      obtain ⟨sort, hsort, haccepts⟩ := Store.exists_of_lookupPath hfound id List.mem_cons_self
      cases sort with
      | tag kind =>
          have hrun := Checked.run_tagTy? (Arena.sort?_eq_some_lt hsort)
          have htag : s.arena.tagTy? id = some (.tag .none kind id (s.arena.displayName id)) := by
            simp [Arena.tagTy?, hsort]
          simp only
          rw [htag] at hrun ⊢
          exact .run_bind hrun (.ok _)
      | unit | var | field | func | enumerator => cases haccepts

theorem answers_returnStmt {function : DeclId} {f : Func} (hfunction : p.function = some function)
    (hf : s.arena.func function = .ok f) (value : Option Expr) :
    Answers s (Checked.returnStmt p value) (s.returnStmt p value) [] := by
  obtain ⟨d, hd, -⟩ := Arena.func_eq_ok_iff.mp hf
  have hname : s.arena.displayName function = d.displayName := by
    simp [Arena.displayName, Decl.displayName, Arena.name?, hd]
  unfold Checked.returnStmt Store.returnStmt
  rw [hfunction]
  simp only [hf, ok_bind, hname]
  refine .run_bind (Checked.run_func hf) (.run_bind (Checked.run_decl hd) ?_)
  cases value with
  | none =>
      cases hvoid : f.returnTy.isVoid with
      | true => exact .ok _
      | false => exact .error rfl
  | some value =>
      cases hvoid : f.returnTy.isVoid with
      | true => exact .error rfl
      | false => exact .bind_nil (.lift (Expr.meant_pass value f.returnTy)) fun _ _ => .ok _

/-! ## Calls -/

theorem exists_func_of_lookupPath {path : Path} {found : List DeclId}
    (h : s.lookupPath p path .function = .ok found) :
    ∀ id ∈ found, ∃ f, s.arena.func id = .ok f := by
  intro id hid
  obtain ⟨sort, hsort, haccepts⟩ := Store.exists_of_lookupPath h id hid
  obtain ⟨kind, hkind, rfl⟩ := Option.map_eq_some_iff.mp hsort
  cases kind with
  | func f => exact ⟨f, Arena.func_of_kind? hkind⟩
  | unit | var | field | tag | enumerator => cases haccepts

theorem answers_candidates (hs : s.Ready p) (path : Path) :
    Answers s (Checked.candidates p path) (s.candidates p path) [] := by
  refine .bind_nil (hs.answers_lookupPath path .function) ?_
  intro found hfound
  obtain ⟨firsts, hfirsts, -⟩ :=
    hs.tied.exists_firstDeclarations (exists_func_of_lookupPath hfound)
  rw [hfirsts]
  exact .run_bind (Checked.run_mapM hfirsts fun _ _ _ h => Checked.run_firstDeclaration h) (.ok _)

theorem exists_func_of_candidates (hs : s.Ready p) {path : Path} {candidates : List DeclId}
    (h : s.candidates p path = .ok candidates) :
    ∀ id ∈ candidates, ∃ f, s.arena.func id = .ok f := by
  simp only [Store.candidates, bind_eq_ok, pure_eq_ok] at h
  obtain ⟨found, hfound, firsts, hfirsts, rfl⟩ := h
  obtain ⟨firsts', hfirsts', hall⟩ :=
    hs.tied.exists_firstDeclarations (exists_func_of_lookupPath hfound)
  obtain rfl := Except.ok.inj (hfirsts.symm.trans hfirsts')
  exact fun id hid => hall id (List.mem_eraseDups.mp hid)

theorem run_acceptAll {pairs : List (DeclId × Expr)}
    (h : ∀ pair ∈ pairs, ∃ ty, s.arena.varTy pair.1 = .ok ty) :
    (Checked.acceptAll pairs).run s =
      .ok (pairs.all fun (param, arg) => s.paramAccepts param arg) s := by
  induction pairs with
  | nil => rfl
  | cons pair pairs ih =>
      obtain ⟨param, arg⟩ := pair
      obtain ⟨ty, hty⟩ := h _ List.mem_cons_self
      obtain ⟨d, init, hd, hkind⟩ := Arena.varTy_eq_ok_iff.mp hty
      have haccepts : s.paramAccepts param arg = arg.canPass ty := by
        simp only [Store.paramAccepts, hty]
      rw [Checked.acceptAll, Checked.run_bind (Checked.run_decl hd), hkind, List.all_cons]
      simp only [haccepts]
      cases hpass : arg.canPass ty with
      | true =>
          simp only [DeclKind.varTy?, hpass, if_true, Bool.true_and]
          exact ih fun x hx => h x (List.mem_cons_of_mem _ hx)
      | false =>
          simp only [DeclKind.varTy?, hpass, Bool.false_and]
          rfl

theorem exists_varTy_of_mem_zip (hs : s.Ready p) {function : DeclId} {f : Func}
    (hf : s.arena.func function = .ok f) (args : List Expr) :
    ∀ pair ∈ f.params.zip args, ∃ ty, s.arena.varTy pair.1 = .ok ty :=
  fun pair hpair => hs.bounded.arena.params_var hf pair.1 (List.of_mem_zip hpair).1

theorem run_isViable (hs : s.Ready p) {function : DeclId} {f : Func}
    (hf : s.arena.func function = .ok f) (args : List Expr) :
    (Checked.isViable args function).run s = .ok (s.isViable args function) s := by
  obtain ⟨d, hd, hkind⟩ := Arena.func_eq_ok_iff.mp hf
  rw [Checked.isViable, Checked.run_bind (Checked.run_decl hd), hkind, Store.isViable, hf]
  cases harity : f.arity == args.length with
  | true =>
      simp only [DeclKind.func?, harity, if_true, Bool.true_and]
      exact run_acceptAll (hs.exists_varTy_of_mem_zip hf args)
  | false =>
      simp only [DeclKind.func?, harity, Bool.false_and]
      rfl

theorem run_findViable (hs : s.Ready p) (args : List Expr) {functions : List DeclId}
    (h : ∀ id ∈ functions, ∃ f, s.arena.func id = .ok f) :
    (Checked.findViable args functions).run s = .ok (functions.find? (s.isViable args)) s := by
  induction functions with
  | nil => rfl
  | cons function functions ih =>
      obtain ⟨f, hf⟩ := h function List.mem_cons_self
      rw [Checked.findViable, Checked.run_bind (hs.run_isViable hf args), List.find?_cons]
      cases s.isViable args function with
      | true => rfl
      | false => exact ih fun x hx => h x (List.mem_cons_of_mem _ hx)

theorem answers_callExpr (hs : s.Ready p) (path : Path) (args : List Expr) :
    Answers s (Checked.callExpr p path args) (s.callExpr p path args) [] := by
  refine .bind_nil (hs.answers_candidates path) ?_
  intro candidates hcandidates
  have hfuncs := hs.exists_func_of_candidates hcandidates
  cases hempty : candidates.isEmpty with
  | true => exact .error rfl
  | false =>
      refine .run_bind (hs.run_findViable args hfuncs) ?_
      cases hfind : candidates.find? (s.isViable args) with
      | none => exact .error rfl
      | some callee =>
          obtain ⟨f, hf⟩ := hfuncs callee (List.mem_of_find?_eq_some hfind)
          simp only [hf, ok_bind]
          refine .run_bind (Checked.run_func hf) (.bind_nil (.mapM ?_) fun _ _ => .ok _)
          intro pair hpair
          obtain ⟨ty, hty⟩ := hs.exists_varTy_of_mem_zip hf args pair hpair
          unfold Checked.passArg Store.passArg
          rw [hty]
          exact .run_bind (Checked.run_varTy hty) (.lift (Expr.meant_pass _ ty))

end Store.Ready

end UnitAnalysis
