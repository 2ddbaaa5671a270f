import UnitAnalysis.Proofs.Follow

/-!
# No action is out of order

Whatever the tokens, no action of the analysis meets a declaration or a scope
that does not exist, and none is asked for where it makes no sense.  Main
statement: `analyzeChecked_eq`.
-/

namespace UnitAnalysis

open UnitAnalysis.Action UnitAnalysis.Check

/-! ## Ready stores -/

theorem Arena.Tied.grows {a b : Arena} {context : DeclId} {ids : List DeclId} (h : a.Tied)
    (hgrows : a.Grows b context ids)
    (hnew : ∀ {x kind}, a.size ≤ x → b.kind? x = some kind →
      kind.sort ≠ .enumerator ∧ ∀ f, kind = .func f → f.previous = none) : b.Tied where
  previous {id f earlier} hf hprevious := by
    by_cases hid : id < a.size
    · rw [hgrows.func_eq hid] at hf
      obtain ⟨g, hg⟩ := h.previous hf hprevious
      obtain ⟨d, hd, -⟩ := func_eq_ok_iff.mp hg
      exact ⟨g, (hgrows.func_eq (decl?_eq_some_lt hd)).trans hg⟩
    · obtain ⟨d, hd, hkind⟩ := func_eq_ok_iff.mp hf
      have hnone := (hnew (Nat.le_of_not_lt hid) (kind?_eq_some_iff.mpr ⟨d, hd, hkind⟩)).2 f rfl
      rw [hnone] at hprevious
      cases hprevious
  owned := declInvariant_owned.of_grows hgrows h.owned fun hle hkind hsort =>
    absurd hsort (hnew hle hkind).1

namespace Store.Ready

variable {s s' : Store} {p : Place}

theorem declared (hs : s.Ready p) (name : String) {kind : DeclKind}
    (hmembers : kind.members?.getD [] = []) (hsort : kind.sort ≠ .enumerator)
    (hfunc : ∀ f, kind = .func f → f.params = [] ∧ f.previous = none) :
    (s.declared p name kind).Ready p where
  bounded := hs.bounded.declared name hmembers hfunc
  scope_lt := hs.scope_lt
  context_lt := Nat.lt_of_lt_of_le hs.context_lt (by simp)
  tied := by
    refine hs.tied.grows ((Arena.Grows.refl s.arena p.context).declared p name kind) ?_
    intro x kind' hle hkind'
    obtain ⟨d, hd, rfl⟩ := Arena.kind?_eq_some_iff.mp hkind'
    have hlt := Arena.decl?_eq_some_lt hd
    rw [Store.size_declared] at hlt
    obtain rfl : x = s.arena.size := Nat.le_antisymm (Nat.le_of_lt_succ hlt) hle
    rw [Store.decl?_declared, if_pos rfl, Option.some.injEq] at hd
    subst hd
    exact ⟨hsort, fun f hf => (hfunc f hf).2⟩

theorem opened (hs : s.Ready p) : (s.opened p).Ready (p.inside s) :=
  ⟨hs.bounded.opened hs.scope_lt, Place.inside_lt p s, hs.context_lt, hs.tied⟩

theorem blockRun (hs : s.Ready p) {stmts : List Stmt} (h : BlockRun p s stmts s') :
    s'.Ready p where
  bounded := h.bounded hs.bounded hs.scope_lt
  scope_lt := (h.grows hs.scope_lt).scope_lt
  context_lt := Nat.lt_of_lt_of_le hs.context_lt (h.grows hs.scope_lt).arena.size_le
  tied := by
    refine hs.tied.grows (h.grows hs.scope_lt).arena ?_
    intro x kind hle hkind
    obtain ⟨d, hd, rfl⟩ := Arena.kind?_eq_some_iff.mp hkind
    obtain ⟨name, ty, init, hvar⟩ := h.exists_decl? hs.scope_lt x hle (Arena.decl?_eq_some_lt hd)
    obtain rfl := Option.some.inj (hd.symm.trans hvar)
    simp [DeclKind.sort]

end Store.Ready

/-! ## Declaring -/

namespace Follows

variable {α β : Type} {s : Store}

/-- A query within an action. -/
theorem check_bind {c : Checked α} {r : Except Error α} {f : α → Checked β} {g : α → Action β}
    {faults more : List Fault} (h : Answers s c r faults)
    (hnext : ∀ a, r = .ok a → Follows s (f a) (g a) more) :
    Follows s (c >>= f) (liftM r >>= g) (faults ++ more) := by
  refine Follows.bind h.follows ?_
  intro a s' hgives
  obtain ⟨hr, rfl⟩ := gives_check.mp hgives
  exact hnext a hr

theorem check_bind_nil {c : Checked α} {r : Except Error α} {f : α → Checked β}
    {g : α → Action β} {faults : List Fault} (h : Answers s c r faults)
    (hnext : ∀ a, r = .ok a → Follows s (f a) (g a) []) :
    Follows s (c >>= f) (liftM r >>= g) faults := by
  simpa using check_bind h hnext

theorem ask {c : Unit → Checked α} {r : Store → Except Error α} {faults : List Fault}
    (h : Answers s (c ()) (r s) faults) : Follows s (Effects.ask c) (Effects.ask r) faults :=
  .get h.follows

theorem ask_bind {c : Unit → Checked α} {r : Store → Except Error α} {f : α → Checked β}
    {g : α → Action β} {faults more : List Fault} (h : Answers s (c ()) (r s) faults)
    (hnext : ∀ a, r s = .ok a → Follows s (f a) (g a) more) :
    Follows s (Effects.ask c >>= f) (Effects.ask r >>= g) (faults ++ more) := by
  refine Follows.bind (.ask h) ?_
  intro a s' hgives
  obtain ⟨hr, rfl⟩ := gives_ask.mp hgives
  exact hnext a hr

theorem ask_bind_nil {c : Unit → Checked α} {r : Store → Except Error α} {f : α → Checked β}
    {g : α → Action β} {faults : List Fault} (h : Answers s (c ()) (r s) faults)
    (hnext : ∀ a, r s = .ok a → Follows s (f a) (g a) []) :
    Follows s (Effects.ask c >>= f) (Effects.ask r >>= g) faults := by
  simpa using ask_bind h hnext

theorem declare (s : Store) (p : Place) (name : String) (kind : DeclKind) :
    Follows s (Checked.declare p name kind) (UnitAnalysis.declare p name kind) [] :=
  .of_run rfl rfl

end Follows

theorem Follows.addParam {s : Store} {function : DeclId} {f : Func}
    (hf : s.arena.func function = .ok f) (param : DeclId) :
    Follows s (Checked.addParam function param) (UnitAnalysis.addParam function param) [] := by
  obtain ⟨d, hd, -⟩ := Arena.func_eq_ok_iff.mp hf
  have hmodify := Checked.run_modifyDecl (Arena.decl?_eq_some_lt hd)
    (.mapFunc fun f => { f with params := f.params ++ [param] })
  refine .get ?_
  rw [hf]
  exact .check_bind_nil (.of_run (Checked.run_func hf)) fun _ _ => .of_run hmodify rfl

namespace Store.Ready

variable {s : Store} {p : Place} {name : String}

theorem answers_checkFresh (hs : s.Ready p) (name : String) (overloadable : Bool) :
    Answers s (Checked.checkFresh p name overloadable) (s.checkFresh p name overloadable) [] := by
  have hlookup := Checked.run_lookupLocal hs.bounded hs.scope_lt name .everything
  have hlt : ∀ id ∈ s.scopes.lookupLocal s.arena p.scope name .everything, id < s.arena.size :=
    fun id hid => hs.bounded.scopes.visible_lt p.scope id (List.mem_filter.mp hid).1
  refine .run_bind hlookup (.run_bind (Checked.run_select hlt) ?_)
  unfold Store.checkFresh
  generalize s.scopes.lookupLocal s.arena p.scope name .everything = found at hlt
  have hclash : (!(found.filter fun id => (s.arena.decl? id).any fun d =>
      !(overloadable && d.kind.sort == .func)).isEmpty) =
      found.any fun id => !(overloadable && s.arena.sort? id == some .func) := by
    induction found with
    | nil => rfl
    | cons id found ih =>
        obtain ⟨d, hd⟩ := Arena.exists_decl?_of_lt (hlt id List.mem_cons_self)
        have hsort : s.arena.sort? id = some d.kind.sort := by
          simp [Arena.sort?, Arena.kind?, hd]
        rw [List.any_cons, ← ih fun x hx => hlt x (List.mem_cons_of_mem _ hx), List.filter_cons, hd,
          hsort]
        cases hmatch : !(overloadable && d.kind.sort == .func) <;> simp_all
  simp only [hclash]
  cases found.any fun id => !(overloadable && s.arena.sort? id == some .func) with
  | true => exact .error rfl
  | false => exact .ok _

theorem answers_checkContext {kind : TagKind}
    (hsort : s.arena.sort? p.context = some (.tag kind)) :
    Answers s (Checked.checkContext p kind) (s.checkContext p kind) [] := by
  obtain ⟨k, hk, hkind⟩ := Option.map_eq_some_iff.mp hsort
  obtain ⟨d, hd, rfl⟩ := Arena.kind?_eq_some_iff.mp hk
  refine .run_bind (Checked.run_decl hd) ?_
  unfold Store.checkContext
  rw [if_pos hsort, if_neg (by simpa using hkind)]
  exact .ok _

theorem follows_declareVar (hs : s.Ready p) (name : String) (ty : Ty) :
    Follows s (declareVar p name ty) (declareVar p name ty) [] :=
  .ask_bind_nil (hs.answers_checkFresh name false) fun _ _ =>
    .check_bind_nil (.lift (meant_checkObject name ty)) fun _ _ => .declare ..

theorem follows_declareFunc (hs : s.Ready p) (name : String) (returnTy : Ty) :
    Follows s (declareFunc p name returnTy) (declareFunc p name returnTy) [] :=
  .ask_bind_nil (hs.answers_checkFresh name true) fun _ _ => .declare ..

theorem follows_declareTag (hs : s.Ready p) (kind : TagKind) (name : String) :
    Follows s (declareTag kind p name) (declareTag kind p name) [] :=
  .ask_bind_nil (hs.answers_checkFresh name false) fun _ _ => .declare ..

theorem follows_declareField (hs : s.Ready p)
    (hsort : s.arena.sort? p.context = some (.tag .classTag)) (name : String) (ty : Ty) :
    Follows s (declareField p name ty) (declareField p name ty) [] :=
  .ask_bind_nil (answers_checkContext hsort) fun _ _ =>
    .ask_bind_nil (hs.answers_checkFresh name false) fun _ _ =>
      .check_bind_nil (.lift (meant_checkObject name ty)) fun _ _ => .declare ..

theorem run_firstValue? {ids : List DeclId} (h : ∀ id ∈ ids, id < s.arena.size) :
    (Checked.firstValue? ids).run s =
      .ok (ids.findSome? fun id => (s.arena.kind? id).bind (·.enumeratorValue?)) s := by
  induction ids with
  | nil => rfl
  | cons id ids ih =>
      obtain ⟨d, hd⟩ := Arena.exists_decl?_of_lt (h id List.mem_cons_self)
      have hkind : s.arena.kind? id = some d.kind := by
        simp [Arena.kind?, hd]
      rw [Checked.firstValue?, Checked.run_bind (Checked.run_decl hd), List.findSome?_cons, hkind,
        Option.bind_some]
      cases d.kind.enumeratorValue? with
      | some value => rfl
      | none => exact ih fun x hx => h x (List.mem_cons_of_mem _ hx)

theorem run_lastEnumerator? (hs : s.Ready p) :
    (Checked.lastEnumerator? p.context).run s = .ok (s.lastEnumerator? p.context) s := by
  obtain ⟨d, hd⟩ := Arena.exists_decl?_of_lt hs.context_lt
  rw [Checked.lastEnumerator?, Checked.run_bind (Checked.run_decl hd), Store.lastEnumerator?,
    Arena.members?_of_decl? hd]
  refine run_firstValue? fun id hid => ?_
  cases hmembers : d.kind.members? with
  | none => simp [hmembers] at hid
  | some members =>
      refine hs.bounded.arena.members_lt (Arena.members?_eq_some_iff.mpr ⟨d, hd, hmembers⟩) id ?_
      simpa [hmembers] using hid

theorem follows_declareEnumerator (hs : s.Ready p)
    (hsort : s.arena.sort? p.context = some (.tag .enumTag)) (name : String)
    (value : Option Int64) :
    Follows s (declareEnumerator p name value) (declareEnumerator p name value) [] := by
  refine .ask_bind_nil (answers_checkContext hsort) fun _ _ => ?_
  refine .ask_bind_nil (hs.answers_checkFresh name false) fun _ _ => ?_
  refine .ask_bind_nil (.of_run hs.run_lastEnumerator?) fun last _ => ?_
  generalize (value <|> nextEnumerator? last) = chosen
  cases chosen with
  | some value => exact .declare ..
  | none => exact .throw (.inl rfl)

theorem follows_declareParam (hs : s.Ready p) {function : DeclId} {f : Func}
    (hf : s.arena.func function = .ok f) (name : String) (ty : Ty) :
    Follows s (declareParam p function name ty) (declareParam p function name ty) [] := by
  refine .ask_bind_nil (hs.answers_checkFresh name false) fun _ _ => ?_
  refine .check_bind_nil (.lift (meant_checkObject name ty)) fun _ _ => ?_
  refine .bind_nil (.declare ..) ?_
  intro param s' hgives
  obtain ⟨rfl, rfl⟩ := gives_declare hgives
  have hf' : (s.declared p name (.var ty none)).arena.func function = .ok f := by
    obtain ⟨d, hd, -⟩ := Arena.func_eq_ok_iff.mp hf
    have hgrows := (Arena.Grows.refl s.arena p.context).declared p name (.var ty none)
    rw [hgrows.func_eq (Arena.decl?_eq_some_lt hd), hf]
  exact .bind_nil (.addParam hf' s.arena.size) fun _ _ _ => .pure _

end Store.Ready

theorem Follows.reveal {s : Store} {p : Place} (hp : p.scope < s.scopes.size) (id : DeclId) :
    Follows s (Checked.reveal p id) (UnitAnalysis.reveal p id) [] :=
  .of_run (Checked.run_modifyScope hp _) rfl

theorem Follows.enlist {s : Store} {p : Place} {members : List DeclId}
    (hmembers : s.arena.members? p.context = some members) (id : DeclId) :
    Follows s (Checked.enlist p id) (UnitAnalysis.enlist p id) [] := by
  obtain ⟨d, hd, hkind⟩ := Arena.members?_eq_some_iff.mp hmembers
  refine .get (.run_bind (Checked.run_decl hd) ?_)
  rw [Arena.addMember, Arena.isContext, hmembers, hkind]
  exact .of_run (Checked.run_modifyDecl (Arena.decl?_eq_some_lt hd) _) rfl

/-- A new declaration becomes visible and a member. -/
theorem Follows.reveal_enlist {s : Store} {p : Place} (hs : s.Between p) (name : String)
    (kind : DeclKind) :
    Follows (s.declared p name kind)
      (do
        Checked.reveal p s.arena.size
        Checked.enlist p s.arena.size)
      (do
        UnitAnalysis.reveal p s.arena.size
        UnitAnalysis.enlist p s.arena.size) [] := by
  refine .bind_nil (.reveal (by exact hs.scope_lt) _) ?_
  intro _ s' hreveal
  obtain rfl := gives_reveal hreveal
  have hgrows := (Arena.Grows.refl s.arena p.context).declared p name kind
  exact .enlist (by exact hgrows.members?_context hs.agrees) _

theorem Follows.storeInit {s : Store} {id : DeclId} {ty : Ty} (hty : s.arena.varTy id = .ok ty)
    (init : Expr) :
    Follows s (Checked.storeInit id init) (UnitAnalysis.storeInit id init) [] := by
  refine .get ?_
  rw [hty]
  refine .run_bind (Checked.run_varTy hty) ?_
  refine .check_bind_nil (.lift (Expr.meant_initFor init ty)) fun _ _ => ?_
  exact .of_run (Checked.run_modifyDecl (Arena.varTy_eq_ok_lt hty) _) rfl

/-! ## Brackets -/

namespace Follows

variable {s : Store} {p : Place}

theorem openScope (hp : p.scope < s.scopes.size) :
    Follows s (Checked.openScope p) (UnitAnalysis.openScope p) [] := by
  obtain ⟨sc, hsc⟩ := Checked.exists_scope? hp
  exact .run_bind (Checked.run_scope hsc) (.of_run rfl rfl)

theorem closeScope {outer : ScopeId} (hparent : s.scopes.parent? p.scope = some outer) :
    Follows s (Checked.closeScope p) (UnitAnalysis.closeScope p) [] := by
  obtain ⟨sc, hsc, hup⟩ := Option.bind_eq_some_iff.mp hparent
  have hlt : p.scope < s.scopes.size := (Array.getElem?_eq_some_iff.mp hsc).1
  have hpop : s.scopes.pop p.scope =
      .ok (outer, s.scopes.modifyVisible p.scope fun _ => []) := by
    simp only [ScopeTree.pop, hparent]
  refine .get (.run_bind (Checked.run_scope hsc) ?_)
  rw [hpop, hup]
  exact .of_run (Checked.run_bind (Checked.run_modifyScope hlt _)) rfl

theorem enterTag {tag : DeclId} {kind : TagKind} (hp : p.scope < s.scopes.size)
    (hsort : s.arena.sort? tag = some (.tag kind)) :
    Follows s (Checked.enterTag p tag) (UnitAnalysis.enterTag p tag) [] := by
  obtain ⟨k, hk, hkind⟩ := Option.map_eq_some_iff.mp hsort
  obtain ⟨d, hd, rfl⟩ := Arena.kind?_eq_some_iff.mp hk
  refine .get (.run_bind (Checked.run_decl hd) ?_)
  rw [hsort, hkind]
  exact .bind_nil (.openScope hp) fun _ _ _ => .pure _

theorem leaveTag {context : DeclId} {outer : ScopeId}
    (hcontext : s.arena.parent? p.context = some context)
    (hparent : s.scopes.parent? p.scope = some outer) :
    Follows s (Checked.leaveTag p) (UnitAnalysis.leaveTag p) [] := by
  obtain ⟨d, hd, hup⟩ := Option.bind_eq_some_iff.mp hcontext
  refine .get (.run_bind (Checked.run_decl hd) ?_)
  rw [hcontext, hup]
  exact .bind_nil (.closeScope hparent) fun _ _ _ => .pure _

end Follows

namespace Store.Bounded

variable {s : Store} {function other : DeclId} {f g : Func}

theorem answers_redeclares (hs : s.Bounded) (name : String) (hf : s.arena.func function = .ok f)
    (hg : s.arena.func other = .ok g) :
    Answers s (Checked.redeclares name function other) (s.redeclares name function other) [] := by
  obtain ⟨earlier, hearlier⟩ := hs.arena.exists_paramTys hg
  obtain ⟨later, hlater⟩ := hs.arena.exists_paramTys hf
  unfold Checked.redeclares Store.redeclares
  by_cases hsame : other = function
  · simp only [hsame, if_true]
    exact .ok _
  · simp only [hsame, if_false, hearlier, hlater, hf, hg, ok_bind]
    refine .run_bind (Checked.run_paramTys hearlier) (.run_bind (Checked.run_paramTys hlater) ?_)
    cases !Ty.sameAll earlier later with
    | true => exact .ok _
    | false =>
        refine .run_bind (Checked.run_func hg) (.run_bind (Checked.run_func hf) ?_)
        cases !g.returnTy.same f.returnTy with
        | true => exact .error rfl
        | false => exact .ok _

theorem answers_previous? (hs : s.Bounded) (name : String) (hf : s.arena.func function = .ok f)
    {others : List DeclId} (hothers : ∀ other ∈ others, ∃ g, s.arena.func other = .ok g) :
    ∀ last, Answers s (Checked.previous? name function last others)
      (s.previous? name function last others) [] := by
  induction others with
  | nil => exact fun last => .ok last
  | cons other others ih =>
      intro last
      obtain ⟨g, hg⟩ := hothers other List.mem_cons_self
      have hrest := ih fun x hx => hothers x (List.mem_cons_of_mem _ hx)
      refine .bind_nil (hs.answers_redeclares name hf hg) ?_
      intro redeclares _
      cases redeclares with
      | true => exact hrest (some other)
      | false => exact hrest last

theorem follows_leaveParams (hs : s.Bounded) {p : Place} {outer : ScopeId}
    (hparent : s.scopes.parent? p.scope = some outer) (hf : s.arena.func function = .ok f) :
    Follows s (Checked.leaveParams p function) (leaveParams p function) [] := by
  refine .bind_nil (.closeScope hparent) ?_
  intro out s' hclose
  obtain ⟨hout, hplace, rfl⟩ := gives_closeScope hclose
  have hscope : p.scope < s.scopes.size := by
    obtain ⟨sc, hsc, -⟩ := Option.bind_eq_some_iff.mp hparent
    exact (Array.getElem?_eq_some_iff.mp hsc).1
  have hs' := hs.closed hscope
  have houter : out.scope < (s.closed p.scope).scopes.size := by
    have hlt := Nat.lt_trans (hs.scopes.parent_lt hout) hscope
    simpa [Store.closed] using hlt
  have hf' : (s.closed p.scope).arena.func function = .ok f := hf
  obtain ⟨d, hd, -⟩ := Arena.func_eq_ok_iff.mp hf'
  have hname : (s.closed p.scope).arena.displayName function = d.displayName := by
    simp only [Arena.displayName, Decl.displayName, Arena.name?, hd, Option.bind_some]
  have hlookup := Checked.run_lookupLocal hs' houter d.displayName .function
  refine .get (.run_bind (Checked.run_decl hd) (.run_bind hlookup ?_))
  rw [hname]
  refine .check_bind_nil (hs'.answers_previous? d.displayName hf' ?_ none) ?_
  · intro other hother
    have hmatches := ScopeTree.matchesDecl_function_iff.mp (List.mem_filter.mp hother).2
    obtain ⟨kind, hkind, hsort⟩ := Option.map_eq_some_iff.mp hmatches.2
    cases kind with
    | func g => exact ⟨g, Arena.func_of_kind? hkind⟩
    | unit | var | field | tag | enumerator => cases hsort
  · intro previous _
    cases previous with
    | none => exact .pure _
    | some earlier =>
        have hmodify := Checked.run_modifyDecl (Arena.decl?_eq_some_lt hd)
          (.mapFunc fun f => { f with previous := some earlier })
        exact .bind_nil (.of_run hmodify rfl) fun _ _ _ => .pure _

end Store.Bounded

theorem Checked.run_showAll {s : Store} {scope : ScopeId} (hscope : scope < s.scopes.size)
    (ids : List DeclId) :
    (ids.forM fun id => Checked.modifyScope scope (· ++ [id])).run s =
      .ok () (s.revealedAll scope ids) := by
  induction ids generalizing s with
  | nil => rfl
  | cons id ids ih =>
      have hstep := Checked.run_modifyScope hscope (· ++ [id])
      rw [List.forM_eq_forM, List.forM_cons, Checked.run_bind hstep]
      exact ih (by simpa using hscope)

namespace Store.Ready

variable {s : Store} {p : Place} {function : DeclId} {f : Func}

theorem follows_enterBody (hs : s.Ready p) (hf : s.arena.func function = .ok f) :
    Follows s (Checked.enterBody p function) (enterBody p function) [] := by
  obtain ⟨defined, hdefined⟩ := hs.tied.exists_definedWithin s.arena.size hf
  obtain ⟨d, hd, -⟩ := Arena.func_eq_ok_iff.mp hf
  have hname : s.arena.displayName function = d.displayName := by
    simp only [Arena.displayName, Decl.displayName, Arena.name?, hd, Option.bind_some]
  refine .get ?_
  rw [Arena.isDefined, hdefined, hname]
  refine .check_bind_nil (.of_run (Checked.run_isDefined hdefined)) ?_
  rintro _ ⟨⟩
  cases defined with
  | true => exact .run_bind (Checked.run_decl hd) (.throw (.inl rfl))
  | false =>
      rw [hf]
      refine .check_bind_nil (.of_run (Checked.run_func hf)) ?_
      rintro _ ⟨⟩
      refine .bind_nil (.openScope hs.scope_lt) ?_
      intro inner s' hopen
      obtain ⟨rfl, rfl⟩ := gives_openScope hopen
      refine .bind_nil (.of_run (Checked.run_showAll (Place.inside_lt p s) f.params) rfl) ?_
      exact fun _ _ _ => .pure _

end Store.Ready

theorem Follows.leaveBody {s : Store} {p : Place} {function : DeclId} {f : Func} {outer : ScopeId}
    (hfunction : p.function = some function) (hf : s.arena.func function = .ok f)
    (hparent : s.scopes.parent? p.scope = some outer) (body : List Stmt) :
    Follows s (Checked.leaveBody p body) (UnitAnalysis.leaveBody p body) [] := by
  obtain ⟨d, hd, -⟩ := Arena.func_eq_ok_iff.mp hf
  have hmodify := Checked.run_modifyDecl (Arena.decl?_eq_some_lt hd)
    (.mapFunc fun f => { f with body := some body })
  unfold Checked.leaveBody UnitAnalysis.leaveBody
  rw [hfunction]
  refine .get ?_
  rw [hf]
  refine .check_bind_nil (.of_run (Checked.run_func hf)) fun _ _ => ?_
  refine .bind_nil (.of_run hmodify rfl) ?_
  intro _ s' hgives
  obtain rfl := gives_modify.mp hgives
  have hclose : Follows (s.mapFunc function fun f => { f with body := some body })
      (Checked.closeScope p) (UnitAnalysis.closeScope p) [] := .closeScope hparent
  exact .bind_nil hclose fun _ _ _ => .pure _

/-! ## Types and expressions -/

theorem TypeTree.answers {s : Store} {p : Place} (hs : s.Ready p) (tree : TypeTree) :
    Answers s (tree.analyze () p) (tree.analyze s p) tree.faults := by
  refine Answers.bind_nil (.required s tree.base) ?_
  intro base _
  cases base with
  | builtin kind => exact .ok _
  | named path => exact .bind_nil (hs.answers_namedTy path) fun _ _ => .ok _

mutual

theorem ExprTree.answers {s : Store} {p : Place} (hs : s.Ready p) :
    ∀ tree : ExprTree, Answers s (tree.analyze () p) (tree.analyze s p) tree.faults
  | .int value => .ok _
  | .float value => .ok _
  | .bool value => .ok _
  | .name path => by
      rw [ExprTree.analyze, ExprTree.analyze]
      exact hs.answers_nameExpr path
  | .call path args => by
      rw [ExprTree.analyze, ExprTree.analyze]
      refine Answers.bind_nil (ExprTree.answersAll hs args) ?_
      exact fun args _ => hs.answers_callExpr path args
  | .binary op lhs rhs => by
      rw [ExprTree.analyze, ExprTree.analyze]
      refine .bind (ExprTree.answers hs lhs) fun lhs _ => ?_
      refine Answers.bind_nil (ExprTree.answers hs rhs) ?_
      exact fun rhs _ => .lift (Expr.meant_combine op lhs rhs)
  | .broken parts fault => by
      rw [ExprTree.analyze, ExprTree.analyze]
      exact .bind (ExprTree.answersAll hs parts) fun _ _ => Follows.fault fault

theorem ExprTree.answersAll {s : Store} {p : Place} (hs : s.Ready p) :
    ∀ trees : List ExprTree, Answers s (ExprTree.analyzeAll () p trees)
      (ExprTree.analyzeAll s p trees) (ExprTree.faultsAll trees)
  | [] => .ok _
  | tree :: trees => by
      rw [ExprTree.analyzeAll, ExprTree.analyzeAll]
      refine .bind (ExprTree.answers hs tree) fun _ _ => ?_
      refine Answers.bind_nil (ExprTree.answersAll hs trees) ?_
      exact fun _ _ => .ok _

end

/-! ## Variables and statements -/

theorem VarTree.follows {s : Store} {p : Place} (hs : s.Ready p) (tree : VarTree) :
    Follows s (tree.analyze p) (tree.analyze p) tree.faults := by
  have heq : tree.faults = tree.type.faults ++ (tree.name.faults ++
      (tree.init.elim [] ExprTree.faults ++ tree.semi.faults)) := by
    simp [VarTree.faults]
  rw [heq]
  refine .ask_bind (tree.type.answers hs) fun ty _ => ?_
  refine .check_bind (.required s tree.name) fun name _ => ?_
  refine .nil_bind (hs.follows_declareVar name ty) ?_
  intro id s₁ hdeclare
  obtain ⟨-, -, rfl, rfl⟩ := gives_declareVar hdeclare
  have hs₁ : (s.declared p name (.var ty none)).Ready p :=
    hs.declared name rfl (by simp [DeclKind.sort]) (by simp)
  have hvar : (s.declared p name (.var ty none)).arena.varTy s.arena.size = .ok ty := by
    rw [Arena.varTy_eq_ok_iff]
    exact ⟨_, none, by rw [Store.decl?_declared, if_pos rfl], rfl⟩
  -- The rest only needs the scope, which neither declaring nor initializing changes.
  have hrest : ∀ s₂ : Store, p.scope < s₂.scopes.size → Follows s₂
      (do
        tree.semi.check
        Checked.reveal p s.arena.size
        pure s.arena.size)
      (do
        tree.semi.check
        reveal p s.arena.size
        pure s.arena.size) tree.semi.faults := by
    intro s₂ hp
    refine .check_bind_nil (.required s₂ tree.semi) fun _ _ => ?_
    exact .bind_nil (.reveal hp _) fun _ _ _ => .pure _
  cases tree.init with
  | none => exact hrest _ hs.scope_lt
  | some init =>
      refine .ask_bind (init.answers hs₁) fun e _ => ?_
      refine Follows.nil_bind (.storeInit hvar e) ?_
      intro _ s₂ hstore
      refine hrest s₂ ?_
      obtain ⟨-, -, -, -, rfl⟩ := gives_storeInit hstore
      exact hs.scope_lt

/-- The place is in the body of a function. -/
def Store.InBody (s : Store) (p : Place) : Prop :=
  ∃ function f, p.function = some function ∧ s.arena.func function = .ok f

theorem Store.InBody.grows {s s' : Store} {p : Place} {listed shown : List DeclId}
    (h : s.InBody p) (hgrows : s.Grows s' p listed shown) : s'.InBody p := by
  obtain ⟨function, f, hfunction, hf⟩ := h
  obtain ⟨d, hd, -⟩ := Arena.func_eq_ok_iff.mp hf
  exact ⟨function, f, hfunction, (hgrows.arena.func_eq (Arena.decl?_eq_some_lt hd)).trans hf⟩

theorem BlockRun.parent?_inside {p : Place} {s s' : Store} {stmts : List Stmt}
    (h : BlockRun (p.inside s) (s.opened p) stmts s') :
    s'.scopes.parent? (p.inside s).scope = some p.scope := by
  rw [(h.grows (Place.inside_lt p s)).scopes.parent?_eq _ (Place.inside_lt p s)]
  simp [Place.inside, Store.opened, ScopeTree.parent?_push]

mutual

theorem StmtTree.follows {p : Place} : ∀ (tree : StmtTree) {s : Store}, s.Ready p → s.InBody p →
    Follows s (tree.analyze p) (tree.analyze p) tree.faults
  | .block body, s, hs, hbody => by
      rw [StmtTree.analyze, StmtTree.analyze]
      refine Follows.nil_bind (.openScope hs.scope_lt) ?_
      intro inner s₁ hopen
      obtain ⟨rfl, rfl⟩ := gives_openScope hopen
      refine Follows.bind_nil (StmtTree.followsAll body hs.opened hbody) ?_
      intro stmts s₂ hstmts
      have hrun := StmtTree.blockRun_of_analyzeAll hstmts
      exact .bind_nil (.closeScope hrun.parent?_inside) fun _ _ _ => .pure _
  | .var tree, s, hs, _ => by
      rw [StmtTree.analyze, StmtTree.analyze]
      refine Follows.bind_nil (tree.follows hs) ?_
      exact fun _ _ _ => .pure _
  | .ret none semi, s, hs, hbody => by
      obtain ⟨function, f, hfunction, hf⟩ := hbody
      rw [StmtTree.analyze, StmtTree.analyze]
      refine Follows.check_bind_nil (.required s semi) ?_
      exact fun _ _ => .ask (Store.Ready.answers_returnStmt hfunction hf none)
  | .ret (some value) semi, s, hs, hbody => by
      obtain ⟨function, f, hfunction, hf⟩ := hbody
      rw [StmtTree.analyze, StmtTree.analyze]
      refine .ask_bind (value.answers hs) fun e _ => ?_
      refine Follows.check_bind_nil (.required s semi) ?_
      exact fun _ _ => .ask (Store.Ready.answers_returnStmt hfunction hf (some e))
  | .expr value semi, s, hs, _ => by
      rw [StmtTree.analyze, StmtTree.analyze]
      refine .ask_bind (value.answers hs) fun e _ => ?_
      refine Follows.check_bind_nil (.required s semi) ?_
      exact fun _ _ => .pure _
  | .broken fault, s, _, _ => by
      rw [StmtTree.analyze, StmtTree.analyze]
      exact .fault fault

theorem StmtTree.followsAll {p : Place} : ∀ (trees : List StmtTree) {s : Store}, s.Ready p →
    s.InBody p → Follows s (StmtTree.analyzeAll p trees) (StmtTree.analyzeAll p trees)
      (StmtTree.faultsAll trees)
  | [], s, _, _ => by
      rw [StmtTree.analyzeAll, StmtTree.analyzeAll]
      exact .pure _
  | tree :: trees, s, hs, hbody => by
      rw [StmtTree.analyzeAll, StmtTree.analyzeAll]
      refine .bind (StmtTree.follows tree hs hbody) ?_
      intro stmt s₁ hstmt
      have hrun := StmtTree.blockRun_of_analyze hstmt .nil
      have hrest := StmtTree.followsAll trees (hs.blockRun hrun)
        (hbody.grows (hrun.grows hs.scope_lt))
      refine Follows.bind_nil hrest ?_
      exact fun _ _ _ => .pure _

end

/-! ## Functions -/

theorem Follows.forM {τ : Type} {f : τ → Checked Unit} {g : τ → Action Unit}
    {faults : τ → List Fault} {I : Store → Prop}
    (htree : ∀ tree {s}, I s → Follows s (f tree) (g tree) (faults tree))
    (hkeep : ∀ {tree s s'}, I s → Gives (g tree) s () s' → I s') (trees : List τ) :
    ∀ {s : Store}, I s → Follows s (trees.forM f) (trees.forM g) (trees.flatMap faults) := by
  induction trees with
  | nil => exact fun _ => .pure _
  | cons tree trees ih =>
      intro s hs
      rw [List.forM_eq_forM, List.forM_eq_forM, List.forM_cons, List.forM_cons, List.flatMap_cons]
      exact .bind (htree tree hs) fun _ _ hgives => ih (hkeep hs hgives)

theorem Action.preserves_forM {τ : Type} {g : τ → Action Unit} {I : Store → Prop}
    (hkeep : ∀ {tree s s'}, I s → Gives (g tree) s () s' → I s') {trees : List τ} {s s' : Store}
    (h : Gives (trees.forM g) s () s') (hs : I s) : I s' := by
  induction trees generalizing s with
  | nil =>
      obtain ⟨-, rfl⟩ := gives_pure.mp h
      exact hs
  | cons tree trees ih =>
      rw [List.forM_eq_forM, List.forM_cons, gives_bind] at h
      obtain ⟨_, s₁, hfirst, hrest⟩ := h
      exact ih hrest (hkeep hs hfirst)

theorem Runs.snoc {step : Store → DeclId → Store → Prop} {s s₁ s' : Store} {ids : List DeclId}
    {id : DeclId} (h : Runs step s ids s₁) (hlast : step s₁ id s') :
    Runs step s (ids ++ [id]) s' := by
  induction h with
  | nil => exact .cons hlast .nil
  | cons hfirst _ ih => exact .cons hfirst (ih hlast)

section Params

variable {p : Place} {s s₁ : Store} {name : String} {returnTy : Ty} {params : List DeclId}

/-- Between two parameters the store has their function and otherwise new variables. -/
theorem Store.Settled.ready_params (hs : s.Settled p)
    (h : Runs (ParamStep (p.inside s) s.arena.size)
      ((s.declared p name (.func (.prototype returnTy))).opened p) params s₁) :
    s₁.Ready (p.inside s) := by
  have hdeclared := (Arena.Grows.refl s.arena p.context).declared p name
    (.func (.prototype returnTy))
  have hgrows := ParamStep.arena_grows h hdeclared (Nat.le_refl _)
  have hscopes := h.scopes_grows ParamStep.scopes_grows (Place.inside_lt p _)
  refine ⟨ParamStep.bounded_all h (hs.bounded.enterParams hs.scope_lt name returnTy)
    (Place.inside_lt p _), Nat.lt_of_lt_of_le hscopes.scope_lt hscopes.size_le,
    Nat.lt_of_lt_of_le hs.context_lt hgrows.size_le, hs.tied.grows hgrows ?_⟩
  intro x kind hle hkind
  obtain ⟨d, hd, rfl⟩ := Arena.kind?_eq_some_iff.mp hkind
  rcases Nat.eq_or_lt_of_le hle with rfl | hlt
  · obtain rfl := Option.some.inj (hd.symm.trans (ParamStep.decl?_prototype h))
    simp [DeclKind.sort]
  · obtain ⟨name, ty, hvar⟩ := ParamStep.exists_decl?_all h (by simp) x
      (by simpa using Nat.succ_le_of_lt hlt) (Arena.decl?_eq_some_lt hd)
    obtain rfl := Option.some.inj (hd.symm.trans hvar)
    simp [DeclKind.sort]

theorem ParamStep.func_prototype
    (h : Runs (ParamStep (p.inside s) s.arena.size)
      ((s.declared p name (.func (.prototype returnTy))).opened p) params s₁) :
    s₁.arena.func s.arena.size = .ok ⟨params, returnTy, none, none⟩ :=
  Arena.func_eq_ok_iff.mpr ⟨_, ParamStep.decl?_prototype h, rfl⟩

theorem ParamTree.follows {function : DeclId} {f : Func} (hs : s.Ready p)
    (hf : s.arena.func function = .ok f) (tree : ParamTree) :
    Follows s (tree.analyze p function) (tree.analyze p function) tree.faults := by
  refine .ask_bind (tree.type.answers hs) fun ty _ => ?_
  refine Follows.check_bind_nil (.required s tree.name) fun name _ => ?_
  refine .bind_nil (hs.follows_declareParam hf name ty) ?_
  intro id s₁ hdeclare
  obtain ⟨-, -, rfl, rfl⟩ := gives_declareParam hdeclare
  exact .reveal (by exact hs.scope_lt) _

theorem ParamTree.followsAll (hs : s.Settled p) (trees : List ParamTree) :
    Follows ((s.declared p name (.func (.prototype returnTy))).opened p)
      (trees.forM (·.analyze (p.inside s) s.arena.size))
      (trees.forM (·.analyze (p.inside s) s.arena.size)) (trees.flatMap ParamTree.faults) := by
  refine Follows.forM (I := fun s₁ => ∃ params, Runs (ParamStep (p.inside s) s.arena.size)
    ((s.declared p name (.func (.prototype returnTy))).opened p) params s₁) ?_ ?_ trees ⟨[], .nil⟩
  · rintro tree s₁ ⟨params, hparams⟩
    exact tree.follows (hs.ready_params hparams) (ParamStep.func_prototype hparams)
  · rintro tree s₁ s₂ ⟨params, hparams⟩ hgives
    obtain ⟨id, hstep⟩ := ParamTree.paramStep_of_analyze hgives
    exact ⟨params ++ [id], hparams.snoc hstep⟩

end Params

theorem BodyTree.follows {p : Place} {s : Store} {id : DeclId} {f : Func} (hs : s.Settled p)
    (hf : s.arena.func id = .ok f) (tree : BodyTree) :
    Follows s (tree.analyze p id) (tree.analyze p id) tree.faults := by
  cases tree with
  | prototype => exact .pure _
  | broken fault => exact .fault fault
  | block body =>
      refine Follows.nil_bind (hs.ready.follows_enterBody hf) ?_
      intro inner s₁ henter
      obtain ⟨g, -, hg, rfl, rfl⟩ := gives_enterBody henter
      have hinside := Place.inside_lt_revealedAll p s g.params
      have hs₁ : ((s.opened p).revealedAll s.scopes.size g.params).Ready
          { p.inside s with function := some id } :=
        ⟨hs.bounded.enterBody hs.scope_lt hg, hinside, hs.context_lt, hs.tied⟩
      have hbody : ((s.opened p).revealedAll s.scopes.size g.params).InBody
          { p.inside s with function := some id } := ⟨id, g, rfl, hg⟩
      refine Follows.bind_nil (StmtTree.followsAll body hs₁ hbody) ?_
      intro stmts s₂ hstmts
      have hgrows := (StmtTree.blockRun_of_analyzeAll hstmts).grows hinside
      obtain ⟨d, hd, -⟩ := Arena.func_eq_ok_iff.mp hg
      have hg₂ := (hgrows.arena.func_eq (Arena.decl?_eq_some_lt hd)).trans hg
      have hparent : s₂.scopes.parent? s.scopes.size = some p.scope := by
        refine (hgrows.scopes.parent?_eq _ hinside).trans ?_
        simp [Place.inside, Store.revealedAll, Store.opened, ScopeTree.parent?_push]
      exact .bind_nil (.leaveBody rfl hg₂ hparent stmts) fun _ _ _ => .pure _

namespace FuncTree

variable {p : Place} {s : Store}

theorem follows_analyzeReturn (hs : s.Ready p) (tree : FuncTree) :
    Follows s (tree.analyzeReturn p) (tree.analyzeReturn p)
      (tree.returnType.elim [] TypeTree.faults) := by
  unfold analyzeReturn
  cases tree.returnType with
  | none => exact .pure _
  | some type => exact .ask (type.answers hs)

theorem follows_analyzeParams (hs : s.Settled p) (tree : FuncTree) :
    Follows s (tree.analyzeParams p) (tree.analyzeParams p)
      (tree.name.faults ++ (tree.parens.faults ++ (tree.returnType.elim [] TypeTree.faults ++
        (tree.params.flatMap ParamTree.faults ++ tree.rparen.faults)))) := by
  refine .check_bind (.required s tree.name) fun name _ => ?_
  refine .check_bind (.required s tree.parens) fun _ _ => ?_
  refine .bind (tree.follows_analyzeReturn hs.ready) ?_
  intro returnTy s₁ hreturn
  obtain rfl := gives_analyzeReturn hreturn
  refine .nil_bind (hs.ready.follows_declareFunc name returnTy) ?_
  intro id s₁ hdeclare
  obtain ⟨-, rfl, rfl⟩ := gives_declareFunc hdeclare
  refine Follows.nil_bind (.openScope (by exact hs.scope_lt)) ?_
  intro inner s₂ hopen
  obtain ⟨rfl, rfl⟩ := gives_openScope hopen
  refine .bind (ParamTree.followsAll hs tree.params) ?_
  exact fun _ s₃ _ => .check_bind_nil (.required s₃ tree.rparen) fun _ _ => .pure _

theorem follows_sign (hs : s.Settled p) (tree : FuncTree) :
    Follows s (tree.sign p) (tree.sign p)
      (tree.name.faults ++ (tree.parens.faults ++ (tree.returnType.elim [] TypeTree.faults ++
        (tree.params.flatMap ParamTree.faults ++ tree.rparen.faults)))) := by
  refine Follows.bind_nil (tree.follows_analyzeParams hs) ?_
  rintro ⟨inner, id⟩ s₁ hanalyze
  obtain ⟨rfl, rfl, name, returnTy, params, -, hparams⟩ := runs_of_analyzeParams hanalyze
  have hscopes := hparams.scopes_grows ParamStep.scopes_grows (Place.inside_lt p _)
  have hparent : s₁.scopes.parent? s.scopes.size = some p.scope := by
    refine (hscopes.parent?_eq _ (Place.inside_lt p _)).trans ?_
    simp [Place.inside, Store.opened, ScopeTree.parent?_push]
  refine .nil_bind ((hs.ready_params hparams).bounded.follows_leaveParams hparent
    (ParamStep.func_prototype hparams)) ?_
  intro outer s₂ hleave
  obtain ⟨rfl, previous, -, rfl⟩ := gives_leaveParams hparams hleave
  have hclosed := ParamStep.grows_closed hparams hs.scope_lt
  have hlinked := hclosed.arena.linked (Nat.le_refl _) previous
  refine .nil_bind (.reveal (by simpa using hclosed.scope_lt) s.arena.size) ?_
  intro _ s₃ hreveal
  obtain rfl := gives_reveal hreveal
  refine .nil_bind (.enlist (by exact hlinked.members?_context hs.agrees) s.arena.size) ?_
  exact fun _ _ _ => .pure _

theorem follows (hs : s.Settled p) (tree : FuncTree) :
    Follows s (tree.analyze p) (tree.analyze p) tree.faults := by
  have heq : tree.faults = (tree.name.faults ++ (tree.parens.faults ++
      (tree.returnType.elim [] TypeTree.faults ++ (tree.params.flatMap ParamTree.faults ++
        tree.rparen.faults)))) ++ tree.body.faults := by
    simp [FuncTree.faults]
  rw [heq]
  refine .bind (tree.follows_sign hs) ?_
  rintro ⟨outer, id⟩ s₁ hsign
  obtain ⟨rfl, hsignature⟩ := signatureStep_of_sign hsign
  obtain ⟨f, hsigned⟩ := hsignature.exists_signed hs.bounded hs.scope_lt hs.context_lt
  exact tree.body.follows ((FuncStep.prototype hsignature).settled hs) hsigned.func_eq

end FuncTree

/-! ## Classes, enums and items -/

/-- Between two members of a class or enum. -/
structure Store.InTag (s : Store) (p : Place) (kind : TagKind) : Prop extends s.Settled p where
  sort? : s.arena.sort? p.context = some (.tag kind)
  owner : ∃ context, s.arena.parent? p.context = some context
  outer : ∃ scope, s.scopes.parent? p.scope = some scope

theorem Store.InTag.step {s s' : Store} {p : Place} {kind : TagKind} {id : DeclId}
    (h : s.InTag p kind) (hgrows : s.Grows s' p [id] [id]) (hs' : s'.Settled p) :
    s'.InTag p kind where
  toSettled := hs'
  sort? := (hgrows.arena.keeps.sort?_eq h.context_lt).trans h.sort?
  owner := by
    obtain ⟨context, hcontext⟩ := h.owner
    exact ⟨context, (hgrows.arena.keeps.parent?_eq h.context_lt).trans hcontext⟩
  outer := by
    obtain ⟨scope, hscope⟩ := h.outer
    exact ⟨scope, (hgrows.scopes.parent?_eq _ h.scope_lt).trans hscope⟩

theorem Store.Settled.inTag {s : Store} {p : Place} (hs : s.Settled p) {name : String}
    (kind : TagKind) (hfresh : s.Fresh p name false) :
    ((s.tagged p name kind).opened p).InTag { p.inside s with context := s.arena.size } kind := by
  have hd := hs.decl?_member name (.tag kind [])
  refine ⟨hs.inside kind hfresh, ?_, ⟨p.context, ?_⟩, ⟨p.scope, ?_⟩⟩
  · simp [Arena.sort?, Arena.kind?, Store.tagged, hd, DeclKind.sort]
  · simp [Arena.parent?, Store.tagged, hd]
  · simp [Place.inside, Store.opened, ScopeTree.parent?_push]

theorem FieldTree.follows {p : Place} {s : Store} (hs : s.InTag p .classTag) (tree : FieldTree) :
    Follows s (tree.analyze p) (tree.analyze p) tree.faults := by
  have heq : tree.faults = tree.type.faults ++ (tree.name.faults ++ tree.semi.faults) := by
    simp [FieldTree.faults]
  rw [heq]
  refine .ask_bind (tree.type.answers hs.ready) fun ty _ => ?_
  refine .check_bind (.required s tree.name) fun name _ => ?_
  refine .nil_bind (hs.ready.follows_declareField hs.sort? name ty) ?_
  intro id s₁ hdeclare
  obtain ⟨-, -, -, rfl, rfl⟩ := gives_declareField hdeclare
  refine .check_bind_nil (.required _ tree.semi) fun _ _ => ?_
  exact .reveal_enlist hs.toBetween name (.field ty)

theorem MemberTree.follows {p : Place} {s : Store} (hs : s.InTag p .classTag)
    (tree : MemberTree) : Follows s (tree.analyze p) (tree.analyze p) tree.faults := by
  cases tree with
  | field tree => exact tree.follows hs
  | func tree => exact tree.follows hs.toSettled
  | broken fault => exact .fault fault

theorem EnumeratorTree.follows {p : Place} {s : Store} (hs : s.InTag p .enumTag)
    (tree : EnumeratorTree) : Follows s (tree.analyze p) (tree.analyze p) tree.faults := by
  have hrest : ∀ name value, Follows s
      (do
        let id ← declareEnumerator p name value
        Checked.reveal p id
        Checked.enlist p id)
      (do
        let id ← declareEnumerator p name value
        reveal p id
        enlist p id) [] := by
    intro name value
    refine .bind_nil (hs.ready.follows_declareEnumerator hs.sort? name value) ?_
    intro id s₁ hdeclare
    obtain ⟨-, -, v, rfl, rfl⟩ := gives_declareEnumerator hdeclare
    exact .reveal_enlist hs.toBetween name (.enumerator v)
  refine .check_bind (.required s tree.name) fun name _ => ?_
  cases tree.value with
  | none => exact hrest name none
  | some piece =>
      refine Follows.bind_nil ?_ ?_
      · cases piece with
        | ok value => exact .pure _
        | error fault => exact .fault fault
      · intro value s₁ hvalue
        simp only [map_eq_pure_bind, gives_bind, gives_check, gives_pure] at hvalue
        obtain ⟨_, _, ⟨-, rfl⟩, -, rfl⟩ := hvalue
        exact hrest name value

theorem Follows.openTag {kind : TagKind} {p : Place} {s : Store} (hs : s.Settled p)
    (piece : Required String) (lbrace : Required Unit) :
    Follows s (openTag kind p piece lbrace) (openTag kind p piece lbrace)
      (piece.faults ++ lbrace.faults) := by
  refine .check_bind (.required s piece) fun name _ => ?_
  refine Follows.nil_bind (hs.ready.follows_declareTag kind name) ?_
  intro id s₁ hdeclare
  obtain ⟨hfresh, rfl, rfl⟩ := gives_declareTag hdeclare
  have hgrows := (Arena.Grows.refl s.arena p.context).declared p name (.tag kind [])
  refine Follows.nil_bind (.reveal (by exact hs.scope_lt) _) ?_
  intro _ s₂ hreveal
  obtain rfl := gives_reveal hreveal
  refine Follows.nil_bind
    (.enlist (by exact hgrows.members?_context hs.agrees) _) ?_
  intro _ s₃ henlist
  obtain rfl : s₃ = s.tagged p name kind := gives_enlist henlist
  refine Follows.check_bind_nil (.required _ lbrace) ?_
  exact fun _ _ => .enterTag (hs.tagged kind hfresh).scope_lt (hs.inTag kind hfresh).sort?

theorem inTag_of_openTag {kind : TagKind} {p q : Place} {piece : Required String}
    {lbrace : Required Unit} {s s' : Store} (h : Gives (openTag kind p piece lbrace) s q s')
    (hs : s.Settled p) : s'.InTag q kind := by
  obtain ⟨name, -, hfresh, rfl, rfl⟩ := gives_openTag h
  exact hs.inTag kind hfresh

theorem Store.InTag.follows_leaveTag {s : Store} {p : Place} {kind : TagKind}
    (hs : s.InTag p kind) : Follows s (do
      let _ ← Checked.leaveTag p) (do
      let _ ← leaveTag p) [] := by
  obtain ⟨context, hcontext⟩ := hs.owner
  obtain ⟨outer, houter⟩ := hs.outer
  exact .bind_nil (.leaveTag hcontext houter) fun _ _ _ => .pure _

theorem MemberTree.inTag_of_analyze {p : Place} {s s' : Store} {tree : MemberTree}
    (hs : s.InTag p .classTag) (h : Gives (tree.analyze p) s () s') : s'.InTag p .classTag := by
  obtain ⟨id, hstep⟩ := MemberTree.memberStep_of_analyze h
  exact hs.step (hstep.grows hs.scope_lt) (hstep.settled hs.toSettled)

theorem EnumeratorTree.inTag_of_analyze {p : Place} {s s' : Store} {tree : EnumeratorTree}
    (hs : s.InTag p .enumTag) (h : Gives (tree.analyze p) s () s') : s'.InTag p .enumTag := by
  obtain ⟨id, hstep⟩ := EnumeratorTree.enumeratorStep_of_analyze h
  exact hs.step (hstep.grows hs.scope_lt) (hstep.settled hs.toSettled)

theorem ClassTree.follows {p : Place} {s : Store} (hs : s.Settled p) (tree : ClassTree) :
    Follows s (tree.analyze p) (tree.analyze p) tree.faults := by
  refine .bind (.openTag hs tree.name tree.lbrace) ?_
  intro inner s₁ hopen
  have hs₁ := inTag_of_openTag hopen hs
  have hmembers := Follows.forM (fun tree _ hs => MemberTree.follows hs tree)
    MemberTree.inTag_of_analyze tree.members hs₁
  refine Follows.bind_nil hmembers ?_
  intro _ s₂ hgives
  exact (Action.preserves_forM MemberTree.inTag_of_analyze hgives hs₁).follows_leaveTag

theorem EnumTree.follows {p : Place} {s : Store} (hs : s.Settled p) (tree : EnumTree) :
    Follows s (tree.analyze p) (tree.analyze p) tree.faults := by
  have heq : tree.faults = (tree.name.faults ++ tree.lbrace.faults) ++
      (tree.members.flatMap EnumeratorTree.faults ++ tree.rbrace.faults) := by
    simp [EnumTree.faults]
  rw [heq]
  refine .bind (.openTag hs tree.name tree.lbrace) ?_
  intro inner s₁ hopen
  have hs₁ := inTag_of_openTag hopen hs
  have hmembers := Follows.forM (fun tree _ hs => EnumeratorTree.follows hs tree)
    EnumeratorTree.inTag_of_analyze tree.members hs₁
  refine .bind hmembers ?_
  intro _ s₂ hgives
  have hs₂ := Action.preserves_forM EnumeratorTree.inTag_of_analyze hgives hs₁
  refine Follows.check_bind_nil (.required s₂ tree.rbrace) ?_
  exact fun _ _ => hs₂.follows_leaveTag

theorem ItemTree.follows {p : Place} {s : Store} (hs : s.Settled p) (tree : ItemTree) :
    Follows s (tree.analyze p) (tree.analyze p) tree.faults := by
  cases tree with
  | classItem item => exact item.follows hs
  | enumItem item => exact item.follows hs
  | funcItem item => exact item.follows hs
  | varItem item =>
      refine Follows.bind_nil (item.follows hs.ready) ?_
      intro id s₁ hvar
      have hgrows := (VarTree.varStep_of_analyze hvar).grows hs.scope_lt
      exact .enlist (hgrows.arena.members?_context hs.agrees) id
  | broken fault => exact .fault fault

/-! ## Units -/

theorem follows_items (items : List ItemTree) :
    Follows .empty (analyzeItems items) (analyzeItems items)
      (items.flatMap ItemTree.faults) := by
  refine Follows.forM (I := fun s => s.Settled .top) (fun tree _ hs => tree.follows hs) ?_ items
    .empty
  intro tree s s' hs hgives
  obtain ⟨id, hstep⟩ := ItemTree.itemStep_of_analyze hgives
  exact hstep.settled hs

/--
The analysis with all accesses checked has the same outcome for all tokens, so
that no declaration or scope is ever missing, and no action is out of order.
-/
theorem analyzeChecked_eq (tokens : List Token) :
    analyzeChecked tokens = (analyze tokens).mapError .error ∧
      ∀ what, analyze tokens ≠ .error (.outOfOrder what) := by
  have hitems := follows_items (readItems tokens)
  unfold analyzeChecked analyze
  rw [hitems.agrees]
  cases hrun : (analyzeItems (readItems tokens) : Action Unit).run .empty with
  | ok u s => exact ⟨rfl, fun what h => nomatch h⟩
  | error e s =>
      refine ⟨rfl, ?_⟩
      rintro what ⟨⟩
      rcases hitems.blames hrun with hmeaning | ⟨fault, -, hfault⟩
      · cases hmeaning
      · cases hfault

end UnitAnalysis
