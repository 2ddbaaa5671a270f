import Mathlib.Logic.Relation
import UnitAnalysis.Analysis
import UnitAnalysis.Proofs.Action
import UnitAnalysis.Proofs.Update

/-!
# The representation of a store

Actions may be called in any order and at any place that exists, and may fail
halfway.  Whatever they do, declarations and scopes only come to what is there,
and what is there keeps its position in the two trees.

What an action may do is said once, as a relation of stores that has one rule
for each kind of update (`Store.Evolves`).  Each action follows these rules, and
so does every sequence of actions.  Main statement: `Store.rooted_of_steps`.
-/

namespace UnitAnalysis

/-! ## What stays -/

/-- A kind that has got an initializer, a body, or further members or parameters. -/
inductive DeclKind.Evolves : DeclKind → DeclKind → Prop where
  | unit (members later : List DeclId) : Evolves (.unit members) (.unit (members ++ later))
  | var (ty : Ty) (init init' : Option Expr) : Evolves (.var ty init) (.var ty init')
  | field (ty : Ty) : Evolves (.field ty) (.field ty)
  | func {f g : Func} (hty : g.returnTy = f.returnTy) (hparams : f.params <+: g.params) :
      Evolves (.func f) (.func g)
  | tag (kind : TagKind) (members later : List DeclId) :
      Evolves (.tag kind members) (.tag kind (members ++ later))
  | enumerator (value : Int64) : Evolves (.enumerator value) (.enumerator value)

structure Decl.Evolves (d d' : Decl) : Prop where
  name_eq : d'.name = d.name
  parent_eq : d'.parent = d.parent
  kind : d.kind.Evolves d'.kind

/-- Declarations stay where they are, and new ones have an earlier parent. -/
structure Arena.Evolves (a b : Arena) : Prop where
  size_le : a.size ≤ b.size
  old : ∀ {id d}, a.decl? id = some d → ∃ d', b.decl? id = some d' ∧ d.Evolves d'
  new : ∀ {id}, a.size ≤ id → id < b.size → ∃ parent < id, b.parent? id = some parent

/-- Scopes stay where they are, and new ones stand below an earlier scope. -/
structure ScopeTree.Evolves (t u : ScopeTree) : Prop where
  size_le : t.size ≤ u.size
  old : ∀ {id}, id < t.size → u.parent? id = t.parent? id ∧ u.depth id = t.depth id
  new : ∀ {id}, t.size ≤ id → id < u.size →
    ∃ parent < id, u.parent? id = some parent ∧ u.depth id = u.depth parent + 1

structure Store.Evolves (s s' : Store) : Prop where
  arena : s.arena.Evolves s'.arena
  scopes : s.scopes.Evolves s'.scopes

namespace DeclKind.Evolves

theorem refl (k : DeclKind) : k.Evolves k := by
  cases k with
  | unit members => simpa using unit members []
  | var ty init => exact .var ty init init
  | field ty => exact .field ty
  | func f => exact .func rfl List.prefix_rfl
  | tag kind members => simpa using tag kind members []
  | enumerator value => exact .enumerator value

theorem trans {k k' k'' : DeclKind} (h : k.Evolves k') (h' : k'.Evolves k'') : k.Evolves k'' := by
  cases h with
  | unit members later =>
      cases h' with
      | unit _ more => simpa using unit members (later ++ more)
  | var ty init init' =>
      cases h' with
      | var _ _ init'' => exact .var ty init init''
  | field ty => exact h'
  | func hty hparams =>
      cases h' with
      | func hty' hparams' => exact .func (hty'.trans hty) (hparams.trans hparams')
  | tag kind members later =>
      cases h' with
      | tag _ _ more => simpa using tag kind members (later ++ more)
  | enumerator value => exact h'

theorem addMember (id : DeclId) (k : DeclKind) : k.Evolves (k.addMember id) := by
  cases k with
  | unit members => exact .unit members [id]
  | tag kind members => exact .tag kind members [id]
  | _ => exact refl _

theorem setInit (init : Expr) (k : DeclKind) : k.Evolves (k.setInit init) := by
  cases k with
  | var ty old => exact .var ty old (some init)
  | _ => exact refl _

theorem mapFunc {change : Func → Func} (hty : ∀ f, (change f).returnTy = f.returnTy)
    (hparams : ∀ f, f.params <+: (change f).params) (k : DeclKind) :
    k.Evolves (k.mapFunc change) := by
  cases k with
  | func f => exact .func (hty f) (hparams f)
  | _ => exact refl _

end DeclKind.Evolves

theorem Decl.Evolves.refl (d : Decl) : d.Evolves d :=
  ⟨rfl, rfl, .refl d.kind⟩

theorem Decl.Evolves.trans {d d' d'' : Decl} (h : d.Evolves d') (h' : d'.Evolves d'') :
    d.Evolves d'' :=
  ⟨h'.name_eq.trans h.name_eq, h'.parent_eq.trans h.parent_eq, h.kind.trans h'.kind⟩

namespace Arena.Evolves

variable {a b c : Arena}

theorem refl (a : Arena) : a.Evolves a where
  size_le := Nat.le_refl _
  old hd := ⟨_, hd, .refl _⟩
  new hle hlt := absurd hle (Nat.not_le.mpr hlt)

theorem parent?_eq (h : a.Evolves b) {id : DeclId} (hid : id < a.size) :
    b.parent? id = a.parent? id := by
  obtain ⟨d, hd⟩ := exists_decl?_of_lt hid
  obtain ⟨d', hd', hevolves⟩ := h.old hd
  simp only [parent?, hd, hd', Option.bind_some, hevolves.parent_eq]

theorem trans (h : a.Evolves b) (h' : b.Evolves c) : a.Evolves c where
  size_le := Nat.le_trans h.size_le h'.size_le
  old hd := by
    obtain ⟨d', hd', hevolves⟩ := h.old hd
    obtain ⟨d'', hd'', hevolves'⟩ := h'.old hd'
    exact ⟨d'', hd'', hevolves.trans hevolves'⟩
  new {id} hle hlt := by
    by_cases hid : id < b.size
    · rw [h'.parent?_eq hid]
      exact h.new hle hid
    · exact h'.new (Nat.not_lt.mp hid) hlt

theorem push (a : Arena) (name : String) {context : DeclId} (hcontext : context < a.size)
    (kind : DeclKind) : a.Evolves (a.push ⟨some name, some context, kind⟩) where
  size_le := by simp
  old {id d} hd := by
    refine ⟨d, ?_, .refl d⟩
    rw [decl?_push, if_neg (Nat.ne_of_lt (decl?_eq_some_lt hd)), hd]
  new {id} hle hlt := by
    obtain rfl : id = a.size := by
      rw [size_push] at hlt
      omega
    exact ⟨context, hcontext, by simp [parent?, decl?_push]⟩

theorem intern (a : Arena) (name : String) : a.Evolves (a.intern name) where
  size_le := by simp
  old {id d} hd := ⟨d, by rw [decl?_intern, hd], .refl d⟩
  new hle hlt := absurd hle (Nat.not_le.mpr (by simpa using hlt))

theorem modifyKind (a : Arena) (changed : DeclId) {change : DeclKind → DeclKind}
    (h : ∀ k : DeclKind, k.Evolves (change k)) : a.Evolves (a.modifyKind changed change) where
  size_le := by simp
  old {id d} hd := by
    rw [decl?_modifyKind, hd]
    split
    · exact ⟨_, rfl, rfl, rfl, h d.kind⟩
    · exact ⟨d, rfl, .refl d⟩
  new hle hlt := absurd hle (Nat.not_le.mpr (by simpa using hlt))

end Arena.Evolves

namespace ScopeTree

variable {t u v : ScopeTree}

theorem depth_push (t : ScopeTree) (parent id : ScopeId) :
    (t.push parent).depth id = if id = t.size then t.depth parent + 1 else t.depth id := by
  unfold depth scope? push size
  rw [Array.getElem?_push]
  by_cases h : id = t.scopes.size <;> simp [h, depth, scope?]

@[simp] theorem depth_modifyVisible (t : ScopeTree) (changed id : ScopeId)
    (change : List DeclId → List DeclId) :
    (t.modifyVisible changed change).depth id = t.depth id := by
  unfold depth scope? modifyVisible
  rw [Array.getElem?_modify]
  by_cases h : changed = id
  · subst h
    cases t.scopes[changed]? <;> simp
  · simp [h]

theorem Evolves.refl (t : ScopeTree) : t.Evolves t where
  size_le := Nat.le_refl _
  old _ := ⟨rfl, rfl⟩
  new hle hlt := absurd hle (Nat.not_le.mpr hlt)

theorem Evolves.trans (h : t.Evolves u) (h' : u.Evolves v) : t.Evolves v where
  size_le := Nat.le_trans h.size_le h'.size_le
  old {id} hid := by
    obtain ⟨hparent, hdepth⟩ := h.old hid
    obtain ⟨hparent', hdepth'⟩ := h'.old (Nat.lt_of_lt_of_le hid h.size_le)
    exact ⟨hparent'.trans hparent, hdepth'.trans hdepth⟩
  new {id} hle hlt := by
    by_cases hid : id < u.size
    · obtain ⟨parent, hparent, hup, hdepth⟩ := h.new hle hid
      obtain ⟨hup', hdepth'⟩ := h'.old hid
      refine ⟨parent, hparent, hup'.trans hup, ?_⟩
      rw [hdepth', hdepth, (h'.old (Nat.lt_trans hparent hid)).2]
    · exact h'.new (Nat.not_lt.mp hid) hlt

theorem Evolves.push (t : ScopeTree) {parent : ScopeId} (hparent : parent < t.size) :
    t.Evolves (t.push parent) where
  size_le := by simp
  old {id} hid := by
    rw [parent?_push, depth_push, if_neg (Nat.ne_of_lt hid), if_neg (Nat.ne_of_lt hid)]
    exact ⟨rfl, rfl⟩
  new {id} hle hlt := by
    obtain rfl : id = t.size := by
      rw [size_push] at hlt
      omega
    refine ⟨parent, hparent, ?_, ?_⟩
    · rw [parent?_push, if_pos rfl]
    · rw [depth_push, if_pos rfl, depth_push, if_neg (Nat.ne_of_lt hparent)]

theorem Evolves.modifyVisible (t : ScopeTree) (changed : ScopeId)
    (change : List DeclId → List DeclId) : t.Evolves (t.modifyVisible changed change) where
  size_le := by simp
  old _ := by simp
  new hle hlt := absurd hle (Nat.not_le.mpr (by simpa using hlt))

theorem Evolves.addAll (t : ScopeTree) (scope : ScopeId) (decls : List DeclId) :
    t.Evolves (decls.foldl (·.add scope ·) t) := by
  induction decls generalizing t with
  | nil => exact .refl t
  | cons decl decls ih => exact (Evolves.modifyVisible t scope _).trans (ih _)

end ScopeTree

namespace Store.Evolves

variable {s s' s'' : Store}

theorem refl (s : Store) : s.Evolves s :=
  ⟨.refl _, .refl _⟩

theorem trans (h : s.Evolves s') (h' : s'.Evolves s'') : s.Evolves s'' :=
  ⟨h.arena.trans h'.arena, h.scopes.trans h'.scopes⟩

theorem of_arena {arena : Arena} (h : s.arena.Evolves arena) :
    s.Evolves { s with arena := arena } :=
  ⟨h, .refl _⟩

theorem of_scopes {scopes : ScopeTree} (h : s.scopes.Evolves scopes) :
    s.Evolves { s with scopes := scopes } :=
  ⟨.refl _, h⟩

end Store.Evolves

/-! ## Actions -/

namespace Action

variable {α β : Type} {s : Store}

/-- The store that an action leaves, also when it fails. -/
def after (x : Action α) (s : Store) : Store :=
  match x.run s with
  | .ok _ s' | .error _ s' => s'

def Evolves (x : Action α) (s : Store) : Prop :=
  s.Evolves (x.after s)

namespace Evolves

theorem pure (a : α) : Evolves (Pure.pure a) s :=
  .refl s

theorem throw (e : Error) : Evolves (MonadExcept.throw e : Action α) s :=
  .refl s

theorem bind {x : Action α} {f : α → Action β} (h : x.Evolves s)
    (hnext : ∀ a s', Gives x s a s' → (f a).Evolves s') : (x >>= f).Evolves s := by
  unfold Evolves after at h ⊢
  rw [EStateM.run_bind]
  cases hx : x.run s with
  | ok a s' =>
      rw [hx] at h
      exact h.trans (hnext a s' hx)
  | error e s' =>
      rw [hx] at h
      exact h

theorem get_bind {f : Store → Action β} (h : (f s).Evolves s) : (get >>= f).Evolves s :=
  h

theorem check (x : Except Error α) : Evolves (liftM x) s := by
  cases x with
  | ok a => exact .refl s
  | error e => exact .refl s

theorem check_bind {x : Except Error α} {f : α → Action β}
    (h : ∀ a, x = .ok a → (f a).Evolves s) : Evolves (liftM x >>= f) s := by
  cases x with
  | ok a => exact h a rfl
  | error e => exact .refl s

theorem ask (query : Store → Except Error α) : Evolves (Effects.ask query) s :=
  get_bind (.check (query s))

theorem ask_bind {query : Store → Except Error α} {f : α → Action β}
    (h : ∀ a, query s = .ok a → (f a).Evolves s) : (Effects.ask query >>= f).Evolves s := by
  refine (ask query).bind fun a s' hgives => ?_
  obtain ⟨ha, rfl⟩ := gives_ask.mp hgives
  exact h a ha

theorem update {change : Store → Store} (h : s.Evolves (change s)) :
    Evolves (modify change) s :=
  h

theorem update_get {change : Store → α × Store} (h : s.Evolves (change s).2) :
    Evolves (modifyGet change) s :=
  h

end Evolves

end Action

open UnitAnalysis.Action (Evolves)

variable {s : Store} {p : Place}

theorem evolves_declare (hp : p.context < s.arena.size) (name : String) (kind : DeclKind) :
    (declare p name kind).Evolves s := by
  refine Evolves.update_get (.of_arena ((Arena.Evolves.intern s.arena name).trans ?_))
  exact .push _ name (by rwa [Arena.size_intern]) kind

theorem evolves_declareVar (hp : p.context < s.arena.size) (name : String) (ty : Ty) :
    Evolves (declareVar p name ty) s :=
  .ask_bind fun _ _ => .check_bind fun _ _ => evolves_declare hp name _

theorem evolves_declareField (hp : p.context < s.arena.size) (name : String) (ty : Ty) :
    Evolves (declareField p name ty) s :=
  .ask_bind fun _ _ => .ask_bind fun _ _ => .check_bind fun _ _ => evolves_declare hp name _

theorem evolves_declareTag (hp : p.context < s.arena.size) (kind : TagKind) (name : String) :
    Evolves (declareTag kind p name) s :=
  .ask_bind fun _ _ => evolves_declare hp name _

theorem evolves_declareEnumerator (hp : p.context < s.arena.size) (name : String)
    (value : Option Int64) : Evolves (declareEnumerator p name value) s := by
  refine .ask_bind fun _ _ => .ask_bind fun _ _ => .ask_bind fun _ _ => ?_
  split
  · exact evolves_declare hp name _
  · exact .check _

theorem evolves_declareFunc (hp : p.context < s.arena.size) (name : String) (returnTy : Ty) :
    Evolves (declareFunc p name returnTy) s :=
  .ask_bind fun _ _ => evolves_declare hp name _

theorem evolves_modifyKind (id : DeclId) {change : DeclKind → DeclKind}
    (h : ∀ k : DeclKind, k.Evolves (change k)) :
    Evolves (modify fun s => { s with arena := s.arena.modifyKind id change }) s :=
  .update (.of_arena (.modifyKind s.arena id h))

theorem evolves_addParam (function param : DeclId) : (addParam function param).Evolves s := by
  refine .get_bind (.check_bind fun _ _ => evolves_modifyKind function ?_)
  exact .mapFunc (fun _ => rfl) fun _ => List.prefix_append _ _

theorem evolves_declareParam (hp : p.context < s.arena.size) (function : DeclId) (name : String)
    (ty : Ty) : Evolves (declareParam p function name ty) s := by
  refine .ask_bind fun _ _ => .check_bind fun _ _ => ?_
  refine (evolves_declare hp name _).bind fun param _ _ => ?_
  exact (evolves_addParam function param).bind fun _ _ _ => .pure param

theorem evolves_reveal (p : Place) (id : DeclId) : (reveal p id).Evolves s :=
  .update (.of_scopes (.modifyVisible s.scopes p.scope _))

theorem evolves_enlist (p : Place) (id : DeclId) : (enlist p id).Evolves s := by
  refine .get_bind (.check_bind fun arena harena => .update (.of_arena ?_))
  unfold Arena.addMember at harena
  split at harena
  · cases harena
    exact .modifyKind _ _ (.addMember id)
  · contradiction

theorem evolves_storeInit (id : DeclId) (init : Expr) : (storeInit id init).Evolves s :=
  .get_bind (.check_bind fun _ _ => .check_bind fun init _ => evolves_modifyKind id (.setInit init))

theorem evolves_openScope (hp : p.scope < s.scopes.size) : (openScope p).Evolves s :=
  .update_get (.of_scopes (.push s.scopes hp))

theorem evolves_closeScope (p : Place) : (closeScope p).Evolves s := by
  refine .get_bind (.check_bind fun popped hpop => ?_)
  refine Evolves.bind (.update (.of_scopes ?_)) fun _ _ _ => .pure _
  unfold ScopeTree.pop at hpop
  split at hpop
  · cases hpop
    exact ScopeTree.Evolves.modifyVisible s.scopes p.scope fun _ => []
  · contradiction

theorem evolves_enterTag (hp : p.scope < s.scopes.size) (tag : DeclId) :
    (enterTag p tag).Evolves s := by
  refine .get_bind ?_
  split
  · exact (evolves_openScope hp).bind fun _ _ _ => .pure _
  · exact .throw _

theorem evolves_leaveTag (p : Place) : (leaveTag p).Evolves s := by
  refine .get_bind ?_
  split
  · exact (evolves_closeScope p).bind fun _ _ _ => .pure _
  · exact .throw _

theorem evolves_leaveParams (p : Place) (function : DeclId) :
    (leaveParams p function).Evolves s := by
  refine (evolves_closeScope p).bind fun outer s' _ => .get_bind (.check_bind fun previous _ => ?_)
  cases previous with
  | none => exact .pure outer
  | some earlier =>
      refine (evolves_modifyKind function ?_).bind fun _ _ _ => .pure outer
      exact .mapFunc (fun _ => rfl) fun _ => List.prefix_rfl

theorem evolves_enterBody (hp : p.scope < s.scopes.size) (function : DeclId) :
    (enterBody p function).Evolves s := by
  refine .get_bind (.check_bind fun defined _ => ?_)
  cases defined with
  | true => exact .throw _
  | false =>
      refine .check_bind fun f _ => (evolves_openScope hp).bind fun inner s' _ => ?_
      exact Evolves.bind (.update (.of_scopes (.addAll s'.scopes inner.scope f.params)))
        fun _ _ _ => .pure _

theorem evolves_leaveBody (p : Place) (body : List Stmt) : (leaveBody p body).Evolves s := by
  unfold leaveBody
  cases p.function with
  | none => exact .throw _
  | some function =>
      refine .get_bind (.check_bind fun _ _ => ?_)
      refine (evolves_modifyKind function ?_).bind fun _ _ _ => ?_
      · exact .mapFunc (fun _ => rfl) fun _ => List.prefix_rfl
      · exact (evolves_closeScope p).bind fun _ _ _ => .pure _

/-! ## Sequences of actions -/

/-- A place whose scope, context and function exist. -/
structure Place.InRange (p : Place) (s : Store) : Prop where
  scope_lt : p.scope < s.scopes.size
  context_lt : p.context < s.arena.size
  function_lt : ∀ function ∈ p.function, function < s.arena.size

/--
One action, at any place and with any declarations that exist, whether it
succeeds or fails.  Queries are all those that read the store and leave it:
lookups, references to declarations, calls and return statements.
-/
inductive Store.Step (s : Store) : Store → Prop where
  | declareVar {p : Place} (hp : p.InRange s) (name : String) (ty : Ty) :
      Step s (Action.after (declareVar p name ty) s)
  | declareField {p : Place} (hp : p.InRange s) (name : String) (ty : Ty) :
      Step s (Action.after (declareField p name ty) s)
  | declareTag {p : Place} (hp : p.InRange s) (kind : TagKind) (name : String) :
      Step s (Action.after (declareTag kind p name) s)
  | declareEnumerator {p : Place} (hp : p.InRange s) (name : String) (value : Option Int64) :
      Step s (Action.after (declareEnumerator p name value) s)
  | declareFunc {p : Place} (hp : p.InRange s) (name : String) (returnTy : Ty) :
      Step s (Action.after (declareFunc p name returnTy) s)
  | declareParam {p : Place} (hp : p.InRange s) {function : DeclId}
      (hfunction : function < s.arena.size) (name : String) (ty : Ty) :
      Step s (Action.after (declareParam p function name ty) s)
  | reveal {p : Place} (hp : p.InRange s) {id : DeclId} (hid : id < s.arena.size) :
      Step s ((reveal p id).after s)
  | enlist {p : Place} (hp : p.InRange s) {id : DeclId} (hid : id < s.arena.size) :
      Step s ((enlist p id).after s)
  | storeInit {id : DeclId} (hid : id < s.arena.size) (init : Expr) :
      Step s ((storeInit id init).after s)
  | enterTag {p : Place} (hp : p.InRange s) {tag : DeclId} (htag : tag < s.arena.size) :
      Step s ((enterTag p tag).after s)
  | leaveTag {p : Place} (hp : p.InRange s) : Step s ((leaveTag p).after s)
  | enterParams {p : Place} (hp : p.InRange s) : Step s ((enterParams p).after s)
  | leaveParams {p : Place} (hp : p.InRange s) {function : DeclId}
      (hfunction : function < s.arena.size) : Step s ((leaveParams p function).after s)
  | enterBlock {p : Place} (hp : p.InRange s) : Step s ((enterBlock p).after s)
  | leaveBlock {p : Place} (hp : p.InRange s) : Step s ((leaveBlock p).after s)
  | enterBody {p : Place} (hp : p.InRange s) {function : DeclId}
      (hfunction : function < s.arena.size) : Step s ((enterBody p function).after s)
  | leaveBody {p : Place} (hp : p.InRange s) (body : List Stmt) :
      Step s ((leaveBody p body).after s)
  | query {α : Type} (ask : Store → Except Error α) :
      Step s (Action.after (do ask (← get) : Action α) s)

theorem Store.Step.evolves {s s' : Store} (h : s.Step s') : s.Evolves s' := by
  cases h with
  | declareVar hp name ty => exact evolves_declareVar hp.context_lt name ty
  | declareField hp name ty => exact evolves_declareField hp.context_lt name ty
  | declareTag hp kind name => exact evolves_declareTag hp.context_lt kind name
  | declareEnumerator hp name value => exact evolves_declareEnumerator hp.context_lt name value
  | declareFunc hp name returnTy => exact evolves_declareFunc hp.context_lt name returnTy
  | declareParam hp _ name ty => exact evolves_declareParam hp.context_lt _ name ty
  | reveal hp _ => exact evolves_reveal _ _
  | enlist hp _ => exact evolves_enlist _ _
  | storeInit _ init => exact evolves_storeInit _ init
  | enterTag hp _ => exact evolves_enterTag hp.scope_lt _
  | leaveTag hp => exact evolves_leaveTag _
  | enterParams hp => exact evolves_openScope hp.scope_lt
  | leaveParams hp _ => exact evolves_leaveParams _ _
  | enterBlock hp => exact evolves_openScope hp.scope_lt
  | leaveBlock hp => exact evolves_closeScope _
  | enterBody hp _ => exact evolves_enterBody hp.scope_lt _
  | leaveBody hp body => exact evolves_leaveBody _ body
  | query ask => exact Action.Evolves.get_bind (.check (ask s))

theorem Store.evolves_of_steps {s s' : Store} (h : Relation.ReflTransGen Store.Step s s') :
    s.Evolves s' := by
  induction h with
  | refl => exact .refl s
  | tail _ hstep ih => exact ih.trans hstep.evolves

/-! ## Rooted stores -/

/-- The first declaration is the unit, and each other one has an earlier parent. -/
structure Arena.Rooted (a : Arena) : Prop where
  root : ∃ members, a.decl? root = some ⟨none, none, .unit members⟩
  parent_lt : ∀ {id}, 0 < id → id < a.size → ∃ parent < id, a.parent? id = some parent

/-- The first scope is the outermost one, and each other one stands below an earlier one. -/
structure ScopeTree.Rooted (t : ScopeTree) : Prop where
  size_pos : 0 < t.size
  root : t.parent? root = none ∧ t.depth root = 0
  parent_lt : ∀ {id}, 0 < id → id < t.size →
    ∃ parent < id, t.parent? id = some parent ∧ t.depth id = t.depth parent + 1

structure Store.Rooted (s : Store) : Prop where
  arena : s.arena.Rooted
  scopes : s.scopes.Rooted

theorem Arena.Evolves.rooted {a : Arena} (h : Arena.empty.Evolves a) : a.Rooted where
  root := by
    have hempty : Arena.empty.decl? root = some ⟨none, none, .unit []⟩ := rfl
    obtain ⟨⟨name, parent, kind⟩, hd, hname, hparent, hkind⟩ := h.old hempty
    cases hkind with
    | unit _ later =>
        cases hname
        cases hparent
        exact ⟨_, hd⟩
  parent_lt hpos hid := h.new hpos hid

theorem ScopeTree.Evolves.rooted {t : ScopeTree} (h : ScopeTree.empty.Evolves t) : t.Rooted where
  size_pos := h.size_le
  root := h.old Nat.zero_lt_one
  parent_lt hpos hid := h.new hpos hid

/-! ## The walk outwards -/

namespace ScopeTree

/--
The walk of a lookup outwards, through at most `levels` scopes.  Has no answer
when it has not come to an end by then.
-/
def lookupWithin (t : ScopeTree) (a : Arena) (name : String) (sel : Selector) :
    Nat → ScopeId → Option (List DeclId)
  | 0, _ => none
  | levels + 1, id =>
      match t.lookupLocal a id name sel with
      | [] =>
          match t.parent? id with
          | some parent => t.lookupWithin a name sel levels parent
          | none => some []
      | found => some found

/-- The walk ends at the outermost scope, which is as far away as the depth says. -/
theorem Rooted.lookupWithin_depth {t : ScopeTree} (h : t.Rooted) (a : Arena) (name : String)
    (sel : Selector) (id : ScopeId) (hid : id < t.size) :
    t.lookupWithin a name sel (t.depth id + 1) id = some (t.lookup a id name sel) := by
  induction id using Nat.strongRecOn with
  | ind id ih =>
      rw [lookupWithin, lookup]
      cases t.lookupLocal a id name sel with
      | cons x xs => rfl
      | nil =>
          by_cases hpos : 0 < id
          · obtain ⟨parent, hlt, hup, hdepth⟩ := h.parent_lt hpos hid
            simp only [hup, hlt, if_true, hdepth]
            exact ih parent hlt (Nat.lt_trans hlt hid)
          · obtain rfl : id = ScopeTree.root := Nat.eq_zero_of_not_pos hpos
            simp only [h.root.1]

end ScopeTree

/--
Whatever actions are taken, the store stays rooted, nothing in it loses its
place or its type, and each lookup ends within the depth of its scope.
-/
theorem Store.rooted_of_steps {s s' : Store} (h : Relation.ReflTransGen Store.Step .empty s)
    (h' : Relation.ReflTransGen Store.Step s s') :
    s'.Rooted ∧ s.Evolves s' ∧ ∀ id < s'.scopes.size, ∀ name sel,
      s'.scopes.lookupWithin s'.arena name sel (s'.scopes.depth id + 1) id =
        some (s'.scopes.lookup s'.arena id name sel) := by
  have hempty := Store.evolves_of_steps (h.trans h')
  have hscopes := hempty.scopes.rooted
  exact ⟨⟨hempty.arena.rooted, hscopes⟩, Store.evolves_of_steps h',
    fun id hid name sel => hscopes.lookupWithin_depth s'.arena name sel id hid⟩

/-- The variable `x`, and then a parameter `y` of it, which fails but stays declared. -/
theorem Store.rooted_failed_param : ∃ s s' : Store,
    s = Action.after (declareVar .top "x" (.ofBuiltin .vi8)) .empty ∧
    s' = Action.after (declareParam .top 1 "y" (.ofBuiltin .vi8)) s ∧ s'.arena.size = 3 ∧
    s'.Rooted ∧ s.Evolves s' ∧ ∀ id < s'.scopes.size, ∀ name sel,
      s'.scopes.lookupWithin s'.arena name sel (s'.scopes.depth id + 1) id =
        some (s'.scopes.lookup s'.arena id name sel) := by
  refine ⟨_, _, rfl, rfl, by decide, Store.rooted_of_steps (.single (.declareVar ?_ "x" _))
    (.single (.declareParam ?_ ?_ "y" _))⟩
  · exact ⟨by decide, by decide, by nofun⟩
  · exact ⟨by decide, by decide, by nofun⟩
  · decide

end UnitAnalysis
