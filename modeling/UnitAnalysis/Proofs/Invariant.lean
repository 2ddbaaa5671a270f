import UnitAnalysis.Proofs.Signature

/-!
# Properties of every declaration

A property of declarations that looks at the declaration itself and otherwise
only at the faces of others stays true while a run goes on.  It therefore holds
of every declaration of an accepted unit as soon as it holds of each one when
its construct is complete.  Main statement: `DeclInvariant.of_unitRun`.
-/

namespace UnitAnalysis

/-! ## Faces -/

/-- A kind without its members. -/
def DeclKind.bare : DeclKind → DeclKind
  | .unit _ => .unit []
  | .tag kind _ => .tag kind []
  | kind => kind

/-- What other declarations may rely on: no members, no initializer, no body. -/
def DeclKind.face : DeclKind → DeclKind
  | .unit _ => .unit []
  | .tag kind _ => .tag kind []
  | .var ty _ => .var ty none
  | .func f => .func { f with body := none }
  | kind => kind

@[simp] theorem DeclKind.face_bare (kind : DeclKind) : kind.bare.face = kind.face := by
  cases kind <;> rfl

@[simp] theorem DeclKind.sort_face (kind : DeclKind) : kind.face.sort = kind.sort := by
  cases kind <;> rfl

@[simp] theorem DeclKind.bare_addMembers (ids : List DeclId) (kind : DeclKind) :
    (kind.addMembers ids).bare = kind.bare := by
  cases kind <;> rfl

def Arena.bare? (a : Arena) (id : DeclId) : Option Decl :=
  (a.decl? id).map fun d => { d with kind := d.kind.bare }

def Arena.face? (a : Arena) (id : DeclId) : Option Decl :=
  (a.decl? id).map fun d => { d with kind := d.kind.face }

theorem Arena.face?_eq_of_bare? {a a' : Arena} {id : DeclId} (h : a'.bare? id = a.bare? id) :
    a'.face? id = a.face? id := by
  have hface : ∀ b : Arena, b.face? id =
      (b.bare? id).map fun d => { d with kind := d.kind.face } := by
    intro b
    cases hb : b.decl? id <;> simp [face?, bare?, hb]
  rw [hface a, hface a', h]

structure Arena.Keeps (a a' : Arena) : Prop where
  size_le : a.size ≤ a'.size
  face?_eq : ∀ id < a.size, a'.face? id = a.face? id

namespace Arena.Keeps

variable {a b c : Arena} {id : DeclId}

theorem refl (a : Arena) : a.Keeps a :=
  ⟨Nat.le_refl _, fun _ _ => rfl⟩

theorem trans (hab : a.Keeps b) (hbc : b.Keeps c) : a.Keeps c where
  size_le := Nat.le_trans hab.size_le hbc.size_le
  face?_eq id hid := by
    rw [hbc.face?_eq id (Nat.lt_of_lt_of_le hid hab.size_le), hab.face?_eq id hid]

theorem exists_decl? (h : a.Keeps b) {d : Decl} (hd : a.decl? id = some d) :
    ∃ d', b.decl? id = some d' ∧ d'.name = d.name ∧ d'.parent = d.parent ∧
      d'.kind.face = d.kind.face := by
  have hface := h.face?_eq id (decl?_eq_some_lt hd)
  unfold face? at hface
  rw [hd] at hface
  obtain ⟨d', hd', heq⟩ := Option.map_eq_some_iff.mp hface
  injection heq with hname hparent hkind
  exact ⟨d', hd', hname, hparent, hkind⟩

theorem name?_eq (h : a.Keeps b) (hid : id < a.size) : b.name? id = a.name? id := by
  obtain ⟨d, hd⟩ := exists_decl?_of_lt hid
  obtain ⟨d', hd', hname, -, -⟩ := h.exists_decl? hd
  simp [name?, hd, hd', hname]

theorem parent?_eq (h : a.Keeps b) (hid : id < a.size) : b.parent? id = a.parent? id := by
  obtain ⟨d, hd⟩ := exists_decl?_of_lt hid
  obtain ⟨d', hd', -, hparent, -⟩ := h.exists_decl? hd
  simp [parent?, hd, hd', hparent]

theorem sort?_eq (h : a.Keeps b) (hid : id < a.size) : b.sort? id = a.sort? id := by
  obtain ⟨d, hd⟩ := exists_decl?_of_lt hid
  obtain ⟨d', hd', -, -, hkind⟩ := h.exists_decl? hd
  have hsort : d'.kind.sort = d.kind.sort := by
    rw [← DeclKind.sort_face, hkind, DeclKind.sort_face]
  simp [sort?, kind?, hd, hd', hsort]

theorem func_eq_ok (h : a.Keeps b) {f : Func} (hf : a.func id = .ok f) :
    ∃ body, b.func id = .ok { f with body := body } := by
  obtain ⟨d, hd, hkind⟩ := func_eq_ok_iff.mp hf
  obtain ⟨d', hd', -, -, hface⟩ := h.exists_decl? hd
  rw [hkind] at hface
  cases hk : d'.kind with
  | func g =>
      simp only [hk, DeclKind.face, DeclKind.func.injEq, Func.mk.injEq] at hface
      refine ⟨g.body, func_eq_ok_iff.mpr ⟨d', hd', ?_⟩⟩
      rw [hk]
      obtain ⟨hparams, hreturn, -, hprevious⟩ := hface
      cases g
      simp_all
  | _ => simp [hk, DeclKind.face] at hface

theorem func_of_func (h : a.Keeps b) (hid : id < a.size) {g : Func} (hg : b.func id = .ok g) :
    ∃ f, a.func id = .ok f ∧ g = { f with body := g.body } := by
  obtain ⟨d', hd', hkind'⟩ := func_eq_ok_iff.mp hg
  obtain ⟨d, hd⟩ := exists_decl?_of_lt hid
  obtain ⟨e, he, -, -, hface⟩ := h.exists_decl? hd
  obtain rfl := Option.some.inj (he.symm.trans hd')
  rw [hkind'] at hface
  cases hk : d.kind with
  | func f =>
      refine ⟨f, func_eq_ok_iff.mpr ⟨d, hd, hk⟩, ?_⟩
      simp only [hk, DeclKind.face, DeclKind.func.injEq, Func.mk.injEq] at hface
      obtain ⟨hparams, hreturn, -, hprevious⟩ := hface
      cases g
      simp_all
  | _ => simp [hk, DeclKind.face] at hface

theorem varTy_eq_ok (h : a.Keeps b) {ty : Ty} (hty : a.varTy id = .ok ty) :
    b.varTy id = .ok ty := by
  obtain ⟨d, init, hd, hkind⟩ := varTy_eq_ok_iff.mp hty
  obtain ⟨d', hd', -, -, hface⟩ := h.exists_decl? hd
  rw [hkind] at hface
  cases hk : d'.kind with
  | var ty' init' =>
      simp only [hk, DeclKind.face, DeclKind.var.injEq] at hface
      exact varTy_eq_ok_iff.mpr ⟨d', init', hd', by rw [hk, hface.1]⟩
  | _ => simp [hk, DeclKind.face] at hface

end Arena.Keeps

theorem Arena.Grows.bare?_eq {a b : Arena} {context : DeclId} {ids : List DeclId}
    (h : a.Grows b context ids) {id : DeclId} (hid : id < a.size) :
    b.bare? id = a.bare? id := by
  unfold bare?
  rw [h.decl?_eq id hid]
  by_cases hc : id = context
  · simp [hc, Function.comp_def, Decl.addMembers]
  · simp [hc]

theorem Arena.Grows.keeps {a b : Arena} {context : DeclId} {ids : List DeclId}
    (h : a.Grows b context ids) : a.Keeps b where
  size_le := h.size_le
  face?_eq _ hid := face?_eq_of_bare? (h.bare?_eq hid)

theorem Arena.kind?_eq_of_bare? {a b : Arena} {id : DeclId} {kind : DeclKind}
    (h : b.bare? id = a.bare? id) (hkind : b.kind? id = some kind) :
    ∃ kind', a.kind? id = some kind' ∧ kind'.bare = kind.bare := by
  obtain ⟨d', hd', rfl⟩ := kind?_eq_some_iff.mp hkind
  simp only [bare?, hd', Option.map_some] at h
  obtain ⟨d, hd, heq⟩ := Option.map_eq_some_iff.mp h.symm
  injection heq with _ _ hk
  exact ⟨d.kind, kind?_eq_some_iff.mpr ⟨d, hd, rfl⟩, hk⟩

theorem Store.bare?_mapFunc_of_ne {s : Store} {id x : DeclId} (change : Func → Func)
    (hne : x ≠ id) : (s.mapFunc id change).arena.bare? x = s.arena.bare? x := by
  unfold Arena.bare?
  rw [Store.decl?_mapFunc, if_neg hne]

theorem Store.keeps_declared (s : Store) (p : Place) (name : String) {kind kind' : DeclKind}
    (h : kind.face = kind'.face) :
    (s.declared p name kind).arena.Keeps (s.declared p name kind').arena where
  size_le := by simp
  face?_eq x _ := by
    unfold Arena.face?
    rw [Store.decl?_declared, Store.decl?_declared]
    split
    · simp [h]
    · rfl

theorem Store.keeps_setBody (s : Store) (id : DeclId) (body : List Stmt) :
    s.arena.Keeps (s.mapFunc id fun f => { f with body := some body }).arena where
  size_le := by simp
  face?_eq x _ := by
    unfold Arena.face?
    rw [Store.decl?_mapFunc]
    by_cases hx : x = id
    · rw [if_pos hx]
      cases s.arena.decl? x with
      | none => rfl
      | some d => cases hk : d.kind <;> simp [hk, DeclKind.mapFunc, DeclKind.face]
    · rw [if_neg hx]

theorem BlockRun.kind?_setBody {p : Place} {s s' : Store} {id : DeclId} {f : Func}
    {stmts : List Stmt} (h : BlockRun p s stmts s') (hp : p.scope < s.scopes.size)
    (hf : s.arena.func id = .ok f) (body : List Stmt) :
    (s'.mapFunc id fun f => { f with body := some body }).arena.kind? id =
      some (.func { f with body := some body }) := by
  obtain ⟨d, hd, hkind⟩ := Arena.func_eq_ok_iff.mp hf
  have hd' : s'.arena.decl? id = some d :=
    ((h.grows hp).arena.decl?_eq_of_nil (Arena.decl?_eq_some_lt hd)).trans hd
  simp [Arena.kind?, Store.decl?_mapFunc, hd', hkind, DeclKind.mapFunc]

/-! ## Between members -/

/-- A declaration is a member of some context. -/
def Arena.Listed (a : Arena) (id : DeclId) : Prop :=
  ∃ context members, a.members? context = some members ∧ id ∈ members

theorem Arena.Grows.listed {a b : Arena} {context : DeclId} {ids : List DeclId}
    (h : a.Grows b context ids) {id : DeclId} (hid : a.Listed id) : b.Listed id := by
  obtain ⟨owner, members, hmembers, hmem⟩ := hid
  by_cases howner : owner = context
  · subst howner
    exact ⟨owner, members ++ ids, h.members?_context hmembers, List.mem_append_left _ hmem⟩
  · refine ⟨owner, members, ?_, hmem⟩
    obtain ⟨d, hd, hkind⟩ := members?_eq_some_iff.mp hmembers
    refine members?_eq_some_iff.mpr ⟨d, ?_, hkind⟩
    rw [h.decl?_eq_of_ne (decl?_eq_some_lt hd) howner, hd]

/-- Variables stay as they are and members stay members. -/
structure Arena.Extends (a b : Arena) : Prop extends a.Keeps b where
  kind?_var : ∀ {id ty init}, a.kind? id = some (.var ty init) → b.kind? id = some (.var ty init)
  listed : ∀ {id}, a.Listed id → b.Listed id

namespace Arena.Extends

variable {a b c : Arena}

theorem refl (a : Arena) : a.Extends a :=
  ⟨.refl a, id, id⟩

theorem trans (hab : a.Extends b) (hbc : b.Extends c) : a.Extends c :=
  ⟨hab.toKeeps.trans hbc.toKeeps, fun h => hbc.kind?_var (hab.kind?_var h),
    fun h => hbc.listed (hab.listed h)⟩

end Arena.Extends

theorem Arena.Grows.extends {a b : Arena} {context : DeclId} {ids : List DeclId}
    (h : a.Grows b context ids) : a.Extends b := by
  refine ⟨h.keeps, ?_, h.listed⟩
  intro id ty init hkind
  obtain ⟨d, hd, hvar⟩ := kind?_eq_some_iff.mp hkind
  have hlt := decl?_eq_some_lt hd
  rw [kind?, h.decl?_eq id hlt, hd]
  split <;> simp [Decl.addMembers, hvar, DeclKind.addMembers]

theorem Store.extends_setBody (s : Store) (id : DeclId) (body : List Stmt) :
    s.arena.Extends (s.mapFunc id fun f => { f with body := some body }).arena := by
  refine ⟨s.keeps_setBody id body, ?_, ?_⟩
  · intro x ty init hkind
    obtain ⟨d, hd, hvar⟩ := Arena.kind?_eq_some_iff.mp hkind
    rw [Arena.kind?, Store.decl?_mapFunc, hd]
    split <;> simp [hvar, DeclKind.mapFunc]
  · rintro x ⟨context, members, hmembers, hx⟩
    refine ⟨context, members, ?_, hx⟩
    obtain ⟨d, hd, hkind⟩ := Arena.members?_eq_some_iff.mp hmembers
    rw [Arena.members?, Arena.kind?, Store.decl?_mapFunc, hd]
    split
    · simp only [Option.map_some, Option.bind_some, ← hkind]
      cases d.kind <;> rfl
    · exact hkind

/--
The store between two members of the context of a place: what is visible there
is what the context lists, and nothing is visible anywhere that is not listed.
-/
structure Store.Between (s : Store) (p : Place) : Prop where
  bounded : s.Bounded
  scope_lt : p.scope < s.scopes.size
  agrees : s.arena.members? p.context = some (s.scopes.visible p.scope)
  listed : ∀ scope, ∀ id ∈ s.scopes.visible scope, s.arena.Listed id

namespace Store.Between

variable {s s' : Store} {p : Place} {id : DeclId}

theorem step (h : s.Between p) (hgrows : s.Grows s' p [id] [id]) (hbounded : s'.Bounded) :
    s'.Between p where
  bounded := hbounded
  scope_lt := hgrows.scope_lt
  agrees := by
    rw [hgrows.scopes.visible_scope]
    exact hgrows.arena.members?_context h.agrees
  listed scope x hx := by
    by_cases hold : scope < s.scopes.size
    · rw [hgrows.scopes.visible_eq scope hold] at hx
      by_cases heq : scope = p.scope
      · rw [if_pos heq] at hx
        rcases List.mem_append.mp hx with hx | hx
        · exact hgrows.arena.listed (h.listed scope x hx)
        · refine ⟨p.context, _, hgrows.arena.members?_context h.agrees, ?_⟩
          exact List.mem_append_right _ hx
      · rw [if_neg heq] at hx
        exact hgrows.arena.listed (h.listed scope x hx)
    · rw [hgrows.scopes.visible_new scope (Nat.le_of_not_lt hold)] at hx
      contradiction

theorem context_lt (h : s.Between p) : p.context < s.arena.size := by
  obtain ⟨d, hd, -⟩ := Arena.members?_eq_some_iff.mp h.agrees
  exact Arena.decl?_eq_some_lt hd

theorem decl?_member (h : s.Between p) (name : String) (kind : DeclKind) :
    (((s.declared p name kind).revealed p s.arena.size).enlisted p s.arena.size).arena.decl?
      s.arena.size = some ⟨some name, some p.context, kind⟩ := by
  rw [Store.decl?_enlisted, if_neg (Nat.ne_of_gt h.context_lt), Store.arena_revealed,
    Store.decl?_declared, if_pos rfl]

theorem tagged (h : s.Between p) (name : String) (kind : TagKind) :
    (s.tagged p name kind).Between p :=
  h.step (Store.tagged_grows h.scope_lt name kind)
    (h.bounded.member h.scope_lt name rfl (by simp))

theorem members?_tagged (h : s.Between p) (name : String) (kind : TagKind) :
    (s.tagged p name kind).arena.members? s.arena.size = some [] :=
  Arena.members?_eq_some_iff.mpr ⟨_, h.decl?_member name (.tag kind []), rfl⟩

theorem inside (h : s.Between p) (name : String) (kind : TagKind) :
    ((s.tagged p name kind).opened p).Between
      { p.inside s with context := s.arena.size } where
  bounded := (h.tagged name kind).bounded.opened (h.tagged name kind).scope_lt
  scope_lt := by simp [Place.inside, Store.opened]
  agrees := by
    rw [Store.arena_opened, h.members?_tagged name kind]
    have hvisible : (s.tagged p name kind).scopes.visible s.scopes.size = [] :=
      ScopeTree.visible_eq_nil_of_size_le (by simp)
    simp [Store.opened, Place.inside, hvisible]
  listed scope x hx := by
    refine (h.tagged name kind).listed scope x ?_
    simpa [Store.opened] using hx

theorem empty : Store.empty.Between .top where
  bounded := .empty
  scope_lt := by decide
  agrees := rfl
  listed scope x hx := by
    cases scope <;>
      simp [ScopeTree.visible, ScopeTree.scope?, Store.empty, ScopeTree.empty] at hx

end Store.Between

theorem Growing.between {step : Place → Store → DeclId → Store → Prop} (hstep : Growing step)
    {p : Place} {s s' : Store} {id : DeclId} (h : step p s id s') (hs : s.Between p) :
    s'.Between p :=
  hs.step (hstep.grows h hs.scope_lt) (hstep.bounded h hs.bounded hs.scope_lt)

/-! ## Invariants of declarations -/

/-- Kinds that hold no expression and no statement and have no owner to agree with. -/
def DeclKind.Inert : DeclKind → Prop
  | .var _ init => init = none
  | .func _ | .enumerator _ => False
  | _ => True

def Arena.All (a : Arena) (P : Arena → DeclId → DeclKind → Prop) : Prop :=
  ∀ ⦃id kind⦄, a.kind? id = some kind → P a id kind

/--
A property that every declaration has when its construct is complete.  For an
initializer and a body the property may be assumed of all declarations made
before them.
-/
structure DeclInvariant (P : Arena → DeclId → DeclKind → Prop) : Prop where
  stable : ∀ {a b : Arena} {id : DeclId} {kind : DeclKind}, a.Extends b → id < a.size →
    P a id kind → P b id kind
  bare : ∀ {a : Arena} {id : DeclId} {kind kind' : DeclKind}, kind.bare = kind'.bare →
    P a id kind → P a id kind'
  inert : ∀ {a : Arena} {id : DeclId} {kind : DeclKind}, kind.Inert → P a id kind
  enumerator : ∀ {a : Arena} {id context : DeclId} {value : Int64}, a.parent? id = some context →
    a.sort? context = some (.tag .enumTag) → P a id (.enumerator value)
  signature : ∀ {a : Arena} {context id : DeclId} {f : Func}, a.Signed context id f →
    P a id (.func f)
  init : ∀ {p : Place} {s : Store} {name : String} {ty : Ty} {e init : Expr},
    s.Bounded → p.scope < s.scopes.size → s.arena.All P →
    ExprAt (s.declared p name (.var ty none)) p e → e.initFor ty = .ok init →
    P (s.declared p name (.var ty (some init))).arena s.arena.size (.var ty (some init))
  body : ∀ {p : Place} {s₁ s₂ : Store} {id : DeclId} {f : Func} {body : List Stmt},
    s₁.Between p → s₁.arena.All P → s₁.arena.Signed p.context id f →
    BlockRun { p.inside s₁ with function := some id }
      ((s₁.opened p).revealedAll s₁.scopes.size f.params) body s₂ →
    P (s₂.mapFunc id fun f => { f with body := some body }).arena id
      (.func { f with body := some body })

namespace DeclInvariant

variable {P : Arena → DeclId → DeclKind → Prop} {p : Place} {s s' : Store} {id : DeclId}

theorem of_bare? (hP : DeclInvariant P) {a b : Arena} {kind : DeclKind} (hextends : a.Extends b)
    (hold : a.All P) (hbare : b.bare? id = a.bare? id) (hkind : b.kind? id = some kind) :
    P b id kind := by
  obtain ⟨kind', hkind', heq⟩ := Arena.kind?_eq_of_bare? hbare hkind
  obtain ⟨d, hd, -⟩ := Arena.kind?_eq_some_iff.mp hkind'
  exact hP.bare heq (hP.stable hextends (Arena.decl?_eq_some_lt hd) (hold hkind'))

theorem of_grows (hP : DeclInvariant P) {a b : Arena} {context : DeclId} {ids : List DeclId}
    (hgrows : a.Grows b context ids) (hold : a.All P)
    (hnew : ∀ {x kind}, a.size ≤ x → b.kind? x = some kind → P b x kind) : b.All P := by
  intro x kind hkind
  by_cases hlt : x < a.size
  · exact hP.of_bare? hgrows.extends hold (hgrows.bare?_eq hlt) hkind
  · exact hnew (Nat.le_of_not_lt hlt) hkind

theorem of_grows_one (hP : DeclInvariant P) {a b : Arena} {context : DeclId} {ids : List DeclId}
    (hgrows : a.Grows b context ids) (hsize : b.size = a.size + 1) (hold : a.All P)
    {kind : DeclKind} (hkind : b.kind? a.size = some kind) (hnew : P b a.size kind) :
    b.All P := by
  refine hP.of_grows hgrows hold ?_
  intro x kind' hle hkind'
  obtain ⟨d, hd, -⟩ := Arena.kind?_eq_some_iff.mp hkind'
  have hlt := Arena.decl?_eq_some_lt hd
  rw [hsize] at hlt
  obtain rfl : x = a.size := Nat.le_antisymm (Nat.le_of_lt_succ hlt) hle
  rw [hkind] at hkind'
  cases hkind'
  exact hnew

theorem of_declared (hP : DeclInvariant P) (hold : s.arena.All P) (name : String)
    (kind : DeclKind) (hnew : P (s.declared p name kind).arena s.arena.size kind) :
    (s.declared p name kind).arena.All P :=
  hP.of_grows_one ((Arena.Grows.refl s.arena p.context).declared p name kind) (by simp) hold
    (s.kind?_declared p name kind) hnew

theorem of_varStep (hP : DeclInvariant P) (h : VarStep p s id s') (hs : s.Bounded)
    (hp : p.scope < s.scopes.size) (hold : s.arena.All P) : s'.arena.All P := by
  cases h with
  | @plain name ty =>
      have hvar : (DeclKind.var ty none).Inert := rfl
      exact hP.of_declared hold name (.var ty none) (hP.inert hvar)
  | init _ _ hexpr hinit => exact hP.of_declared hold _ _ (hP.init hs hp hold hexpr hinit)

theorem of_blockRun (hP : DeclInvariant P) {stmts : List Stmt} (h : BlockRun p s stmts s')
    (hs : s.Bounded) (hp : p.scope < s.scopes.size) (hold : s.arena.All P) :
    s'.arena.All P := by
  induction h with
  | nil => exact hold
  | block hbody _ ihbody ihrest =>
      have hinner := ihbody (hs.opened hp) (Place.inside_lt _ _) hold
      exact ihrest (hbody.bounded_closed hs hp) (hbody.grows_closed hp).scope_lt hinner
  | var hvar _ ih =>
      exact ih (hvar.bounded hs hp) (hvar.grows hp).scope_lt (hP.of_varStep hvar hs hp hold)
  | expr _ _ ih => exact ih hs hp hold
  | ret _ _ _ _ ih => exact ih hs hp hold
  | retValue _ _ _ _ _ _ ih => exact ih hs hp hold

theorem of_signed (hP : DeclInvariant P) {a b : Arena} {context : DeclId} {ids : List DeclId}
    {f : Func} (hgrows : a.Grows b context ids) (hsigned : b.Signed context a.size f)
    (hold : a.All P) : b.All P := by
  refine hP.of_grows hgrows hold ?_
  intro x kind hle hkind
  obtain ⟨d, hd, rfl⟩ := Arena.kind?_eq_some_iff.mp hkind
  rcases Nat.eq_or_lt_of_le hle with rfl | hgt
  · obtain ⟨name, hfunc⟩ := hsigned.func
    obtain rfl := Option.some.inj (hd.symm.trans hfunc)
    exact hP.signature hsigned
  · obtain ⟨name, ty, hparam⟩ := hsigned.param x hgt (Arena.decl?_eq_some_lt hd)
    obtain rfl := Option.some.inj (hd.symm.trans hparam)
    exact hP.inert rfl

theorem of_funcStep (hP : DeclInvariant P) (h : FuncStep p s id s') (hs : s.Between p)
    (hold : s.arena.All P) : s'.arena.All P := by
  have hsignature : ∀ {s₁ : Store}, SignatureStep p s id s₁ → ∃ f,
      s₁.arena.Signed p.context id f ∧ s₁.Between p ∧ s₁.arena.All P := by
    intro s₁ hsignature
    have hgrows := hsignature.grows hs.scope_lt
    obtain ⟨f, hsigned⟩ := hsignature.exists_signed hs.bounded hs.scope_lt hs.context_lt
    refine ⟨f, hsigned, hs.step hgrows (hsignature.bounded hs.bounded hs.scope_lt), ?_⟩
    exact hP.of_signed hgrows.arena (hsignature.id_eq ▸ hsigned) hold
  cases h with
  | prototype hprototype =>
      obtain ⟨f, -, -, hold₁⟩ := hsignature hprototype
      exact hold₁
  | @definition s₁ s₂ f body hdefinition _ hfunc hbody =>
      obtain ⟨g, hsigned, hs₁, hold₁⟩ := hsignature hdefinition
      obtain rfl := hsigned.eq_of_func hfunc
      have hstart := hs₁.bounded.enterBody hs₁.scope_lt hfunc
      have hinside := Place.inside_lt_revealedAll p s₁ f.params
      have hold₂ := hP.of_blockRun hbody hstart hinside hold₁
      -- Only the function itself changes when its body is stored.
      intro x kind hkind
      by_cases heq : x = id
      · subst heq
        have hbodied := hbody.kind?_setBody hinside hfunc body
        obtain rfl := Option.some.inj (hkind.symm.trans hbodied)
        exact hP.body hs₁ hold₁ hsigned hbody
      · exact hP.of_bare? (s₂.extends_setBody id body) hold₂ (Store.bare?_mapFunc_of_ne _ heq) hkind

theorem of_member (hP : DeclInvariant P) (hs : s.Between p) (hold : s.arena.All P)
    (name : String) (kind : DeclKind)
    (hnew : P (((s.declared p name kind).revealed p s.arena.size).enlisted p s.arena.size).arena
      s.arena.size kind) :
    (((s.declared p name kind).revealed p s.arena.size).enlisted p s.arena.size).arena.All P :=
  hP.of_grows_one (Store.Grows.declared_revealed_enlisted hs.scope_lt name kind _).arena (by simp)
    hold (Arena.kind?_eq_some_iff.mpr ⟨_, hs.decl?_member name kind, rfl⟩) hnew

theorem of_memberStep (hP : DeclInvariant P) (h : MemberStep p s id s') (hs : s.Between p)
    (hold : s.arena.All P) : s'.arena.All P := by
  cases h with
  | field hfield =>
      cases hfield with
      | @mk name ty => exact hP.of_member hs hold name (.field ty) (hP.inert trivial)
  | func hfunc => exact hP.of_funcStep hfunc hs hold

theorem of_enumeratorStep (hP : DeclInvariant P) (h : EnumeratorStep p s id s')
    (hs : s.Between p) (hold : s.arena.All P) : s'.arena.All P := by
  cases h with
  | @mk name value hcontext =>
      have hgrows := Store.Grows.declared_revealed_enlisted hs.scope_lt name
        (.enumerator value) s.arena.size
      apply hP.of_member hs hold name (.enumerator value)
      apply hP.enumerator
      · rw [Arena.parent?, hs.decl?_member name (.enumerator value)]
        rfl
      · rw [hgrows.arena.keeps.sort?_eq hs.context_lt]
        exact hcontext

theorem of_tagStep (hP : DeclInvariant P) {kind : TagKind}
    {member : Place → Store → DeclId → Store → Prop} (hmember : Growing member)
    (hstep : ∀ {p s id s'}, member p s id s' → s.Between p → s.arena.All P → s'.arena.All P)
    (h : TagStep kind member p s id s') (hs : s.Between p) (hold : s.arena.All P) :
    s'.arena.All P := by
  cases h with
  | @mk name members s₁ _ hmembers =>
      have htagged := hP.of_member hs hold name (.tag kind []) (hP.inert trivial)
      have hrun := hmembers.preserves (I := fun s => s.Between _ ∧ s.arena.All P)
        (fun h hI => ⟨hmember.between h hI.1, hstep h hI.1 hI.2⟩)
        ⟨hs.inside name kind, htagged⟩
      exact hrun.2

theorem of_itemStep (hP : DeclInvariant P) (h : ItemStep p s id s') (hs : s.Between p)
    (hold : s.arena.All P) : s'.arena.All P := by
  cases h with
  | classItem hclass =>
      exact hP.of_tagStep MemberStep.growing hP.of_memberStep hclass hs hold
  | enumItem henum =>
      exact hP.of_tagStep EnumeratorStep.growing hP.of_enumeratorStep henum hs hold
  | func hfunc => exact hP.of_funcStep hfunc hs hold
  | @var s₁ hvar =>
      have hnew := hP.of_varStep hvar hs.bounded hs.scope_lt hold
      refine hP.of_grows ((Arena.Grows.refl s₁.arena p.context).enlisted id) hnew ?_
      intro x kind hle hkind
      obtain ⟨d, hd, -⟩ := Arena.kind?_eq_some_iff.mp hkind
      have hlt := Arena.decl?_eq_some_lt hd
      rw [Store.size_enlisted] at hlt
      exact absurd hlt (Nat.not_lt_of_le hle)

theorem of_unitRun (hP : DeclInvariant P) {ids : List DeclId} (h : UnitRun ids s) :
    s.arena.All P := by
  have hempty : Store.empty.arena.All P := by
    intro x kind hkind
    cases x with
    | zero =>
        cases hkind
        exact hP.inert trivial
    | succ => cases hkind
  have hrun := Runs.preserves (I := fun s => s.Between .top ∧ s.arena.All P)
    (fun h hI => ⟨ItemStep.growing.between h hI.1, hP.of_itemStep h hI.1 hI.2⟩) h
    ⟨.empty, hempty⟩
  exact hrun.2

end DeclInvariant

end UnitAnalysis
