import UnitAnalysis.Proofs.Resolution
import UnitAnalysis.Proofs.Settled

/-!
# Scopes and contexts agree

A declaration becomes visible in a scope and a member of a context by two
separate actions.  Between two constructs both lists are nevertheless the same,
so that inside a class the functions of the class can be called by their plain
name and by their qualified one to the same effect.  Main statement:
`scopesAgree`.
-/

namespace UnitAnalysis

open UnitAnalysis.Action UnitAnalysis.Check

/-! ## Points of an analysis -/

/-- The analysis of some trees one after the other has come as far as `rest`. -/
inductive Reached {τ : Type} (act : τ → Action Unit) (trees : List τ) (s : Store) :
    List τ → Store → Prop where
  | start : Reached act trees s trees s
  | next {tree : τ} {rest : List τ} {s₁ s₂ : Store}
      (hbefore : Reached act trees s (tree :: rest) s₁) (htree : Gives (act tree) s₁ () s₂) :
      Reached act trees s rest s₂

/-- Between two items of a unit. -/
def AtItem (tokens : List Token) : List ItemTree → Store → Prop :=
  Reached (·.analyze .top) (readItems tokens) .empty

/-- Between two members of a class. -/
inductive AtMember (tokens : List Token) (tree : ClassTree) (p : Place)
    (rest : List MemberTree) (s : Store) : Prop where
  | mk {items : List ItemTree} {s₀ s₁ : Store}
      (hitem : AtItem tokens (.classItem tree :: items) s₀)
      (hopen : Gives (openTag .classTag .top tree.name tree.lbrace) s₀ p s₁)
      (hmembers : Reached (·.analyze p) tree.members s₁ rest s) : AtMember tokens tree p rest s

/-- Between two enumerators of an enum. -/
inductive AtEnumerator (tokens : List Token) (tree : EnumTree) (p : Place)
    (rest : List EnumeratorTree) (s : Store) : Prop where
  | mk {items : List ItemTree} {s₀ s₁ : Store}
      (hitem : AtItem tokens (.enumItem tree :: items) s₀)
      (hopen : Gives (openTag .enumTag .top tree.name tree.lbrace) s₀ p s₁)
      (hmembers : Reached (·.analyze p) tree.members s₁ rest s) : AtEnumerator tokens tree p rest s

/--
The points in a list of statements from which an expression can be looked at:
before each statement, in each block, and where a variable waits for its
initializer.
-/
inductive StmtTree.Reaches : Place → Store → List StmtTree → Place → Store → Prop where
  | here {p : Place} {s : Store} {trees : List StmtTree} : Reaches p s trees p s
  | next {p q : Place} {s s₁ s' : Store} {tree : StmtTree} {trees : List StmtTree} {stmt : Stmt}
      (hstmt : Gives (tree.analyze p) s stmt s₁) (hrest : Reaches p s₁ trees q s') :
      Reaches p s (tree :: trees) q s'
  | block {p q inner : Place} {s s₁ s' : Store} {body trees : List StmtTree}
      (henter : Gives (enterBlock p) s inner s₁) (hbody : Reaches inner s₁ body q s') :
      Reaches p s (.block body :: trees) q s'
  | init {p : Place} {s s₁ : Store} {tree : VarTree} {trees : List StmtTree} {name : String}
      {ty : Ty} {id : DeclId} (hty : tree.type.analyze s p = .ok ty) (hname : tree.name = .ok name)
      (hdeclare : Gives (declareVar p name ty) s id s₁) : Reaches p s (.var tree :: trees) p s₁

/-- In the body of a function of a class: `p` is the place of the class, `q` the one reached. -/
inductive InMethod (tokens : List Token) (tree : ClassTree) (p q : Place) (s : Store) : Prop where
  | mk {func : FuncTree} {members : List MemberTree} {body : List StmtTree} {outer inner : Place}
      {id : DeclId} {s₀ s₁ s₂ : Store}
      (hmember : AtMember tokens tree p (.func func :: members) s₀)
      (hsign : Gives (func.sign p) s₀ (outer, id) s₁) (hbody : func.body = .block body)
      (henter : Gives (enterBody outer id) s₁ inner s₂)
      (hpoint : StmtTree.Reaches inner s₂ body q s) : InMethod tokens tree p q s

def Error.candidates? : Error → Option Nat
  | .noViableCall _ candidates => some candidates
  | _ => none

/-- The same expression, or errors of one kind that count the same candidates. -/
def SameCall : Except Error Expr → Except Error Expr → Prop
  | .ok e, .ok e' => e = e'
  | .error x, .error y => x.code = y.code ∧ x.candidates? = y.candidates?
  | _, _ => False

structure ScopesAgree (tokens : List Token) : Prop where
  items : ∀ {rest s}, AtItem tokens rest s →
    s.arena.members? Arena.root = some (s.scopes.visible ScopeTree.root) ∧
      ∀ scope, scope ≠ ScopeTree.root → s.scopes.visible scope = []
  members : ∀ {tree p rest s}, AtMember tokens tree p rest s →
    s.arena.members? p.context = some (s.scopes.visible p.scope)
  enumerators : ∀ {tree p rest s}, AtEnumerator tokens tree p rest s →
    s.arena.members? p.context = some (s.scopes.visible p.scope)
  calls : ∀ {tree p q s owner members f id}, InMethod tokens tree p q s → tree.name = .ok owner →
    s.arena.members? p.context = some members → id ∈ members → s.arena.name? id = some f →
    s.arena.sort? id = some .func →
    ∀ args, SameCall (s.callExpr q ⟨owner, [f]⟩ args) (s.callExpr q ⟨f, []⟩ args)

theorem AtItem.start {tokens : List Token} {items : List ItemTree}
    (h : readItems tokens = items) : AtItem tokens items .empty :=
  h ▸ Reached.start

/-! ## Between constructs -/

theorem Reached.preserves {τ : Type} {act : τ → Action Unit} {trees rest : List τ}
    {s s' : Store} {I : Store → Prop} (h : Reached act trees s rest s')
    (hstep : ∀ {tree s s'}, Gives (act tree) s () s' → I s → I s') (hs : I s) : I s' := by
  induction h with
  | start => exact hs
  | next _ htree ih => exact hstep htree ih

/-- Nothing is visible but in the scope of a place and in the outermost one. -/
def Store.Quiet (s : Store) (p : Place) : Prop :=
  ∀ scope, scope ≠ ScopeTree.root → scope ≠ p.scope → s.scopes.visible scope = []

theorem Store.Quiet.grows {s s' : Store} {p : Place} {listed shown : List DeclId}
    (h : s.Quiet p) (hgrows : s.Grows s' p listed shown) : s'.Quiet p := by
  intro scope hroot hne
  by_cases hold : scope < s.scopes.size
  · rw [hgrows.scopes.visible_eq scope hold, if_neg hne, h scope hroot hne]
  · exact hgrows.scopes.visible_new scope (Nat.le_of_not_lt hold)

theorem AtItem.settled {tokens : List Token} {rest : List ItemTree} {s : Store}
    (h : AtItem tokens rest s) : s.Settled .top ∧ s.Quiet .top := by
  refine h.preserves (I := fun s => s.Settled .top ∧ s.Quiet .top) ?_ ⟨.empty, ?_⟩
  · rintro item s s' hitem ⟨hs, hquiet⟩
    obtain ⟨id, hstep⟩ := ItemTree.itemStep_of_analyze hitem
    exact ⟨hstep.settled hs, hquiet.grows (hstep.grows hs.scope_lt)⟩
  · intro scope hroot _
    exact ScopeTree.visible_eq_nil_of_size_le (Nat.pos_of_ne_zero hroot)

theorem settled_of_openTag {kind : TagKind} {p q : Place} {piece : Required String}
    {lbrace : Required Unit} {s s' : Store} (h : Gives (openTag kind p piece lbrace) s q s')
    (hs : s.Settled p) : s'.Settled q := by
  obtain ⟨name, -, hfresh, rfl, rfl⟩ := gives_openTag h
  exact hs.inside kind hfresh

theorem AtEnumerator.settled {tokens : List Token} {tree : EnumTree} {p : Place}
    {rest : List EnumeratorTree} {s : Store} (h : AtEnumerator tokens tree p rest s) :
    s.Settled p := by
  obtain ⟨hitem, hopen, hmembers⟩ := h
  refine hmembers.preserves (I := fun s => s.Settled p) ?_
    (settled_of_openTag hopen hitem.settled.1)
  intro member s s' hmember hs
  obtain ⟨id, hstep⟩ := EnumeratorTree.enumeratorStep_of_analyze hmember
  exact hstep.settled hs

/-! ## Inside a class -/

/-- The store between two members of a class of the given name, apart from `Store.Settled`. -/
structure Store.InClass (s : Store) (p : Place) (owner : String) : Prop where
  agrees : s.arena.members? p.context = some (s.scopes.visible p.scope)
  parent? : s.scopes.parent? p.scope = some ScopeTree.root
  pos : ScopeTree.root < p.scope
  untagged : ∀ id ∈ s.scopes.visible p.scope, ∀ kind, s.arena.sort? id ≠ some (.tag kind)
  name? : s.arena.name? p.context = some owner
  sort? : s.arena.sort? p.context = some (.tag .classTag)
  /-- The class is the latest item, and the only one of its name. -/
  latest : ∃ before, s.scopes.visible ScopeTree.root = before ++ [p.context] ∧
    ∀ id ∈ before, s.arena.name? id ≠ some owner

namespace Store.InClass

variable {s s' : Store} {p : Place} {owner : String}

theorem keeps (h : s.InClass p owner) (hs : s.Bounded) (hkeeps : s.arena.Keeps s'.arena)
    (hagrees : s'.arena.members? p.context = some (s'.scopes.visible p.scope))
    (huntagged : ∀ id ∈ s'.scopes.visible p.scope, ∀ kind, s'.arena.sort? id ≠ some (.tag kind))
    (hparent : s'.scopes.parent? p.scope = s.scopes.parent? p.scope)
    (hroot : s'.scopes.visible ScopeTree.root = s.scopes.visible ScopeTree.root) :
    s'.InClass p owner where
  agrees := hagrees
  parent? := hparent.trans h.parent?
  pos := h.pos
  untagged := huntagged
  name? := (hkeeps.name?_eq (Arena.sort?_eq_some_lt h.sort?)).trans h.name?
  sort? := (hkeeps.sort?_eq (Arena.sort?_eq_some_lt h.sort?)).trans h.sort?
  latest := by
    obtain ⟨before, hvisible, hnames⟩ := h.latest
    refine ⟨before, hroot.trans hvisible, fun id hid => ?_⟩
    rw [hkeeps.name?_eq (hs.scopes.visible_lt ScopeTree.root id (by simp [hvisible, hid]))]
    exact hnames id hid

theorem inside (hs : s.Between .top) {name : String} (hfresh : s.Fresh .top name false) :
    ((s.tagged .top name .classTag).opened .top).InClass
      { Place.top.inside s with context := s.arena.size } name := by
  have hinside := hs.inside name .classTag
  have hd := hs.decl?_member name (.tag .classTag [])
  have hvisible := (Store.tagged_grows hs.scope_lt name .classTag).scopes.visible_scope
  have hpos : ScopeTree.root < s.scopes.size := hs.scope_lt
  refine ⟨hinside.agrees, ?_, hpos, ?_, Arena.name?_of_decl? hd, ?_,
    s.scopes.visible ScopeTree.root, ?_, ?_⟩
  · simp [Place.inside, Store.opened, ScopeTree.parent?_push, Place.top]
  · intro id hid
    have hnil : (s.tagged .top name .classTag).scopes.visible s.scopes.size = [] :=
      ScopeTree.visible_eq_nil_of_size_le (by simp)
    simp [Place.inside, Store.opened, hnil] at hid
  · simp [Arena.sort?, Arena.kind?, Store.opened, Store.tagged, hd, DeclKind.sort]
  · rw [Store.opened, ScopeTree.visible_push]
    exact hvisible
  · intro id hid hname
    have hlt := hs.bounded.scopes.visible_lt _ id hid
    have hkeeps := (Store.tagged_grows hs.scope_lt name .classTag).arena.keeps
    rw [Store.arena_opened, hkeeps.name?_eq hlt] at hname
    exact absurd (hfresh id hid hname).1 (by simp)

theorem step (h : s.InClass p owner) (hs : s.Bounded) {id : DeclId}
    (hgrows : s.Grows s' p [id] [id]) (hid : ∀ kind, s'.arena.sort? id ≠ some (.tag kind)) :
    s'.InClass p owner := by
  have hscope := hgrows.scopes.scope_lt
  refine h.keeps hs hgrows.arena.keeps ?_ ?_ (hgrows.scopes.parent?_eq _ hscope) ?_
  · rw [hgrows.scopes.visible_scope]
    exact hgrows.arena.members?_context h.agrees
  · intro x hx
    rw [hgrows.scopes.visible_scope, List.mem_append, List.mem_singleton] at hx
    rcases hx with hx | rfl
    · rw [hgrows.arena.keeps.sort?_eq (hs.scopes.visible_lt _ x hx)]
      exact h.untagged x hx
    · exact hid
  · rw [hgrows.scopes.visible_eq _ (Nat.lt_trans h.pos hscope), if_neg (Nat.ne_of_lt h.pos)]

end Store.InClass

theorem SignatureStep.sort?_eq {p : Place} {s s' : Store} {id : DeclId}
    (h : SignatureStep p s id s') (hs : s.Between p) : s'.arena.sort? id = some .func := by
  obtain ⟨f, hsigned⟩ := h.exists_signed hs.bounded hs.scope_lt hs.context_lt
  obtain ⟨name, hd⟩ := hsigned.func
  simp [Arena.sort?, Arena.kind?, hd, DeclKind.sort]

theorem FuncStep.sort?_eq {p : Place} {s s' : Store} {id : DeclId} (h : FuncStep p s id s')
    (hs : s.Between p) : s'.arena.sort? id = some .func := by
  cases h with
  | prototype hsignature => exact hsignature.sort?_eq hs
  | @definition s₁ s₂ f body hsignature _ _ hbody =>
      have hsort := hsignature.sort?_eq hs
      have hrun := hbody.grows (Place.inside_lt_revealedAll p s₁ f.params)
      have hkeeps := hrun.arena.keeps.trans (s₂.keeps_setBody id body)
      exact (hkeeps.sort?_eq (Arena.sort?_eq_some_lt hsort)).trans hsort

theorem MemberStep.not_tag {p : Place} {s s' : Store} {id : DeclId} (h : MemberStep p s id s')
    (hs : s.Between p) (kind : TagKind) : s'.arena.sort? id ≠ some (.tag kind) := by
  cases h with
  | field hfield =>
      cases hfield with
      | @mk name ty =>
          simp [Arena.sort?, Arena.kind?, hs.decl?_member name (.field ty), DeclKind.sort]
  | func hfunc => simp [hfunc.sort?_eq hs]

theorem inClass_of_openTag {p : Place} {piece : Required String} {lbrace : Required Unit}
    {s s' : Store} (h : Gives (openTag .classTag .top piece lbrace) s p s') (hs : s.Settled .top)
    (hquiet : s.Quiet .top) : ∃ owner, piece = .ok owner ∧ s'.Quiet p ∧ s'.InClass p owner := by
  obtain ⟨owner, hname, hfresh, rfl, rfl⟩ := gives_openTag h
  refine ⟨owner, hname, ?_, .inside hs.toBetween hfresh⟩
  intro scope hroot _
  rw [Store.opened, ScopeTree.visible_push]
  exact hquiet.grows (Store.tagged_grows hs.scope_lt owner .classTag) scope hroot hroot

theorem AtMember.settled {tokens : List Token} {tree : ClassTree} {p : Place}
    {rest : List MemberTree} {s : Store} (h : AtMember tokens tree p rest s) :
    s.Settled p ∧ s.Quiet p ∧ ∃ owner, tree.name = .ok owner ∧ s.InClass p owner := by
  obtain ⟨hitem, hopen, hmembers⟩ := h
  obtain ⟨hs, hquiet⟩ := hitem.settled
  have hstart := settled_of_openTag hopen hs
  obtain ⟨owner, hname, hquiet, hclass⟩ := inClass_of_openTag hopen hs hquiet
  have hall := hmembers.preserves (I := fun s => s.Settled p ∧ s.Quiet p ∧ s.InClass p owner) ?_
    ⟨hstart, hquiet, hclass⟩
  · exact ⟨hall.1, hall.2.1, owner, hname, hall.2.2⟩
  · rintro member s s' hmember ⟨hs, hquiet, hclass⟩
    obtain ⟨id, hstep⟩ := MemberTree.memberStep_of_analyze hmember
    have hgrows := hstep.grows hs.scope_lt
    exact ⟨hstep.settled hs, hquiet.grows hgrows,
      hclass.step hs.bounded hgrows (hstep.not_tag hs.toBetween)⟩

/-! ## Inside a function -/

/-- Going outwards from a scope leads through `outer`. -/
inductive ScopeTree.Under (t : ScopeTree) (outer : ScopeId) : ScopeId → Prop where
  | self : Under t outer outer
  | child {scope parent : ScopeId} (hparent : t.parent? scope = some parent)
      (hlt : parent < scope) (hunder : Under t outer parent) : Under t outer scope

namespace ScopeTree.Under

variable {t t' : ScopeTree} {outer scope : ScopeId}

theorem le (h : t.Under outer scope) : outer ≤ scope := by
  induction h with
  | self => exact Nat.le_refl _
  | child _ hlt _ ih => exact Nat.le_trans ih (Nat.le_of_lt hlt)

theorem congr (h : t.Under outer scope) (hparent : ∀ x ≤ scope, t'.parent? x = t.parent? x) :
    t'.Under outer scope := by
  induction h with
  | self => exact .self
  | @child scope parent hup hlt _ ih =>
      refine .child ((hparent scope (Nat.le_refl _)).trans hup) hlt (ih fun x hx => ?_)
      exact hparent x (Nat.le_trans hx (Nat.le_of_lt hlt))

/-- A lookup skips the scopes on the way that have nothing to offer. -/
theorem lookup_eq {a : Arena} {name : String} {sel : Selector} (h : t.Under outer scope)
    (hnil : ∀ x, outer < x → t.lookupLocal a x name sel = []) :
    t.lookup a scope name sel = t.lookup a outer name sel := by
  induction h with
  | self => rfl
  | @child scope parent hparent hlt hunder ih =>
      rw [lookup, hnil scope (Nat.lt_of_le_of_lt hunder.le hlt)]
      simp only [hparent, hlt, if_true]
      exact ih

end ScopeTree.Under

theorem ScopeTree.lookup_eq_lookupLocal {t : ScopeTree} {a : Arena} {scope : ScopeId}
    {name : String} {sel : Selector} (h : t.lookupLocal a scope name sel ≠ []) :
    t.lookup a scope name sel = t.lookupLocal a scope name sel := by
  rw [lookup]
  split
  · contradiction
  · rfl

/-- Under a scope there are only blocks: nothing but variables is visible. -/
def Store.OnlyVars (s : Store) (outer : ScopeId) : Prop :=
  ∀ scope, outer < scope → ∀ id ∈ s.scopes.visible scope, s.arena.sort? id = some .var

/--
How a point in a function body differs from where the body began: in the scopes
under `outer` only, and by further variables.
-/
structure Store.Deeper (s s' : Store) (outer : ScopeId) (p q : Place) : Prop where
  context_eq : q.context = p.context
  arena : s.arena.Grows s'.arena p.context []
  parent?_eq : ∀ x ≤ outer, s'.scopes.parent? x = s.scopes.parent? x
  visible_eq : ∀ x ≤ outer, s'.scopes.visible x = s.scopes.visible x
  under : s'.scopes.Under outer q.scope
  vars : s'.OnlyVars outer

namespace Store.Deeper

variable {s s₁ s' : Store} {p q r : Place} {outer : ScopeId}

theorem refl (hunder : s.scopes.Under outer p.scope) (hvars : s.OnlyVars outer) :
    s.Deeper s outer p p :=
  ⟨rfl, .refl _ _, fun _ _ => rfl, fun _ _ => rfl, hunder, hvars⟩

theorem trans (h : s.Deeper s₁ outer p q) (h' : s₁.Deeper s' outer q r) :
    s.Deeper s' outer p r where
  context_eq := h'.context_eq.trans h.context_eq
  arena := by simpa using h.arena.trans (h.context_eq ▸ h'.arena)
  parent?_eq x hx := (h'.parent?_eq x hx).trans (h.parent?_eq x hx)
  visible_eq x hx := (h'.visible_eq x hx).trans (h.visible_eq x hx)
  under := h'.under
  vars := h'.vars

theorem step {shown : List DeclId} (hs : s.Bounded) (hunder : s.scopes.Under outer p.scope)
    (hlt : outer < p.scope) (hvars : s.OnlyVars outer) (hgrows : s.Grows s' p [] shown)
    (hshown : ∀ id ∈ shown, s'.arena.sort? id = some .var) : s.Deeper s' outer p p where
  context_eq := rfl
  arena := hgrows.arena
  parent?_eq x hx :=
    hgrows.scopes.parent?_eq x (Nat.lt_trans (Nat.lt_of_le_of_lt hx hlt) hgrows.scopes.scope_lt)
  visible_eq x hx := by
    have hne : x < p.scope := Nat.lt_of_le_of_lt hx hlt
    rw [hgrows.scopes.visible_eq x (Nat.lt_trans hne hgrows.scopes.scope_lt),
      if_neg (Nat.ne_of_lt hne)]
  under := hunder.congr fun x hx =>
    hgrows.scopes.parent?_eq x (Nat.lt_of_le_of_lt hx hgrows.scopes.scope_lt)
  vars scope hscope id hid := by
    have hold : ∀ id ∈ s.scopes.visible scope, s'.arena.sort? id = some .var := by
      intro id hid
      rw [hgrows.arena.keeps.sort?_eq (hs.scopes.visible_lt scope id hid)]
      exact hvars scope hscope id hid
    by_cases hlt : scope < s.scopes.size
    · rw [hgrows.scopes.visible_eq scope hlt] at hid
      split at hid
      · rcases List.mem_append.mp hid with hid | hid
        · exact hold id hid
        · exact hshown id hid
      · exact hold id hid
    · rw [hgrows.scopes.visible_new scope (Nat.le_of_not_lt hlt)] at hid
      contradiction

theorem enter (hunder : s.scopes.Under outer p.scope) (hp : p.scope < s.scopes.size)
    (hvars : s.OnlyVars outer) {ids : List DeclId} (hids : ∀ id ∈ ids, s.arena.sort? id = some .var)
    (hscope : q.scope = s.scopes.size) (hcontext : q.context = p.context) :
    s.Deeper ((s.opened p).revealedAll s.scopes.size ids) outer p q := by
  have hopen : s.scopes.size < (s.scopes.push p.scope).size := by simp
  have hne : ∀ x ≤ p.scope, x ≠ s.scopes.size :=
    fun x hx => Nat.ne_of_lt (Nat.lt_of_le_of_lt hx hp)
  have hparent : ∀ x ≤ p.scope, ((s.opened p).revealedAll s.scopes.size ids).scopes.parent? x =
      s.scopes.parent? x := by
    intro x hx
    simp [revealedAll, opened, ScopeTree.parent?_push, hne x hx]
  refine ⟨hcontext, .refl _ _, fun x hx => hparent x (Nat.le_trans hx hunder.le), ?_, ?_, ?_⟩
  · intro x hx
    simp [revealedAll, opened, ScopeTree.visible_addAll hopen,
      (hne x (Nat.le_trans hx hunder.le)).symm]
  · rw [hscope]
    refine .child ?_ hp (hunder.congr hparent)
    simp [revealedAll, opened, ScopeTree.parent?_push]
  · intro scope hlt id hid
    rw [revealedAll, opened, ScopeTree.visible_addAll hopen] at hid
    split at hid
    · rcases List.mem_append.mp hid with hid | hid
      · exact hvars _ (Nat.lt_of_le_of_lt hunder.le hp) id (by simpa using hid)
      · exact hids id hid
    · exact hvars scope hlt id (by simpa using hid)

end Store.Deeper

theorem BlockRun.sort?_introduced {p : Place} {s s' : Store} {stmts : List Stmt}
    (h : BlockRun p s stmts s') (hp : p.scope < s.scopes.size) :
    ∀ id ∈ Stmt.introduced stmts, s'.arena.sort? id = some .var := by
  induction h with
  | nil => simp [Stmt.introduced]
  | block hbody _ _ ihrest => exact ihrest (hbody.grows_closed hp).scope_lt
  | var hvar hrest ih =>
      have hgrows := hvar.grows hp
      intro id hid
      rcases List.mem_cons.mp hid with rfl | hid
      · obtain ⟨name, ty, init, hd, -⟩ := hvar.exists_decl?
        have hkeeps := (hrest.grows hgrows.scope_lt).arena.keeps
        rw [hkeeps.sort?_eq (Arena.decl?_eq_some_lt hd)]
        simp [Arena.sort?, Arena.kind?, hd, DeclKind.sort]
      · exact ih hgrows.scope_lt id hid
  | expr _ _ ih => exact ih hp
  | ret _ _ _ _ ih => exact ih hp
  | retValue _ _ _ _ _ _ ih => exact ih hp

theorem StmtTree.Reaches.deeper {p q : Place} {s s' : Store} {trees : List StmtTree}
    {outer : ScopeId} (h : StmtTree.Reaches p s trees q s') (hs : s.Bounded)
    (hp : p.scope < s.scopes.size) (hunder : s.scopes.Under outer p.scope) (hlt : outer < p.scope)
    (hvars : s.OnlyVars outer) : s.Deeper s' outer p q := by
  induction h with
  | here => exact .refl hunder hvars
  | next hstmt _ ih =>
      have hrun := StmtTree.blockRun_of_analyze hstmt .nil
      have hgrows := hrun.grows hp
      have hstep := Store.Deeper.step hs hunder hlt hvars hgrows (hrun.sort?_introduced hp)
      exact hstep.trans (ih (hrun.bounded hs hp) hgrows.scope_lt hstep.under hlt hstep.vars)
  | @block p q inner s s₁ s' body trees henter _ ih =>
      obtain ⟨rfl, rfl⟩ := gives_openScope henter
      have hstep : s.Deeper (s.opened p) outer p (p.inside s) :=
        .enter hunder hp hvars (List.forall_mem_nil _) rfl rfl
      exact hstep.trans (ih (hs.opened hp) (Place.inside_lt p s) hstep.under
        (Nat.lt_of_le_of_lt hunder.le hp) hstep.vars)
  | @init p s s₁ tree trees name ty id _ _ hdeclare =>
      obtain ⟨-, -, -, rfl⟩ := gives_declareVar hdeclare
      have hgrows := (Store.Grows.refl hp).declared name (.var ty none)
      exact .step hs hunder hlt hvars hgrows (by simp)

theorem InMethod.deeper {tokens : List Token} {tree : ClassTree} {p q : Place} {s : Store}
    {owner : String} (h : InMethod tokens tree p q s) (howner : tree.name = .ok owner) :
    s.InClass p owner ∧ s.scopes.Under p.scope q.scope ∧ s.OnlyVars p.scope := by
  cases h with
  | @mk func members body outer inner id s₀ s₁ s₂ hmember hsign hbody henter hpoint =>
      obtain ⟨hs, hquiet, owner', hname, hclass⟩ := hmember.settled
      obtain rfl : owner' = owner := Except.ok.inj (hname.symm.trans howner)
      obtain ⟨hplace, hsignature⟩ := FuncTree.signatureStep_of_sign hsign
      rw [hplace] at henter
      have hgrows := hsignature.grows hs.scope_lt
      have hs₁ := (FuncStep.prototype hsignature).settled hs
      have hclass₁ := hclass.step hs.bounded hgrows (by simp [hsignature.sort?_eq hs.toBetween])
      obtain ⟨f, -, hfunc, rfl, rfl⟩ := gives_enterBody henter
      have hvars : s₁.OnlyVars p.scope := by
        intro scope hlt x hx
        rw [hquiet.grows hgrows scope (Nat.ne_of_gt (Nat.lt_trans hclass.pos hlt))
          (Nat.ne_of_gt hlt)] at hx
        contradiction
      have hparams : ∀ param ∈ f.params, s₁.arena.sort? param = some .var := by
        intro param hparam
        obtain ⟨ty, hty⟩ := hs₁.bounded.arena.params_var hfunc param hparam
        obtain ⟨d, init, hd, hkind⟩ := Arena.varTy_eq_ok_iff.mp hty
        simp [Arena.sort?, Arena.kind?, hd, hkind, DeclKind.sort]
      have henter : s₁.Deeper _ p.scope p { p.inside s₁ with function := some id } :=
        .enter .self hs₁.scope_lt hvars hparams rfl rfl
      have hdeeper := henter.trans (hpoint.deeper (hs₁.bounded.enterBody hs₁.scope_lt hfunc)
        (Place.inside_lt_revealedAll p s₁ f.params) henter.under hs₁.scope_lt henter.vars)
      refine ⟨hclass₁.keeps hs₁.bounded hdeeper.arena.keeps ?_ ?_ ?_ ?_, hdeeper.under,
        hdeeper.vars⟩
      · rw [hdeeper.visible_eq _ (Nat.le_refl _)]
        simpa using hdeeper.arena.members?_context hclass₁.agrees
      · intro x hx
        rw [hdeeper.visible_eq _ (Nat.le_refl _)] at hx
        rw [hdeeper.arena.keeps.sort?_eq (hs₁.bounded.scopes.visible_lt _ x hx)]
        exact hclass₁.untagged x hx
      · exact hdeeper.parent?_eq _ (Nat.le_refl _)
      · exact hdeeper.visible_eq _ (Nat.le_of_lt hclass.pos)

/-! ## Calls -/

theorem SameCall.refl (x : Except Error Expr) : SameCall x x := by
  cases x with
  | ok e => rfl
  | error e => exact ⟨rfl, rfl⟩

/-- Only its message tells how the function of a call was named. -/
theorem Store.sameCall_of_lookupPath {s : Store} {p : Place} {path path' : Path}
    (h : s.lookupPath p path .function = s.lookupPath p path' .function) (args : List Expr) :
    SameCall (s.callExpr p path args) (s.callExpr p path' args) := by
  have hcandidates : s.candidates p path = s.candidates p path' := by
    simp only [candidates, h]
  unfold callExpr
  rw [hcandidates]
  cases s.candidates p path' with
  | error e => exact .refl _
  | ok candidates =>
      cases candidates with
      | nil => exact ⟨rfl, rfl⟩
      | cons first rest =>
          cases hfind : (first :: rest).find? (s.isViable args) with
          | none =>
              simp only [ok_bind, List.isEmpty_cons, Bool.false_eq_true, if_false, hfind]
              exact ⟨rfl, rfl⟩
          | some callee =>
              simp only [ok_bind, List.isEmpty_cons, Bool.false_eq_true, if_false, hfind]
              exact .refl _

theorem Store.OnlyVars.lookupLocal_eq_nil {s : Store} {outer scope : ScopeId}
    (h : s.OnlyVars outer) (hlt : outer < scope) {sel : Selector} (hsel : sel.accepts .var = false)
    (name : String) : s.scopes.lookupLocal s.arena scope name sel = [] := by
  refine List.filter_eq_nil_iff.mpr fun id hid => ?_
  simp [ScopeTree.matchesDecl, h scope hlt id hid, hsel]

namespace Store.InClass

variable {s : Store} {p : Place} {owner : String}

theorem lookup_owner (h : s.InClass p owner) :
    s.scopes.lookup s.arena p.scope owner .context = [p.context] := by
  obtain ⟨before, hvisible, hnames⟩ := h.latest
  have hlocal : s.scopes.lookupLocal s.arena p.scope owner .context = [] := by
    refine List.filter_eq_nil_iff.mpr fun id hid => ?_
    have hsort := h.untagged id hid
    cases heq : s.arena.sort? id with
    | none => simp [ScopeTree.matchesDecl, heq]
    | some sort => cases sort <;> simp_all [ScopeTree.matchesDecl, Selector.accepts]
  have hroot : s.scopes.lookupLocal s.arena ScopeTree.root owner .context = [p.context] := by
    rw [ScopeTree.lookupLocal, hvisible, List.filter_append, List.filter_eq_nil_iff.mpr]
    · simp [ScopeTree.matchesDecl, h.name?, h.sort?, Selector.accepts]
    · intro id hid
      simp [ScopeTree.matchesDecl, hnames id hid]
  rw [ScopeTree.lookup, hlocal]
  simp only [h.parent?, h.pos, if_true]
  rw [ScopeTree.lookup_eq_lookupLocal (by simp [hroot]), hroot]

/-- The members of the class that are functions of a name. -/
theorem filter_membersNamed (h : s.InClass p owner) (name : String) :
    (s.arena.membersNamed p.context name).filter
        (fun id => (s.arena.sort? id).any Selector.function.accepts) =
      s.scopes.lookupLocal s.arena p.scope name .function := by
  rw [Arena.membersNamed, h.agrees, Option.getD_some, List.filter_filter]
  refine List.filter_congr fun id _ => ?_
  rw [ScopeTree.matchesDecl, Bool.and_comm]

theorem lookupPath_eq (h : s.InClass p owner) {q : Place}
    (hunder : s.scopes.Under p.scope q.scope) (hvars : s.OnlyVars p.scope) {members : List DeclId}
    (hmembers : s.arena.members? p.context = some members) {id : DeclId} {name : String}
    (hid : id ∈ members) (hname : s.arena.name? id = some name)
    (hsort : s.arena.sort? id = some .func) :
    s.lookupPath q ⟨owner, [name]⟩ .function = s.lookupPath q ⟨name, []⟩ .function := by
  have hcontext : s.scopes.lookup s.arena q.scope owner .context = [p.context] := by
    rw [hunder.lookup_eq fun x hx => hvars.lookupLocal_eq_nil hx rfl owner, h.lookup_owner]
  have hfound : id ∈ s.scopes.lookupLocal s.arena p.scope name .function := by
    obtain rfl : s.scopes.visible p.scope = members :=
      Option.some.inj (h.agrees.symm.trans hmembers)
    exact List.mem_filter.mpr ⟨hid, ScopeTree.matchesDecl_function_iff.mpr ⟨hname, hsort⟩⟩
  have hplain : s.scopes.lookup s.arena q.scope name .function =
      s.scopes.lookupLocal s.arena p.scope name .function := by
    rw [hunder.lookup_eq fun x hx => hvars.lookupLocal_eq_nil hx rfl name]
    exact ScopeTree.lookup_eq_lookupLocal (List.ne_nil_of_mem hfound)
  have hisContext : s.arena.isContext p.context = true := by
    simp [Arena.isContext, h.agrees]
  calc s.lookupPath q ⟨owner, [name]⟩ .function
      = .ok ((s.arena.membersNamed p.context name).filter
          fun id => (s.arena.sort? id).any Selector.function.accepts) := by
        simp [Store.lookupPath, ScopeTree.lookupPath, hcontext, ScopeTree.descend, hisContext,
          Except.map]
    _ = .ok (s.scopes.lookup s.arena q.scope name .function) := by
        rw [h.filter_membersNamed, hplain]
    _ = s.lookupPath q ⟨name, []⟩ .function := rfl

end Store.InClass

/-! ## Units -/

/-- Scopes and contexts agree at every point of the analysis of every unit. -/
theorem scopesAgree (tokens : List Token) : ScopesAgree tokens where
  items h := by
    obtain ⟨hs, hquiet⟩ := h.settled
    exact ⟨hs.agrees, fun scope hne => hquiet scope hne hne⟩
  members h := h.settled.1.agrees
  enumerators h := h.settled.agrees
  calls h howner hmembers hid hname hsort args := by
    obtain ⟨hclass, hunder, hvars⟩ := h.deeper howner
    exact Store.sameCall_of_lookupPath
      (hclass.lookupPath_eq hunder hvars hmembers hid hname hsort) args

/-- `class P { func f() { } }`, in the body of `f`. -/
theorem scopesAgree_method_unit : ∃ tree p q s members id,
    InMethod [.keyword .classKw, .name "P", .mark .lbrace, .keyword .funcKw, .name "f",
      .mark .lparen, .mark .rparen, .mark .lbrace, .mark .rbrace, .mark .rbrace] tree p q s ∧
    tree.name = .ok "P" ∧ s.arena.members? p.context = some members ∧ id ∈ members ∧
    s.arena.name? id = some "f" ∧ s.arena.sort? id = some .func ∧
    ∀ args, SameCall (s.callExpr q ⟨"P", ["f"]⟩ args) (s.callExpr q ⟨"f", []⟩ args) := by
  have hitems : readItems [.keyword .classKw, .name "P", .mark .lbrace, .keyword .funcKw,
      .name "f", .mark .lparen, .mark .rparen, .mark .lbrace, .mark .rbrace, .mark .rbrace] =
      [.classItem ⟨.ok "P", .ok (), [.func ⟨.ok "f", .ok (), none, [], .ok (), .block []⟩]⟩] := by
    simp [readItems, readItem, readClass, readName, readToken, readMembers, readFunc, skipParams,
      skipParens?, readReturnType, readParams, readBody, readBlock, dropToken]
  have hmethod := InMethod.mk (.mk (.start hitems) rfl .start) rfl rfl rfl .here
  exact ⟨_, _, _, _, _, _, hmethod, rfl, rfl, .head _, rfl, rfl,
    (scopesAgree _).calls hmethod rfl rfl (.head _) rfl rfl⟩

end UnitAnalysis
