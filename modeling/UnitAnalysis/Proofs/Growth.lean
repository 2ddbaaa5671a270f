import UnitAnalysis.Proofs.Run

/-!
# What a run leaves alone

A construct adds declarations and scopes behind those that a store has.  Of the
old declarations only the current context changes, and only by new members at
its end; of the old scopes only the current one, and only by declarations that
become visible in it.  Every scope that a construct opens is empty again when
the construct is complete.
-/

namespace UnitAnalysis

/-! ## Arenas -/

def DeclKind.addMembers (ids : List DeclId) : DeclKind → DeclKind
  | .unit members => .unit (members ++ ids)
  | .tag kind members => .tag kind (members ++ ids)
  | kind => kind

@[simp] theorem DeclKind.addMembers_nil (kind : DeclKind) : kind.addMembers [] = kind := by
  cases kind <;> simp [addMembers]

@[simp] theorem DeclKind.addMembers_addMembers (first second : List DeclId)
    (kind : DeclKind) :
    (kind.addMembers first).addMembers second = kind.addMembers (first ++ second) := by
  cases kind <;> simp [addMembers]

theorem DeclKind.addMember_eq (id : DeclId) (kind : DeclKind) :
    kind.addMember id = kind.addMembers [id] := by
  cases kind <;> rfl

def Decl.addMembers (ids : List DeclId) (d : Decl) : Decl :=
  { d with kind := d.kind.addMembers ids }

/-- All declarations stay as they are, but the context has the further members `ids`. -/
structure Arena.Grows (a a' : Arena) (context : DeclId) (ids : List DeclId) : Prop where
  size_le : a.size ≤ a'.size
  decl?_eq : ∀ x < a.size, a'.decl? x =
    if x = context then (a.decl? x).map (·.addMembers ids) else a.decl? x

namespace Arena.Grows

variable {a b c : Arena} {context : DeclId} {ids more : List DeclId}

theorem refl (a : Arena) (context : DeclId) : a.Grows a context [] where
  size_le := Nat.le_refl _
  decl?_eq x _ := by
    cases a.decl? x <;> simp [Decl.addMembers]

theorem trans (hab : a.Grows b context ids) (hbc : b.Grows c context more) :
    a.Grows c context (ids ++ more) where
  size_le := Nat.le_trans hab.size_le hbc.size_le
  decl?_eq x hx := by
    rw [hbc.decl?_eq x (Nat.lt_of_lt_of_le hx hab.size_le), hab.decl?_eq x hx]
    by_cases h : x = context
    · simp [h, Function.comp_def, Decl.addMembers]
    · simp [h]

theorem trans_new {new : DeclId} (hab : a.Grows b context ids)
    (hbc : b.Grows c new more) (hnew : a.size ≤ new) : a.Grows c context ids where
  size_le := Nat.le_trans hab.size_le hbc.size_le
  decl?_eq x hx := by
    have hne : x ≠ new := by omega
    rw [hbc.decl?_eq x (Nat.lt_of_lt_of_le hx hab.size_le), if_neg hne, hab.decl?_eq x hx]

theorem modify_new {new : DeclId} (hab : a.Grows b context ids) (hnew : a.size ≤ new)
    (change : DeclKind → DeclKind) : a.Grows (b.modifyKind new change) context ids where
  size_le := by simpa using hab.size_le
  decl?_eq x hx := by
    have hne : x ≠ new := by omega
    rw [decl?_modifyKind, if_neg hne, hab.decl?_eq x hx]

theorem declared {s : Store} (h : a.Grows s.arena context ids) (p : Place)
    (name : String) (kind : DeclKind) :
    a.Grows (s.declared p name kind).arena context ids where
  size_le := by
    have := h.size_le
    simp
    omega
  decl?_eq x hx := by
    have hne : x ≠ s.arena.size := Nat.ne_of_lt (Nat.lt_of_lt_of_le hx h.size_le)
    rw [Store.decl?_declared, if_neg hne, h.decl?_eq x hx]

theorem enlisted {s : Store} {p : Place} (h : a.Grows s.arena p.context ids)
    (id : DeclId) : a.Grows (s.enlisted p id).arena p.context (ids ++ [id]) where
  size_le := by simpa using h.size_le
  decl?_eq x hx := by
    rw [Store.decl?_enlisted, h.decl?_eq x hx]
    by_cases hc : x = p.context
    · simp [hc, Function.comp_def, Decl.addMembers, DeclKind.addMember_eq]
    · simp [hc]

theorem linked {s : Store} {new : DeclId} (h : a.Grows s.arena context ids)
    (hnew : a.size ≤ new) (previous : Option DeclId) :
    a.Grows (s.linked new previous).arena context ids := by
  cases previous with
  | none => exact h
  | some earlier => exact h.modify_new hnew _

theorem decl?_eq_of_nil (h : a.Grows b context []) {x : DeclId} (hx : x < a.size) :
    b.decl? x = a.decl? x := by
  rw [h.decl?_eq x hx]
  by_cases hc : x = context
  · cases a.decl? x <;> simp [Decl.addMembers]
  · simp [hc]

theorem decl?_eq_of_ne (h : a.Grows b context ids) {x : DeclId} (hx : x < a.size)
    (hne : x ≠ context) : b.decl? x = a.decl? x := by
  rw [h.decl?_eq x hx, if_neg hne]

theorem func_eq (h : a.Grows b context ids) {x : DeclId} (hx : x < a.size) :
    b.func x = a.func x := by
  by_cases hc : x = context
  · obtain ⟨d, hd⟩ := exists_decl?_of_lt hx
    have hd' : b.decl? x = some (d.addMembers ids) := by
      rw [h.decl?_eq x hx, if_pos hc, hd]
      rfl
    obtain ⟨name, parent, kind⟩ := d
    cases kind <;>
      simp [func, kind?, hd, hd', Decl.addMembers, DeclKind.addMembers, DeclKind.func?,
        displayName, name?]
  · have hd := h.decl?_eq_of_ne hx hc
    simp [func, kind?, displayName, name?, hd]

theorem members?_context (h : a.Grows b context ids) {members : List DeclId}
    (hmembers : a.members? context = some members) :
    b.members? context = some (members ++ ids) := by
  obtain ⟨d, hd, hkind⟩ := members?_eq_some_iff.mp hmembers
  refine members?_eq_some_iff.mpr ⟨d.addMembers ids, ?_, ?_⟩
  · rw [h.decl?_eq context (decl?_eq_some_lt hd), if_pos rfl, hd]
    rfl
  · obtain ⟨name, parent, kind⟩ := d
    cases kind <;> simp_all [DeclKind.members?, Decl.addMembers, DeclKind.addMembers]

end Arena.Grows

/-! ## Scope trees -/

/--
All scopes stay as they are, but further declarations are visible in one of
them; nothing is visible in the new scopes.
-/
structure ScopeTree.Grows (t t' : ScopeTree) (scope : ScopeId) (ids : List DeclId) : Prop where
  scope_lt : scope < t.size
  size_le : t.size ≤ t'.size
  parent?_eq : ∀ x < t.size, t'.parent? x = t.parent? x
  visible_eq : ∀ x < t.size, t'.visible x =
    if x = scope then t.visible x ++ ids else t.visible x
  visible_new : ∀ x, t.size ≤ x → t'.visible x = []

namespace ScopeTree.Grows

variable {t t₀ t₁ t₂ : ScopeTree} {scope : ScopeId} {ids more : List DeclId}

theorem refl (h : scope < t.size) : t.Grows t scope [] where
  scope_lt := h
  size_le := Nat.le_refl _
  parent?_eq _ _ := rfl
  visible_eq x _ := by simp
  visible_new _ hx := visible_eq_nil_of_size_le hx

theorem trans (h₁ : t.Grows t₁ scope ids) (h₂ : t₁.Grows t₂ scope more) :
    t.Grows t₂ scope (ids ++ more) where
  scope_lt := h₁.scope_lt
  size_le := Nat.le_trans h₁.size_le h₂.size_le
  parent?_eq x hx := by
    rw [h₂.parent?_eq x (Nat.lt_of_lt_of_le hx h₁.size_le), h₁.parent?_eq x hx]
  visible_eq x hx := by
    rw [h₂.visible_eq x (Nat.lt_of_lt_of_le hx h₁.size_le), h₁.visible_eq x hx]
    by_cases h : x = scope <;> simp [h]
  visible_new x hx := by
    by_cases hx₁ : x < t₁.size
    · have hne : x ≠ scope := Nat.ne_of_gt (Nat.lt_of_lt_of_le h₁.scope_lt hx)
      rw [h₂.visible_eq x hx₁, if_neg hne, h₁.visible_new x hx]
    · exact h₂.visible_new x (Nat.le_of_not_lt hx₁)

theorem add (h : t.Grows t₁ scope ids) (id : DeclId) :
    t.Grows (t₁.add scope id) scope (ids ++ [id]) := by
  have hscope : scope < t₁.size := Nat.lt_of_lt_of_le h.scope_lt h.size_le
  refine h.trans ⟨hscope, by simp, by simp, ?_, ?_⟩
  · intro x _
    rw [visible_add hscope]
    by_cases heq : x = scope
    · simp [heq]
    · simp [heq, Ne.symm heq]
  · intro x hx
    have hne : scope ≠ x := Nat.ne_of_lt (Nat.lt_of_lt_of_le hscope hx)
    rw [visible_add hscope, if_neg hne]
    exact visible_eq_nil_of_size_le hx

theorem visible_scope (h : t.Grows t₁ scope ids) :
    t₁.visible scope = t.visible scope ++ ids := by
  rw [h.visible_eq scope h.scope_lt, if_pos rfl]

/--
A scope opened, used and closed again leaves the others alone.  `t₀` is the tree
in which the new scope is used from.
-/
theorem bracket {used : List DeclId} (hscope : scope < t.size)
    (hsize : t₀.size = t.size + 1)
    (hparent : ∀ x < t.size, t₀.parent? x = t.parent? x)
    (hvisible : ∀ x < t.size, t₀.visible x = t.visible x)
    (h : t₀.Grows t₁ t.size used) :
    t.Grows (t₁.modifyVisible t.size fun _ => []) scope [] := by
  have hsize₁ : t.size < t₁.size := by
    have := h.size_le
    omega
  refine ⟨hscope, ?_, ?_, ?_, ?_⟩
  · rw [size_modifyVisible]
    exact Nat.le_of_lt hsize₁
  · intro x hx
    rw [parent?_modifyVisible, h.parent?_eq x (by omega), hparent x hx]
  · intro x hx
    have hne : x ≠ t.size := Nat.ne_of_lt hx
    rw [visible_modifyVisible _ _ _ _ hsize₁, if_neg hne.symm, h.visible_eq x (by omega),
      if_neg hne, hvisible x hx]
    simp
  · intro x hx
    rw [visible_modifyVisible _ _ _ _ hsize₁]
    by_cases heq : t.size = x
    · simp [heq]
    · rw [if_neg heq]
      exact h.visible_new x (by omega)

theorem bracket_push {used : List DeclId} (hscope : scope < t.size)
    (h : (t.push scope).Grows t₁ t.size used) :
    t.Grows (t₁.modifyVisible t.size fun _ => []) scope [] := by
  refine bracket hscope (t.size_push scope) ?_ (fun x _ => t.visible_push scope x) h
  intro x hx
  rw [parent?_push, if_neg (Nat.ne_of_lt hx)]

theorem bracket_push_addAll {used params : List DeclId} (hscope : scope < t.size)
    (h : ((t.push scope).addAll t.size params).Grows t₁ t.size used) :
    t.Grows (t₁.modifyVisible t.size fun _ => []) scope [] := by
  refine bracket hscope (by simp) ?_ ?_ h
  · intro x hx
    rw [parent?_addAll, parent?_push, if_neg (Nat.ne_of_lt hx)]
  · intro x hx
    rw [visible_addAll (by simp), if_neg (Nat.ne_of_gt hx), visible_push]

end ScopeTree.Grows

/-! ## Stores -/

structure Store.Grows (s s' : Store) (p : Place) (listed shown : List DeclId) : Prop where
  arena : s.arena.Grows s'.arena p.context listed
  scopes : s.scopes.Grows s'.scopes p.scope shown

namespace Store.Grows

variable {s s₁ s' : Store} {p : Place} {listed listed' shown shown' : List DeclId}

theorem refl (hp : p.scope < s.scopes.size) : s.Grows s p [] [] :=
  ⟨.refl _ _, .refl hp⟩

theorem trans (h₁ : s.Grows s₁ p listed shown) (h₂ : s₁.Grows s' p listed' shown') :
    s.Grows s' p (listed ++ listed') (shown ++ shown') :=
  ⟨h₁.arena.trans h₂.arena, h₁.scopes.trans h₂.scopes⟩

theorem scope_lt (h : s.Grows s' p listed shown) : p.scope < s'.scopes.size :=
  Nat.lt_of_lt_of_le h.scopes.scope_lt h.scopes.size_le

theorem declared (h : s.Grows s₁ p listed shown) (name : String) (kind : DeclKind) :
    s.Grows (s₁.declared p name kind) p listed shown :=
  ⟨h.arena.declared p name kind, h.scopes⟩

theorem revealed (h : s.Grows s₁ p listed shown) (id : DeclId) :
    s.Grows (s₁.revealed p id) p listed (shown ++ [id]) :=
  ⟨h.arena, h.scopes.add id⟩

theorem enlisted (h : s.Grows s₁ p listed shown) (id : DeclId) :
    s.Grows (s₁.enlisted p id) p (listed ++ [id]) shown :=
  ⟨h.arena.enlisted id, h.scopes⟩

theorem bracket {used : List DeclId} (hp : p.scope < s.scopes.size)
    (h : (s.opened p).Grows s₁ (p.inside s) [] used) :
    s.Grows (s₁.closed s.scopes.size) p [] [] :=
  ⟨h.arena, .bracket_push hp h.scopes⟩

theorem declared_revealed_enlisted (hp : p.scope < s.scopes.size) (name : String)
    (kind : DeclKind) (id : DeclId) :
    s.Grows (((s.declared p name kind).revealed p id).enlisted p id) p [id] [id] :=
  (((Grows.refl hp).declared name kind).revealed id).enlisted id

end Store.Grows

theorem Place.inside_lt (p : Place) (s : Store) :
    (p.inside s).scope < (s.opened p).scopes.size := by
  simp [Place.inside, Store.opened]

/-! ## Variables and statements -/

/-- The declarations that the statements of a block make themselves. -/
def Stmt.introduced : List Stmt → List DeclId
  | [] => []
  | .decl id :: rest => id :: introduced rest
  | _ :: rest => introduced rest

theorem VarStep.grows {p : Place} {s s' : Store} {id : DeclId}
    (h : VarStep p s id s') (hp : p.scope < s.scopes.size) : s.Grows s' p [] [id] := by
  cases h with
  | plain => exact ((Store.Grows.refl hp).declared _ _).revealed _
  | init => exact ((Store.Grows.refl hp).declared _ _).revealed _

theorem VarStep.id_eq {p : Place} {s s' : Store} {id : DeclId} (h : VarStep p s id s') :
    id = s.arena.size := by
  cases h <;> rfl

theorem VarStep.size_eq {p : Place} {s s' : Store} {id : DeclId} (h : VarStep p s id s') :
    s'.arena.size = s.arena.size + 1 := by
  cases h <;> simp

theorem VarStep.exists_decl? {p : Place} {s s' : Store} {id : DeclId} (h : VarStep p s id s') :
    ∃ name ty init, s'.arena.decl? id = some ⟨some name, some p.context, .var ty init⟩ ∧
      s.Fresh p name false := by
  cases h with
  | @plain name ty hfresh =>
      refine ⟨name, ty, none, ?_, hfresh⟩
      rw [Store.arena_revealed, Store.decl?_declared, if_pos rfl]
  | @init name ty e init hfresh =>
      refine ⟨name, ty, some init, ?_, hfresh⟩
      rw [Store.arena_revealed, Store.decl?_declared, if_pos rfl]

theorem BlockRun.grows {p : Place} {s s' : Store} {stmts : List Stmt}
    (h : BlockRun p s stmts s') (hp : p.scope < s.scopes.size) :
    s.Grows s' p [] (Stmt.introduced stmts) := by
  induction h with
  | nil => exact .refl hp
  | block _ _ ihbody ihrest =>
      have hclosed := Store.Grows.bracket hp (ihbody (Place.inside_lt _ _))
      exact hclosed.trans (ihrest hclosed.scope_lt)
  | var hvar _ ih =>
      have hfirst := hvar.grows hp
      exact hfirst.trans (ih hfirst.scope_lt)
  | expr _ _ ih => exact ih hp
  | ret _ _ _ _ ih => exact ih hp
  | retValue _ _ _ _ _ _ ih => exact ih hp

/-- A block as seen from the statements around it. -/
theorem BlockRun.grows_closed {p : Place} {s s₁ : Store} {body : List Stmt}
    (h : BlockRun (p.inside s) (s.opened p) body s₁) (hp : p.scope < s.scopes.size) :
    s.Grows (s₁.closed s.scopes.size) p [] [] :=
  Store.Grows.bracket hp (h.grows (Place.inside_lt p s))

theorem BlockRun.exists_decl? {p : Place} {s s' : Store} {stmts : List Stmt}
    (h : BlockRun p s stmts s') (hp : p.scope < s.scopes.size) :
    ∀ x, s.arena.size ≤ x → x < s'.arena.size →
      ∃ name ty init, s'.arena.decl? x = some ⟨some name, some p.context, .var ty init⟩ := by
  induction h with
  | nil =>
      intro x hle hlt
      omega
  | @block p s s₁ s' body rest hbody hrest ihbody ihrest =>
      intro x hle hlt
      have hclosed := hbody.grows_closed hp
      by_cases hx : x < s₁.arena.size
      · rw [(hrest.grows hclosed.scope_lt).arena.decl?_eq_of_nil hx]
        exact ihbody (Place.inside_lt _ _) x hle hx
      · exact ihrest hclosed.scope_lt x (Nat.le_of_not_lt hx) hlt
  | @var p s s₁ s' id rest hvar hrest ih =>
      intro x hle hlt
      have hgrows := hvar.grows hp
      by_cases hx : x < s₁.arena.size
      · rw [(hrest.grows hgrows.scope_lt).arena.decl?_eq_of_nil hx]
        rw [hvar.size_eq] at hx
        obtain rfl : x = s.arena.size := by omega
        obtain ⟨name, ty, init, hd, -⟩ := hvar.exists_decl?
        rw [hvar.id_eq] at hd
        exact ⟨name, ty, init, hd⟩
      · exact ih hgrows.scope_lt x (Nat.le_of_not_lt hx) hlt
  | expr _ _ ih => exact ih hp
  | ret _ _ _ _ ih => exact ih hp
  | retValue _ _ _ _ _ _ ih => exact ih hp

/-! ## Functions -/

theorem Runs.preserves {step : Store → DeclId → Store → Prop} {I : Store → Prop}
    {s s' : Store} {ids : List DeclId}
    (hstep : ∀ {s id s'}, step s id s' → I s → I s') (h : Runs step s ids s') (hs : I s) :
    I s' := by
  induction h with
  | nil => exact hs
  | cons hfirst _ ih => exact ih (hstep hfirst hs)

theorem Runs.scopes_grows {step : Store → DeclId → Store → Prop} {scope : ScopeId}
    {s s' : Store} {ids : List DeclId}
    (hstep : ∀ {s id s'}, step s id s' → scope < s.scopes.size →
      s.scopes.Grows s'.scopes scope [id])
    (h : Runs step s ids s') (hscope : scope < s.scopes.size) :
    s.scopes.Grows s'.scopes scope ids := by
  induction h with
  | nil => exact .refl hscope
  | cons hfirst _ ih =>
      have hgrows := hstep hfirst hscope
      exact hgrows.trans (ih (Nat.lt_of_lt_of_le hscope hgrows.size_le))

theorem Runs.grows {step : Store → DeclId → Store → Prop} {p : Place} {s s' : Store}
    {ids : List DeclId}
    (hstep : ∀ {s id s'}, step s id s' → p.scope < s.scopes.size → s.Grows s' p [id] [id])
    (h : Runs step s ids s') (hp : p.scope < s.scopes.size) : s.Grows s' p ids ids := by
  induction h with
  | nil => exact .refl hp
  | cons hfirst _ ih =>
      have hgrows := hstep hfirst hp
      exact hgrows.trans (ih hgrows.scope_lt)

theorem ParamStep.scopes_grows {p : Place} {function id : DeclId} {s s' : Store}
    (h : ParamStep p function s id s') (hp : p.scope < s.scopes.size) :
    s.scopes.Grows s'.scopes p.scope [id] := by
  cases h with
  | mk => exact (ScopeTree.Grows.refl hp).add _

/--
Parameters change their function, so their effect is measured from an arena that
does not have the function yet.
-/
theorem ParamStep.arena_grows {p : Place} {function context : DeclId} {s s' : Store}
    {a : Arena} {ids params : List DeclId} (h : Runs (ParamStep p function) s params s')
    (ha : a.Grows s.arena context ids) (hnew : a.size ≤ function) :
    a.Grows s'.arena context ids := by
  induction h with
  | nil => exact ha
  | cons hfirst _ ih =>
      cases hfirst with
      | mk => exact ih ((ha.declared p _ _).modify_new hnew _)

theorem ParamStep.size_eq {p : Place} {function id : DeclId} {s s' : Store}
    (h : ParamStep p function s id s') : s'.arena.size = s.arena.size + 1 := by
  cases h
  simp

theorem ParamStep.size_eq_all {p : Place} {function : DeclId} {s s' : Store}
    {params : List DeclId} (h : Runs (ParamStep p function) s params s') :
    s'.arena.size = s.arena.size + params.length := by
  induction h with
  | nil => simp
  | cons hfirst _ ih =>
      rw [ih, hfirst.size_eq, List.length_cons]
      omega

theorem ParamStep.grows_closed {p : Place} {s s₁ : Store} {name : String}
    {returnTy : Ty} {params : List DeclId}
    (h : Runs (ParamStep (p.inside s) s.arena.size)
      ((s.declared p name (.func (.prototype returnTy))).opened p) params s₁)
    (hp : p.scope < s.scopes.size) :
    s.Grows (s₁.closed s.scopes.size) p [] [] := by
  have hdeclared := (Arena.Grows.refl s.arena p.context).declared p name
    (.func (.prototype returnTy))
  have harena : s.arena.Grows s₁.arena p.context [] :=
    arena_grows h hdeclared (Nat.le_refl _)
  have hscopes := h.scopes_grows ParamStep.scopes_grows (Place.inside_lt p _)
  exact ⟨harena, .bracket_push hp hscopes⟩

theorem SignatureStep.grows {p : Place} {s s' : Store} {id : DeclId}
    (h : SignatureStep p s id s') (hp : p.scope < s.scopes.size) :
    s.Grows s' p [id] [id] := by
  cases h with
  | @mk name returnTy params s₁ previous _ hparams _ =>
      have hclosed := ParamStep.grows_closed hparams hp
      have hlinked :
          s.Grows ((s₁.closed s.scopes.size).linked s.arena.size previous) p [] [] :=
        ⟨hclosed.arena.linked (Nat.le_refl _) previous, by simpa using hclosed.scopes⟩
      exact (hlinked.revealed s.arena.size).enlisted s.arena.size

theorem SignatureStep.id_eq {p : Place} {s s' : Store} {id : DeclId}
    (h : SignatureStep p s id s') : id = s.arena.size := by
  cases h
  rfl

theorem FuncStep.grows {p : Place} {s s' : Store} {id : DeclId}
    (h : FuncStep p s id s') (hp : p.scope < s.scopes.size) : s.Grows s' p [id] [id] := by
  cases h with
  | prototype hsignature => exact hsignature.grows hp
  | @definition s₁ s₂ f body hsignature _ _ hbody =>
      have hsig := hsignature.grows hp
      have hrun := hbody.grows (by simp [Place.inside, Store.opened, Store.revealedAll])
      have harena : s.arena.Grows s₂.arena p.context [id] := by
        simpa using hsig.arena.trans hrun.arena
      have hnew : s.arena.size ≤ id := Nat.le_of_eq hsignature.id_eq.symm
      have hscopes := hsig.scopes.trans (.bracket_push_addAll hsig.scope_lt hrun.scopes)
      exact ⟨harena.modify_new hnew _, hscopes⟩

/-! ## Classes, enums and items -/

theorem FieldStep.grows {p : Place} {s s' : Store} {id : DeclId}
    (h : FieldStep p s id s') (hp : p.scope < s.scopes.size) : s.Grows s' p [id] [id] := by
  cases h with
  | mk => exact .declared_revealed_enlisted hp _ _ _

theorem MemberStep.grows {p : Place} {s s' : Store} {id : DeclId}
    (h : MemberStep p s id s') (hp : p.scope < s.scopes.size) : s.Grows s' p [id] [id] := by
  cases h with
  | field hfield => exact hfield.grows hp
  | func hfunc => exact hfunc.grows hp

theorem EnumeratorStep.grows {p : Place} {s s' : Store} {id : DeclId}
    (h : EnumeratorStep p s id s') (hp : p.scope < s.scopes.size) :
    s.Grows s' p [id] [id] := by
  cases h with
  | mk => exact .declared_revealed_enlisted hp _ _ _

theorem Store.tagged_grows {p : Place} {s : Store} (hp : p.scope < s.scopes.size)
    (name : String) (kind : TagKind) :
    s.Grows (s.tagged p name kind) p [s.arena.size] [s.arena.size] :=
  .declared_revealed_enlisted hp name (.tag kind []) s.arena.size

@[simp] theorem Store.size_scopes_tagged (p : Place) (s : Store) (name : String)
    (kind : TagKind) : (s.tagged p name kind).scopes.size = s.scopes.size := by
  simp [tagged, revealed]

theorem TagStep.grows {kind : TagKind} {member : Place → Store → DeclId → Store → Prop}
    {p : Place} {s s' : Store} {id : DeclId}
    (hmember : ∀ {p s id s'}, member p s id s' → p.scope < s.scopes.size →
      s.Grows s' p [id] [id])
    (h : TagStep kind member p s id s') (hp : p.scope < s.scopes.size) :
    s.Grows s' p [id] [id] := by
  cases h with
  | @mk name members s₁ _ hmembers =>
      have hhead := Store.tagged_grows hp name kind
      have hrun := hmembers.grows hmember (by simp [Place.inside, Store.opened])
      have hscopes := hrun.scopes
      simp only [Place.inside, Store.opened] at hscopes
      rw [← Store.size_scopes_tagged p s name kind] at hscopes
      refine ⟨hhead.arena.trans_new hrun.arena (Nat.le_refl _), ?_⟩
      simpa [Store.closed] using
        hhead.scopes.trans (.bracket_push hhead.scope_lt hscopes)

theorem ItemStep.grows {p : Place} {s s' : Store} {id : DeclId}
    (h : ItemStep p s id s') (hp : p.scope < s.scopes.size) : s.Grows s' p [id] [id] := by
  cases h with
  | classItem hclass => exact hclass.grows MemberStep.grows hp
  | enumItem henum => exact henum.grows EnumeratorStep.grows hp
  | func hfunc => exact hfunc.grows hp
  | var hvar => exact (hvar.grows hp).enlisted id

end UnitAnalysis
