import UnitAnalysis.Proofs.Action
import UnitAnalysis.Proofs.Growth

/-!
# References point backwards

Every declaration that a store mentions exists: in the lists of contexts and
functions and in the scopes.  Parameters are variables.  A function repeats only
an earlier declaration, and the parent of a scope is an earlier scope.  Main
statement: every step of a run keeps this (`ItemStep.growing`).
-/

namespace UnitAnalysis

structure Arena.Bounded (a : Arena) : Prop where
  members_lt : ∀ {context members}, a.members? context = some members →
    ∀ id ∈ members, id < a.size
  params_var : ∀ {id f}, a.func id = .ok f → ∀ param ∈ f.params, ∃ ty, a.varTy param = .ok ty
  previous_lt : ∀ {id f previous}, a.func id = .ok f → f.previous = some previous →
    previous < id

structure ScopeTree.Bounded (t : ScopeTree) (size : Nat) : Prop where
  visible_lt : ∀ scope, ∀ id ∈ t.visible scope, id < size
  parent_lt : ∀ {scope parent}, t.parent? scope = some parent → parent < scope

structure Store.Bounded (s : Store) : Prop where
  arena : s.arena.Bounded
  scopes : s.scopes.Bounded s.arena.size

/-! ## Updates of the arena -/

namespace Arena.Bounded

variable {s : Store} {p : Place}

theorem params_lt {a : Arena} (h : a.Bounded) {id : DeclId} {f : Func} (hf : a.func id = .ok f) :
    ∀ param ∈ f.params, param < a.size := by
  intro param hparam
  obtain ⟨ty, hty⟩ := h.params_var hf param hparam
  exact varTy_eq_ok_lt hty

theorem declared (h : s.arena.Bounded) (name : String) {kind : DeclKind}
    (hmembers : kind.members?.getD [] = [])
    (hfunc : ∀ f, kind = .func f → f.params = [] ∧ f.previous = none) :
    (s.declared p name kind).arena.Bounded where
  members_lt {context members} hlist id hid := by
    obtain ⟨d, hd, hkind⟩ := members?_eq_some_iff.mp hlist
    rw [Store.decl?_declared] at hd
    split at hd
    · cases hd
      simp_all
    · have hold := h.members_lt (members?_eq_some_iff.mpr ⟨d, hd, hkind⟩) id hid
      exact Nat.lt_of_lt_of_le hold (by simp)
  params_var {id f} hf param hparam := by
    obtain ⟨d, hd, hkind⟩ := func_eq_ok_iff.mp hf
    rw [Store.decl?_declared] at hd
    split at hd
    · cases hd
      simp [(hfunc f hkind).1] at hparam
    · obtain ⟨ty, hty⟩ := h.params_var (func_eq_ok_iff.mpr ⟨d, hd, hkind⟩) param hparam
      exact ⟨ty, s.varTy_declared p name kind hty⟩
  previous_lt {id f previous} hf hprevious := by
    obtain ⟨d, hd, hkind⟩ := func_eq_ok_iff.mp hf
    rw [Store.decl?_declared] at hd
    split at hd
    · cases hd
      simp [(hfunc f hkind).2] at hprevious
    · exact h.previous_lt (func_eq_ok_iff.mpr ⟨d, hd, hkind⟩) hprevious

theorem func_of_enlisted {id x : DeclId} {f : Func}
    (hf : (s.enlisted p id).arena.func x = .ok f) : s.arena.func x = .ok f := by
  obtain ⟨d, hd, hkind⟩ := func_eq_ok_iff.mp hf
  rw [Store.decl?_enlisted] at hd
  split at hd
  · obtain ⟨d₀, hd₀, rfl⟩ := Option.map_eq_some_iff.mp hd
    refine func_eq_ok_iff.mpr ⟨d₀, hd₀, ?_⟩
    cases hk : d₀.kind <;> simp_all [DeclKind.addMember]
  · exact func_eq_ok_iff.mpr ⟨d, hd, hkind⟩

theorem enlisted (h : s.arena.Bounded) {id : DeclId} (hid : id < s.arena.size) :
    (s.enlisted p id).arena.Bounded where
  members_lt {context members} hlist x hx := by
    obtain ⟨d, hd, hkind⟩ := members?_eq_some_iff.mp hlist
    rw [Store.size_enlisted]
    rw [Store.decl?_enlisted] at hd
    split at hd
    · obtain ⟨d₀, hd₀, rfl⟩ := Option.map_eq_some_iff.mp hd
      obtain ⟨old, hold, rfl⟩ :
          ∃ old, d₀.kind.members? = some old ∧ members = old ++ [id] := by
        cases hk : d₀.kind <;> simp_all [DeclKind.addMember, DeclKind.members?]
      rcases List.mem_append.mp hx with hx | hx
      · exact h.members_lt (members?_eq_some_iff.mpr ⟨d₀, hd₀, hold⟩) x hx
      · rw [List.mem_singleton.mp hx]
        exact hid
    · exact h.members_lt (members?_eq_some_iff.mpr ⟨d, hd, hkind⟩) x hx
  params_var {x f} hf param hparam := by
    obtain ⟨ty, hty⟩ := h.params_var (func_of_enlisted hf) param hparam
    exact ⟨ty, varTy_modifyKind hty p.context fun _ _ => rfl⟩
  previous_lt {x f previous} hf hprevious :=
    h.previous_lt (func_of_enlisted hf) hprevious

theorem mapFunc (h : s.arena.Bounded) {id : DeclId} {change : Func → Func}
    (hparams : ∀ f, s.arena.func id = .ok f → ∀ param ∈ (change f).params,
      ∃ ty, s.arena.varTy param = .ok ty)
    (hprevious : ∀ f, s.arena.func id = .ok f → ∀ previous, (change f).previous = some previous →
      previous < id) :
    (s.mapFunc id change).arena.Bounded := by
  have hback : ∀ {x : DeclId} {f : Func}, (s.mapFunc id change).arena.func x = .ok f →
      (x = id ∧ ∃ f₀, s.arena.func id = .ok f₀ ∧ f = change f₀) ∨ s.arena.func x = .ok f := by
    intro x f hf
    obtain ⟨d, hd, hkind⟩ := func_eq_ok_iff.mp hf
    rw [Store.decl?_mapFunc] at hd
    split at hd
    · rename_i heq
      subst heq
      obtain ⟨d₀, hd₀, rfl⟩ := Option.map_eq_some_iff.mp hd
      left
      refine ⟨rfl, ?_⟩
      cases hk : d₀.kind with
      | func f₀ =>
          refine ⟨f₀, func_eq_ok_iff.mpr ⟨d₀, hd₀, hk⟩, ?_⟩
          simp only [hk, DeclKind.mapFunc, DeclKind.func.injEq] at hkind
          exact hkind.symm
      | _ => simp [hk, DeclKind.mapFunc] at hkind
    · exact .inr (func_eq_ok_iff.mpr ⟨d, hd, hkind⟩)
  refine ⟨?_, ?_, ?_⟩
  · intro context members hlist x hx
    obtain ⟨d, hd, hkind⟩ := members?_eq_some_iff.mp hlist
    rw [Store.size_mapFunc]
    rw [Store.decl?_mapFunc] at hd
    split at hd
    · obtain ⟨d₀, hd₀, rfl⟩ := Option.map_eq_some_iff.mp hd
      refine h.members_lt (members?_eq_some_iff.mpr ⟨d₀, hd₀, ?_⟩) x hx
      cases hk : d₀.kind <;> simp_all [DeclKind.mapFunc, DeclKind.members?]
    · exact h.members_lt (members?_eq_some_iff.mpr ⟨d, hd, hkind⟩) x hx
  · intro x f hf param hparam
    have hold : ∃ ty, s.arena.varTy param = .ok ty := by
      rcases hback hf with ⟨rfl, f₀, hf₀, rfl⟩ | hold
      · exact hparams f₀ hf₀ param hparam
      · exact h.params_var hold param hparam
    obtain ⟨ty, hty⟩ := hold
    exact ⟨ty, varTy_modifyKind hty id fun _ _ => rfl⟩
  · intro x f previous hf hprev
    rcases hback hf with ⟨rfl, f₀, hf₀, rfl⟩ | hold
    · exact hprevious f₀ hf₀ previous hprev
    · exact h.previous_lt hold hprev

theorem linked (h : s.arena.Bounded) {id : DeclId} {previous : Option DeclId}
    (hprevious : ∀ earlier, previous = some earlier → earlier < id) :
    (s.linked id previous).arena.Bounded := by
  cases previous with
  | none => exact h
  | some earlier =>
      refine h.mapFunc (fun f hf param hparam => h.params_var hf param hparam) ?_
      intro f _ q hq
      cases hq
      exact hprevious earlier rfl

end Arena.Bounded

/-! ## Updates of the scopes -/

namespace ScopeTree.Bounded

variable {t : ScopeTree} {size : Nat}

theorem mono (h : t.Bounded size) {more : Nat} (hle : size ≤ more) : t.Bounded more where
  visible_lt scope id hid := Nat.lt_of_lt_of_le (h.visible_lt scope id hid) hle
  parent_lt := h.parent_lt

theorem push (h : t.Bounded size) {scope : ScopeId} (hscope : scope < t.size) :
    (t.push scope).Bounded size where
  visible_lt x id hid := h.visible_lt x id (by simpa using hid)
  parent_lt {x parent} hparent := by
    rw [parent?_push] at hparent
    split at hparent
    · rename_i heq
      cases hparent
      exact heq ▸ hscope
    · exact h.parent_lt hparent

theorem addAll (h : t.Bounded size) {scope : ScopeId} (hscope : scope < t.size)
    {ids : List DeclId} (hids : ∀ id ∈ ids, id < size) : (t.addAll scope ids).Bounded size where
  visible_lt x id hid := by
    rw [visible_addAll hscope] at hid
    split at hid
    · rcases List.mem_append.mp hid with hid | hid
      · exact h.visible_lt scope id hid
      · exact hids id hid
    · exact h.visible_lt x id hid
  parent_lt {x parent} hparent := h.parent_lt (by simpa using hparent)

theorem close (h : t.Bounded size) {scope : ScopeId} (hscope : scope < t.size) :
    (t.modifyVisible scope fun _ => []).Bounded size where
  visible_lt x id hid := by
    rw [visible_modifyVisible _ _ _ _ hscope] at hid
    split at hid
    · simp at hid
    · exact h.visible_lt x id hid
  parent_lt {x parent} hparent := h.parent_lt (by simpa using hparent)

end ScopeTree.Bounded

/-! ## Updates of the store -/

namespace Store.Bounded

variable {s : Store} {p : Place} {id : DeclId}

theorem declared (h : s.Bounded) (name : String) {kind : DeclKind}
    (hmembers : kind.members?.getD [] = [])
    (hfunc : ∀ f, kind = .func f → f.params = [] ∧ f.previous = none) :
    (s.declared p name kind).Bounded :=
  ⟨h.arena.declared name hmembers hfunc, h.scopes.mono (by simp)⟩

theorem revealed (h : s.Bounded) (hp : p.scope < s.scopes.size) (hid : id < s.arena.size) :
    (s.revealed p id).Bounded := by
  have hone : ∀ x ∈ [id], x < s.arena.size := by simpa using hid
  exact ⟨h.arena, h.scopes.addAll hp hone⟩

theorem enlisted (h : s.Bounded) (hid : id < s.arena.size) : (s.enlisted p id).Bounded :=
  ⟨h.arena.enlisted hid, by simpa using h.scopes⟩

theorem opened (h : s.Bounded) (hp : p.scope < s.scopes.size) : (s.opened p).Bounded :=
  ⟨h.arena, h.scopes.push hp⟩

theorem closed (h : s.Bounded) {scope : ScopeId} (hscope : scope < s.scopes.size) :
    (s.closed scope).Bounded :=
  ⟨h.arena, h.scopes.close hscope⟩

theorem empty : Store.empty.Bounded where
  arena := by
    constructor
    · intro context members hlist
      cases context with
      | zero => cases hlist; simp
      | succ => cases hlist
    · intro x f hf
      cases x <;> cases hf
    · intro x f previous hf
      cases x <;> cases hf
  scopes := by
    constructor
    · intro scope id hid
      cases scope <;>
        simp [ScopeTree.visible, ScopeTree.scope?, Store.empty, ScopeTree.empty] at hid
    · intro scope parent hparent
      cases scope <;>
        simp [ScopeTree.parent?, ScopeTree.scope?, Store.empty, ScopeTree.empty] at hparent

end Store.Bounded

/-! ## Steps -/

theorem VarStep.bounded {p : Place} {s s' : Store} {id : DeclId} (h : VarStep p s id s')
    (hs : s.Bounded) (hp : p.scope < s.scopes.size) : s'.Bounded := by
  cases h with
  | plain => exact (hs.declared _ rfl (by simp)).revealed hp (by simp)
  | init => exact (hs.declared _ rfl (by simp)).revealed hp (by simp)

theorem BlockRun.bounded {p : Place} {s s' : Store} {stmts : List Stmt}
    (h : BlockRun p s stmts s') (hs : s.Bounded) (hp : p.scope < s.scopes.size) :
    s'.Bounded := by
  induction h with
  | nil => exact hs
  | block hbody _ ihbody ihrest =>
      have hgrows := hbody.grows (Place.inside_lt _ _)
      have hinner := ihbody (hs.opened hp) (Place.inside_lt _ _)
      exact ihrest (hinner.closed hgrows.scope_lt) (Store.Grows.bracket hp hgrows).scope_lt
  | var hvar _ ih => exact ih (hvar.bounded hs hp) (hvar.grows hp).scope_lt
  | expr _ _ ih => exact ih hs hp
  | ret _ _ _ _ ih => exact ih hs hp
  | retValue _ _ _ _ _ _ ih => exact ih hs hp

theorem BlockRun.bounded_closed {p : Place} {s s₁ : Store} {body : List Stmt}
    (h : BlockRun (p.inside s) (s.opened p) body s₁) (hs : s.Bounded)
    (hp : p.scope < s.scopes.size) : (s₁.closed s.scopes.size).Bounded :=
  (h.bounded (hs.opened hp) (Place.inside_lt p s)).closed (h.grows (Place.inside_lt p s)).scope_lt

theorem ParamStep.bounded {p : Place} {function id : DeclId} {s s' : Store}
    (h : ParamStep p function s id s') (hs : s.Bounded) (hp : p.scope < s.scopes.size) :
    s'.Bounded := by
  cases h with
  | @mk name ty =>
      have hdeclared : (s.declared p name (.var ty none)).Bounded := hs.declared _ rfl (by simp)
      have hmapped : (s.declared p name (.var ty none)).mapFunc function (fun f =>
          { f with params := f.params ++ [s.arena.size] }) |>.Bounded := by
        refine ⟨hdeclared.arena.mapFunc ?_ ?_, by simpa using hdeclared.scopes⟩
        · intro f hf param hparam
          rcases List.mem_append.mp hparam with hold | hnew
          · exact hdeclared.arena.params_var hf param hold
          · rw [List.mem_singleton.mp hnew]
            have hvar := s.kind?_declared p name (.var ty none)
            obtain ⟨d, hd, hkind⟩ := Arena.kind?_eq_some_iff.mp hvar
            exact ⟨ty, Arena.varTy_eq_ok_iff.mpr ⟨d, none, hd, hkind⟩⟩
        · intro f hf previous hprevious
          exact hdeclared.arena.previous_lt hf hprevious
      exact hmapped.revealed hp (by simp)

theorem ParamStep.bounded_all {p : Place} {function : DeclId} {s s' : Store}
    {params : List DeclId} (h : Runs (ParamStep p function) s params s') (hs : s.Bounded)
    (hp : p.scope < s.scopes.size) : s'.Bounded := by
  induction h with
  | nil => exact hs
  | cons hfirst _ ih =>
      exact ih (hfirst.bounded hs hp) (Nat.lt_of_lt_of_le hp (hfirst.scopes_grows hp).size_le)

theorem Store.mem_of_previous?_eq {s : Store} {name : String} {function earlier : DeclId}
    {last : Option DeclId} {others : List DeclId}
    (h : s.previous? name function last others = .ok (some earlier)) :
    last = some earlier ∨ earlier ∈ others := by
  induction others generalizing last with
  | nil =>
      cases h
      exact .inl rfl
  | cons other others ih =>
      simp only [previous?, Check.bind_eq_ok] at h
      obtain ⟨redeclares, _, h⟩ := h
      split at h
      · rcases ih h with heq | hmem
        · cases heq
          exact .inr List.mem_cons_self
        · exact .inr (List.mem_cons_of_mem _ hmem)
      · rcases ih h with heq | hmem
        · exact .inl heq
        · exact .inr (List.mem_cons_of_mem _ hmem)

theorem Store.Bounded.enterParams {p : Place} {s : Store} (hs : s.Bounded)
    (hp : p.scope < s.scopes.size) (name : String) (returnTy : Ty) :
    ((s.declared p name (.func (.prototype returnTy))).opened p).Bounded := by
  refine (hs.declared name rfl ?_).opened hp
  intro f hf
  cases hf
  exact ⟨rfl, rfl⟩

theorem SignatureStep.bounded {p : Place} {s s' : Store} {id : DeclId}
    (h : SignatureStep p s id s') (hs : s.Bounded) (hp : p.scope < s.scopes.size) :
    s'.Bounded := by
  cases h with
  | @mk name returnTy params s₁ previous _ hparams hprevious =>
      have hs₁ : s₁.Bounded :=
        ParamStep.bounded_all hparams (hs.enterParams hp name returnTy) (Place.inside_lt p _)
      have hscopes := hparams.scopes_grows ParamStep.scopes_grows (Place.inside_lt p _)
      have hclosed : (s₁.closed s.scopes.size).Bounded :=
        hs₁.closed (Nat.lt_of_lt_of_le hscopes.scope_lt hscopes.size_le)
      have hgrows := ParamStep.grows_closed hparams hp
      -- The candidates were visible before the function was declared.
      have hearlier : ∀ earlier, previous = some earlier → earlier < s.arena.size := by
        rintro earlier rfl
        rcases Store.mem_of_previous?_eq hprevious with hnone | hmem
        · cases hnone
        · have hvisible := (List.mem_filter.mp hmem).1
          rw [hgrows.scopes.visible_scope, List.append_nil] at hvisible
          exact hs.scopes.visible_lt p.scope earlier hvisible
      have hid : s.arena.size < s₁.arena.size := by
        have hsize := ParamStep.size_eq_all hparams
        simp at hsize
        omega
      have hlinked : ((s₁.closed s.scopes.size).linked s.arena.size previous).Bounded :=
        ⟨hclosed.arena.linked hearlier, by simpa using hclosed.scopes⟩
      exact (hlinked.revealed (by simpa using hgrows.scope_lt) (by simpa using hid)).enlisted
        (by simpa using hid)

theorem Place.inside_lt_revealedAll (p : Place) (s : Store) (params : List DeclId) :
    (p.inside s).scope < ((s.opened p).revealedAll s.scopes.size params).scopes.size := by
  simp [Place.inside, Store.opened, Store.revealedAll]

theorem Store.Bounded.enterBody {p : Place} {s : Store} {id : DeclId} {f : Func}
    (hs : s.Bounded) (hp : p.scope < s.scopes.size) (hfunc : s.arena.func id = .ok f) :
    ((s.opened p).revealedAll s.scopes.size f.params).Bounded := by
  have hopened := hs.opened hp
  exact ⟨hopened.arena, hopened.scopes.addAll (Place.inside_lt p s)
    (hopened.arena.params_lt hfunc)⟩

theorem FuncStep.bounded {p : Place} {s s' : Store} {id : DeclId} (h : FuncStep p s id s')
    (hs : s.Bounded) (hp : p.scope < s.scopes.size) : s'.Bounded := by
  cases h with
  | prototype hsignature => exact hsignature.bounded hs hp
  | @definition s₁ s₂ f body hsignature _ hfunc hbody =>
      have hs₁ := hsignature.bounded hs hp
      have hstart := hs₁.enterBody (hsignature.grows hp).scope_lt hfunc
      have hinside := Place.inside_lt_revealedAll p s₁ f.params
      have hs₂ := hbody.bounded hstart hinside
      have hbodied : (s₂.mapFunc id fun f => { f with body := some body }).Bounded := by
        refine ⟨hs₂.arena.mapFunc ?_ ?_, by simpa using hs₂.scopes⟩
        · intro f hf param hparam
          exact hs₂.arena.params_var hf param hparam
        · intro f hf previous hprevious
          exact hs₂.arena.previous_lt hf hprevious
      exact hbodied.closed (hbody.grows hinside).scope_lt

theorem Store.Bounded.member {p : Place} {s : Store} (hs : s.Bounded)
    (hp : p.scope < s.scopes.size) (name : String) {kind : DeclKind}
    (hmembers : kind.members?.getD [] = []) (hfunc : ∀ f, kind ≠ .func f) :
    (((s.declared p name kind).revealed p s.arena.size).enlisted p s.arena.size).Bounded := by
  have hdeclared : (s.declared p name kind).Bounded :=
    hs.declared name hmembers (fun f hf => absurd hf (hfunc f))
  exact (hdeclared.revealed hp (by simp)).enlisted (by simp)

theorem MemberStep.bounded {p : Place} {s s' : Store} {id : DeclId} (h : MemberStep p s id s')
    (hs : s.Bounded) (hp : p.scope < s.scopes.size) : s'.Bounded := by
  cases h with
  | field hfield =>
      cases hfield with
      | mk => exact hs.member hp _ rfl (by simp)
  | func hfunc => exact hfunc.bounded hs hp

theorem EnumeratorStep.bounded {p : Place} {s s' : Store} {id : DeclId}
    (h : EnumeratorStep p s id s') (hs : s.Bounded) (hp : p.scope < s.scopes.size) :
    s'.Bounded := by
  cases h with
  | mk => exact hs.member hp _ rfl (by simp)

/-- Steps that add one member to the context of a place. -/
structure Growing (step : Place → Store → DeclId → Store → Prop) : Prop where
  grows : ∀ {p s id s'}, step p s id s' → p.scope < s.scopes.size → s.Grows s' p [id] [id]
  bounded : ∀ {p s id s'}, step p s id s' → s.Bounded → p.scope < s.scopes.size → s'.Bounded

theorem MemberStep.growing : Growing MemberStep :=
  ⟨MemberStep.grows, MemberStep.bounded⟩

theorem EnumeratorStep.growing : Growing EnumeratorStep :=
  ⟨EnumeratorStep.grows, EnumeratorStep.bounded⟩

theorem Growing.bounded_all {step : Place → Store → DeclId → Store → Prop}
    (hstep : Growing step) {p : Place} {s s' : Store} {ids : List DeclId}
    (h : Runs (step p) s ids s') (hs : s.Bounded) (hp : p.scope < s.scopes.size) :
    s'.Bounded := by
  induction h with
  | nil => exact hs
  | cons hfirst _ ih =>
      exact ih (hstep.bounded hfirst hs hp) (hstep.grows hfirst hp).scope_lt

theorem TagStep.bounded {kind : TagKind} {member : Place → Store → DeclId → Store → Prop}
    (hmember : Growing member) {p : Place} {s s' : Store} {id : DeclId}
    (h : TagStep kind member p s id s') (hs : s.Bounded) (hp : p.scope < s.scopes.size) :
    s'.Bounded := by
  cases h with
  | @mk name members s₁ _ hmembers =>
      have htagged : (s.tagged p name kind).Bounded := hs.member hp name rfl (by simp)
      have hopened := htagged.opened (Store.tagged_grows hp name kind).scope_lt
      have hinside : s.scopes.size < ((s.tagged p name kind).opened p).scopes.size := by
        simp [Store.opened]
      have hs₁ := hmember.bounded_all hmembers hopened hinside
      exact hs₁.closed (hmembers.grows hmember.grows hinside).scope_lt

theorem ItemStep.growing : Growing ItemStep := by
  refine ⟨ItemStep.grows, ?_⟩
  intro p s id s' h hs hp
  cases h with
  | classItem hclass => exact hclass.bounded MemberStep.growing hs hp
  | enumItem henum => exact henum.bounded EnumeratorStep.growing hs hp
  | func hfunc => exact hfunc.bounded hs hp
  | var hvar =>
      refine (hvar.bounded hs hp).enlisted ?_
      cases hvar <;> simp

/-! ## Chains of redeclarations -/

theorem Arena.firstWithin_succ {a : Arena} {id : DeclId} {f : Func} (hf : a.func id = .ok f)
    (steps : Nat) : a.firstWithin (steps + 1) id =
      match f.previous with
      | some earlier => a.firstWithin steps earlier
      | none => .ok id := by
  rw [firstWithin, hf]
  rfl

theorem Arena.definedWithin_succ {a : Arena} {id : DeclId} {f : Func} (hf : a.func id = .ok f)
    (steps : Nat) : a.definedWithin (steps + 1) id =
      if f.isDefinition then .ok true
      else
        match f.previous with
        | some earlier => a.definedWithin steps earlier
        | none => .ok false := by
  rw [definedWithin, hf]
  rfl

namespace Arena.Bounded

variable {a : Arena} {id first : DeclId}

theorem previous_eq_none_of_firstWithin (h : a.Bounded) {steps : Nat} (hid : id < steps)
    (hfirst : a.firstWithin steps id = .ok first) :
    ∃ f, a.func first = .ok f ∧ f.previous = none := by
  induction steps generalizing id with
  | zero => exact absurd hid (Nat.not_lt_zero _)
  | succ steps ih =>
      simp only [firstWithin, Check.bind_eq_ok] at hfirst
      obtain ⟨f, hf, hfirst⟩ := hfirst
      split at hfirst
      · rename_i earlier hprevious
        have hlt := h.previous_lt hf hprevious
        exact ih (Nat.lt_of_lt_of_le hlt (Nat.le_of_lt_succ hid)) hfirst
      · rename_i hprevious
        cases hfirst
        exact ⟨f, hf, hprevious⟩

/-- The first declaration of a function repeats no other. -/
theorem previous_eq_none_of_firstDeclaration (h : a.Bounded) {f : Func}
    (hfirst : a.firstDeclaration id = .ok first) (hf : a.func first = .ok f) :
    f.previous = none := by
  have hlt : id < a.size := by
    obtain ⟨d, hd, -⟩ := func_eq_ok_iff.mp hf
    unfold firstDeclaration at hfirst
    cases hsize : a.size with
    | zero => exact absurd (hsize ▸ decl?_eq_some_lt hd) (Nat.not_lt_zero _)
    | succ steps =>
        simp only [hsize, firstWithin, Check.bind_eq_ok] at hfirst
        obtain ⟨g, hg, -⟩ := hfirst
        obtain ⟨d, hd, -⟩ := func_eq_ok_iff.mp hg
        exact hsize ▸ decl?_eq_some_lt hd
  obtain ⟨g, hg, hprevious⟩ := h.previous_eq_none_of_firstWithin hlt hfirst
  rw [hf] at hg
  cases hg
  exact hprevious

end Arena.Bounded

end UnitAnalysis
