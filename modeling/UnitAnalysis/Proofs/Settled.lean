import UnitAnalysis.Proofs.Elaboration
import UnitAnalysis.Proofs.Redeclaration

/-!
# Stores between two members

All that holds whenever a construct is complete and the next one has not begun:
scopes and contexts agree, the members of every context are well formed, every
function is a member of a context and every enumerator a member of an enum.  Main
statement: every step of a run leads from such a store to such a store
(`ItemStep.settled`).
-/

namespace UnitAnalysis

/-! ## Functions are members -/

def Arena.FuncsListed (a : Arena) : Prop :=
  ∀ ⦃id f⦄, a.func id = .ok f → a.Listed id

theorem Arena.FuncsListed.grows {a b : Arena} {context : DeclId} {ids : List DeclId}
    (h : a.FuncsListed) (hgrows : a.Grows b context ids)
    (hnew : ∀ {x f}, a.size ≤ x → b.func x = .ok f → b.Listed x) : b.FuncsListed := by
  intro x f hf
  by_cases hx : x < a.size
  · rw [hgrows.func_eq hx] at hf
    exact hgrows.listed (h hf)
  · exact hnew (Nat.le_of_not_lt hx) hf

theorem Arena.FuncsListed.member {a b : Arena} {context : DeclId} {ids : List DeclId} {d : Decl}
    (h : a.FuncsListed) (hgrows : a.Grows b context ids) (hsize : b.size = a.size + 1)
    (hd : b.decl? a.size = some d) (hfunc : ∀ f, d.kind ≠ .func f) : b.FuncsListed := by
  refine h.grows hgrows ?_
  intro x f hle hf
  obtain ⟨d', hd', hkind⟩ := func_eq_ok_iff.mp hf
  have hlt := decl?_eq_some_lt hd'
  rw [hsize] at hlt
  obtain rfl : x = a.size := Nat.le_antisymm (Nat.le_of_lt_succ hlt) hle
  obtain rfl := Option.some.inj (hd.symm.trans hd')
  exact absurd hkind (hfunc f)

/-- A function makes one function and otherwise variables. -/
theorem FuncStep.func_new {p : Place} {s s' : Store} {id x : DeclId} {f : Func}
    (h : FuncStep p s id s') (hs : s.Between p) (hle : s.arena.size ≤ x)
    (hf : s'.arena.func x = .ok f) : x = id := by
  have hsigned : ∀ {s₁ : Store} {g : Func}, SignatureStep p s id s₁ →
      s₁.arena.func x = .ok g → x = id := by
    intro s₁ g hsignature hg
    obtain ⟨f, hsigned⟩ := hsignature.exists_signed hs.bounded hs.scope_lt hs.context_lt
    obtain ⟨d, hd, hkind⟩ := Arena.func_eq_ok_iff.mp hg
    rw [← hsignature.id_eq] at hle
    rcases Nat.eq_or_lt_of_le hle with heq | hgt
    · exact heq.symm
    · obtain ⟨name, ty, hparam⟩ := hsigned.param x hgt (Arena.decl?_eq_some_lt hd)
      obtain rfl := Option.some.inj (hd.symm.trans hparam)
      cases hkind
  cases h with
  | prototype hsignature => exact hsigned hsignature hf
  | @definition s₁ s₂ g body hsignature _ _ hbody =>
      by_contra hne
      have hinside := Place.inside_lt_revealedAll p s₁ g.params
      obtain ⟨d, hd, hkind⟩ := Arena.func_eq_ok_iff.mp hf
      rw [Store.arena_closed, Store.decl?_mapFunc, if_neg hne] at hd
      by_cases hx : x < s₁.arena.size
      · rw [(hbody.grows hinside).arena.decl?_eq_of_nil hx] at hd
        exact hne (hsigned hsignature (Arena.func_eq_ok_iff.mpr ⟨d, hd, hkind⟩))
      · obtain ⟨name, ty, init, hvar⟩ := hbody.exists_decl? hinside x (Nat.le_of_not_lt hx)
          (Arena.decl?_eq_some_lt hd)
        obtain rfl := Option.some.inj (hd.symm.trans hvar)
        cases hkind

/-! ## Steps -/

structure Store.Settled (s : Store) (p : Place) : Prop extends s.Between p where
  formed : s.arena.AllFormed
  funcs : s.arena.FuncsListed
  owned : s.arena.All Arena.Owned

section Steps

variable {p : Place} {s s' : Store} {id : DeclId}

theorem FuncStep.settled (h : FuncStep p s id s') (hs : s.Settled p) : s'.Settled p := by
  have hgrows := h.grows hs.scope_lt
  refine ⟨hs.step hgrows (h.bounded hs.bounded hs.scope_lt), h.allFormed hs.toBetween hs.formed,
    hs.funcs.grows hgrows.arena ?_, Arena.declInvariant_owned.of_funcStep h hs.toBetween hs.owned⟩
  intro x f hle hf
  obtain rfl := h.func_new hs.toBetween hle hf
  exact ⟨p.context, _, hgrows.arena.members?_context hs.agrees, by simp⟩

theorem MemberStep.settled (h : MemberStep p s id s') (hs : s.Settled p) : s'.Settled p := by
  have hgrows := h.grows hs.scope_lt
  refine ⟨MemberStep.growing.between h hs.toBetween, h.allFormed hs.toBetween hs.formed, ?_,
    Arena.declInvariant_owned.of_memberStep h hs.toBetween hs.owned⟩
  cases h with
  | field hfield =>
      cases hfield with
      | @mk name ty =>
          exact hs.funcs.member hgrows.arena (by simp) (hs.decl?_member name (.field ty)) (by simp)
  | func hfunc => exact (hfunc.settled hs).funcs

theorem EnumeratorStep.settled (h : EnumeratorStep p s id s') (hs : s.Settled p) :
    s'.Settled p := by
  have hgrows := h.grows hs.scope_lt
  refine ⟨EnumeratorStep.growing.between h hs.toBetween, h.allFormed hs.toBetween hs.formed, ?_,
    Arena.declInvariant_owned.of_enumeratorStep h hs.toBetween hs.owned⟩
  cases h with
  | @mk name value =>
      exact hs.funcs.member hgrows.arena (by simp) (hs.decl?_member name (.enumerator value))
        (by simp)

theorem Store.Settled.tagged (hs : s.Settled p) {name : String} (kind : TagKind)
    (hfresh : s.Fresh p name false) : (s.tagged p name kind).Settled p := by
  have hgrows := Store.tagged_grows hs.scope_lt name kind
  have hd := hs.decl?_member name (.tag kind [])
  have hsize : (s.tagged p name kind).arena.size = s.arena.size + 1 := by simp [Store.tagged]
  refine ⟨hs.toBetween.tagged name kind,
    hs.formed.member hs.toBetween hgrows hfresh hd hsize (by simp) rfl,
    hs.funcs.member hgrows.arena hsize hd (by simp), ?_⟩
  exact Arena.declInvariant_owned.of_member hs.toBetween hs.owned name (.tag kind [])
    (Arena.declInvariant_owned.inert trivial)

/-- Where the members of a class or enum begin. -/
theorem Store.Settled.inside (hs : s.Settled p) {name : String} (kind : TagKind)
    (hfresh : s.Fresh p name false) :
    ((s.tagged p name kind).opened p).Settled { p.inside s with context := s.arena.size } where
  toBetween := hs.toBetween.inside name kind
  formed := (hs.tagged kind hfresh).formed
  funcs := (hs.tagged kind hfresh).funcs
  owned := (hs.tagged kind hfresh).owned

theorem TagStep.settled {kind : TagKind} {member : Place → Store → DeclId → Store → Prop}
    (hmember : Growing member)
    (hstep : ∀ {p s id s'}, member p s id s' → s.Settled p → s'.Settled p)
    (h : TagStep kind member p s id s') (hs : s.Settled p) : s'.Settled p := by
  have hgrows := h.grows hmember.grows hs.scope_lt
  have hbounded := h.bounded hmember hs.bounded hs.scope_lt
  cases h with
  | @mk name members s₁ hfresh hmembers =>
      have hrun := hmembers.preserves (I := fun s => s.Settled _) hstep (hs.inside kind hfresh)
      exact ⟨hs.step hgrows hbounded, hrun.formed, hrun.funcs, hrun.owned⟩

theorem ItemStep.settled (h : ItemStep p s id s') (hs : s.Settled p) : s'.Settled p := by
  have hgrows := h.grows hs.scope_lt
  refine ⟨ItemStep.growing.between h hs.toBetween, h.allFormed hs.toBetween hs.formed, ?_,
    Arena.declInvariant_owned.of_itemStep h hs.toBetween hs.owned⟩
  cases h with
  | classItem hclass => exact (hclass.settled MemberStep.growing MemberStep.settled hs).funcs
  | enumItem henum => exact (henum.settled EnumeratorStep.growing EnumeratorStep.settled hs).funcs
  | func hfunc => exact (hfunc.settled hs).funcs
  | @var s₁ hvar =>
      obtain ⟨name, ty, init, hd, -⟩ := hvar.exists_decl?
      have hid := hvar.id_eq
      subst hid
      refine hs.funcs.member hgrows.arena ?_ (d := ⟨some name, some p.context, .var ty init⟩) ?_
        (by simp)
      · rw [Store.size_enlisted, hvar.size_eq]
      · rw [Store.decl?_enlisted, if_neg (Nat.ne_of_gt hs.context_lt)]
        exact hd

end Steps

theorem Store.Settled.empty : Store.empty.Settled .top where
  toBetween := .empty
  formed := by
    intro context members hmembers
    cases context with
    | zero =>
        cases hmembers
        exact .nil
    | succ => cases hmembers
  funcs := by
    intro id f hf
    cases id <;> cases hf
  owned := by
    intro id kind hkind
    cases id with
    | zero =>
        cases hkind
        exact Arena.declInvariant_owned.inert trivial
    | succ => cases hkind

theorem UnitRun.settled {ids : List DeclId} {s : Store} (h : UnitRun ids s) : s.Settled .top :=
  Runs.preserves (I := fun s => s.Settled .top) ItemStep.settled h .empty

end UnitAnalysis
