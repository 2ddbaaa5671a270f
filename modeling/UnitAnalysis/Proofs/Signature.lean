import UnitAnalysis.Proofs.Bounds

/-!
# Signatures

A function is followed in the arena by its parameters, one after the other, and
by nothing else before its body begins.  Main statement:
`SignatureStep.exists_signed`.
-/

namespace UnitAnalysis

/-! ## Distinct names -/

/-- No two of some declarations have the same name. -/
def Arena.Distinct (a : Arena) (ids : List DeclId) : Prop :=
  ids.Pairwise fun x y => a.name? x ≠ a.name? y

namespace Arena.Distinct

variable {a b : Arena} {ids : List DeclId}

theorem congr (h : a.Distinct ids) (hname : ∀ x ∈ ids, b.name? x = a.name? x) :
    b.Distinct ids := by
  refine h.imp_of_mem ?_
  intro x y hx hy hne
  rw [hname x hx, hname y hy]
  exact hne

theorem append_one {new : DeclId} {name : String} (h : a.Distinct ids)
    (hnew : a.name? new = some name) (hfresh : ∀ x ∈ ids, a.name? x ≠ some name) :
    a.Distinct (ids ++ [new]) := by
  refine List.pairwise_append.mpr ⟨h, List.pairwise_singleton _ _, ?_⟩
  intro x hx y hy
  rw [List.mem_singleton.mp hy, hnew]
  exact hfresh x hx

end Arena.Distinct

theorem Store.Fresh.ne {s : Store} {p : Place} {name : String} (h : s.Fresh p name false) :
    ∀ x ∈ s.scopes.visible p.scope, s.arena.name? x ≠ some name := by
  intro x hx hname
  have hoverload := (h x hx hname).1
  contradiction

/-! ## Parameters -/

namespace ParamStep

variable {p : Place} {function id : DeclId} {s s' : Store} {params : List DeclId}

theorem id_eq (h : ParamStep p function s id s') : id = s.arena.size := by
  cases h
  rfl

theorem decl?_eq (h : ParamStep p function s id s') {x : DeclId} (hx : x < s.arena.size)
    (hne : x ≠ function) : s'.arena.decl? x = s.arena.decl? x := by
  cases h with
  | mk =>
      rw [Store.arena_revealed, Store.decl?_mapFunc, if_neg hne, Store.decl?_declared,
        if_neg (Nat.ne_of_lt hx)]

theorem exists_decl? (h : ParamStep p function s id s') (hlt : function < s.arena.size) :
    ∃ name ty, s'.arena.decl? id = some ⟨some name, some p.context, .var ty none⟩ ∧
      ∀ x ∈ s.scopes.visible p.scope, s.arena.name? x ≠ some name := by
  cases h with
  | @mk name ty hfresh =>
      refine ⟨name, ty, ?_, hfresh.ne⟩
      rw [Store.arena_revealed, Store.decl?_mapFunc, if_neg (Nat.ne_of_gt hlt),
        Store.decl?_declared, if_pos rfl]

theorem decl?_function (h : ParamStep p function s id s') {name : Option String}
    {parent : Option DeclId} {f : Func}
    (hd : s.arena.decl? function = some ⟨name, parent, .func f⟩) :
    s'.arena.decl? function =
      some ⟨name, parent, .func { f with params := f.params ++ [id] }⟩ := by
  cases h with
  | mk =>
      have hne := Nat.ne_of_lt (Arena.decl?_eq_some_lt hd)
      simp [Store.decl?_mapFunc, Store.decl?_declared, hne, hd, DeclKind.mapFunc]

theorem params_eq (h : Runs (ParamStep p function) s params s') :
    params = List.range' s.arena.size params.length := by
  induction h with
  | nil => rfl
  | cons hfirst _ ih =>
      rw [hfirst.size_eq] at ih
      rw [List.length_cons, List.range'_succ, ← ih, hfirst.id_eq]

theorem decl?_eq_all (h : Runs (ParamStep p function) s params s') {x : DeclId}
    (hx : x < s.arena.size) (hne : x ≠ function) : s'.arena.decl? x = s.arena.decl? x := by
  induction h with
  | nil => rfl
  | cons hfirst _ ih =>
      have hsize := hfirst.size_eq
      rw [ih (Nat.lt_of_lt_of_le hx (by omega)), hfirst.decl?_eq hx hne]

theorem exists_decl?_all (h : Runs (ParamStep p function) s params s')
    (hlt : function < s.arena.size) :
    ∀ x, s.arena.size ≤ x → x < s'.arena.size →
      ∃ name ty, s'.arena.decl? x = some ⟨some name, some p.context, .var ty none⟩ := by
  induction h with
  | nil =>
      intro x hle hx
      omega
  | @cons s s₁ s' id ids hfirst hrest ih =>
      intro x hle hx
      have hsize := hfirst.size_eq
      by_cases heq : x = s.arena.size
      · obtain ⟨name, ty, hd, -⟩ := hfirst.exists_decl? hlt
        have hold : s.arena.size < s₁.arena.size := by omega
        refine ⟨name, ty, ?_⟩
        rw [heq, decl?_eq_all hrest hold (Nat.ne_of_gt hlt), ← hfirst.id_eq, hd]
      · exact ih (hsize ▸ Nat.lt_succ_of_lt hlt) x (by omega) hx

theorem decl?_function_all (h : Runs (ParamStep p function) s params s')
    {name : Option String} {parent : Option DeclId} {f : Func}
    (hd : s.arena.decl? function = some ⟨name, parent, .func f⟩) :
    s'.arena.decl? function =
      some ⟨name, parent, .func { f with params := f.params ++ params }⟩ := by
  induction h generalizing f with
  | nil => simpa using hd
  | cons hfirst _ ih =>
      have hnext := ih (hfirst.decl?_function hd)
      simpa using hnext

theorem name?_eq (h : ParamStep p function s id s') {x : DeclId} (hx : x < s.arena.size) :
    s'.arena.name? x = s.arena.name? x := by
  cases h with
  | mk =>
      have hne : x ≠ s.arena.size := Nat.ne_of_lt hx
      simp only [Arena.name?, Store.arena_revealed, Store.decl?_mapFunc, Store.decl?_declared,
        if_neg hne]
      by_cases heq : x = function
      · rw [if_pos heq]
        cases s.arena.decl? x <;> rfl
      · rw [if_neg heq]

theorem name?_eq_all (h : Runs (ParamStep p function) s params s') {x : DeclId}
    (hx : x < s.arena.size) : s'.arena.name? x = s.arena.name? x := by
  induction h with
  | nil => rfl
  | cons hfirst _ ih =>
      have hsize := hfirst.size_eq
      rw [ih (Nat.lt_of_lt_of_le hx (by omega)), hfirst.name?_eq hx]

theorem distinct (h : ParamStep p function s id s') (hlt : function < s.arena.size)
    (hs : s.Bounded) (hp : p.scope < s.scopes.size)
    (hd : s.arena.Distinct (s.scopes.visible p.scope)) :
    s'.arena.Distinct (s'.scopes.visible p.scope) := by
  obtain ⟨name, ty, hdecl, hfresh⟩ := h.exists_decl? hlt
  have hnames : ∀ x ∈ s.scopes.visible p.scope, s'.arena.name? x = s.arena.name? x :=
    fun x hx => h.name?_eq (hs.scopes.visible_lt p.scope x hx)
  have hname := Arena.name?_of_decl? hdecl
  rw [(h.scopes_grows hp).visible_scope]
  refine (hd.congr hnames).append_one hname ?_
  intro x hx
  rw [hnames x hx]
  exact hfresh x hx

theorem distinct_all (h : Runs (ParamStep p function) s params s')
    (hlt : function < s.arena.size) (hs : s.Bounded) (hp : p.scope < s.scopes.size)
    (hd : s.arena.Distinct (s.scopes.visible p.scope)) :
    s'.arena.Distinct (s'.scopes.visible p.scope) := by
  induction h with
  | nil => exact hd
  | cons hfirst _ ih =>
      have hsize := hfirst.size_eq
      exact ih (hsize ▸ Nat.lt_succ_of_lt hlt) (hfirst.bounded hs hp)
        (Nat.lt_of_lt_of_le hp (hfirst.scopes_grows hp).size_le) (hfirst.distinct hlt hs hp hd)

end ParamStep

/-! ## Functions up to their bodies -/

/-- The end of an arena is a function without a body, followed by its parameters. -/
structure Arena.Signed (a : Arena) (context id : DeclId) (f : Func) : Prop where
  func : ∃ name, a.decl? id = some ⟨some name, some context, .func f⟩
  body_eq : f.body = none
  params_eq : f.params = List.range' (id + 1) f.arity
  size_eq : a.size = id + 1 + f.arity
  param : ∀ x, id < x → x < a.size →
    ∃ name ty, a.decl? x = some ⟨some name, some context, .var ty none⟩
  distinct : a.Distinct f.params

theorem Arena.Signed.func_eq {a : Arena} {context id : DeclId} {f : Func}
    (h : a.Signed context id f) : a.func id = .ok f := by
  obtain ⟨name, hd⟩ := h.func
  exact func_eq_ok_iff.mpr ⟨_, hd, rfl⟩

theorem Arena.Signed.eq_of_func {a : Arena} {context id : DeclId} {f g : Func}
    (h : a.Signed context id f) (hg : a.func id = .ok g) : g = f := by
  rw [h.func_eq] at hg
  exact (Except.ok.inj hg).symm

theorem ParamStep.decl?_prototype {p : Place} {s s₁ : Store} {name : String} {returnTy : Ty}
    {params : List DeclId}
    (h : Runs (ParamStep (p.inside s) s.arena.size)
      ((s.declared p name (.func (.prototype returnTy))).opened p) params s₁) :
    s₁.arena.decl? s.arena.size =
      some ⟨some name, some p.context, .func ⟨params, returnTy, none, none⟩⟩ :=
  ParamStep.decl?_function_all h
    (by rw [Store.arena_opened, Store.decl?_declared, if_pos rfl])

section Concluded

variable {p : Place} {s s₁ : Store} {previous : Option DeclId} {x : DeclId}

theorem Store.decl?_concluded_of_ne (hcontext : x ≠ p.context) (hfunction : x ≠ s.arena.size) :
    (s₁.concluded p s previous).arena.decl? x = s₁.arena.decl? x := by
  rw [concluded, Store.decl?_enlisted, if_neg hcontext]
  exact Store.decl?_linked_of_ne _ _ previous hfunction

theorem Store.decl?_concluded {name : Option String} {parent : Option DeclId}
    {params : List DeclId} {returnTy : Ty} (hcontext : p.context < s.arena.size)
    (h : s₁.arena.decl? s.arena.size =
      some ⟨name, parent, .func ⟨params, returnTy, none, none⟩⟩) :
    (s₁.concluded p s previous).arena.decl? s.arena.size =
      some ⟨name, parent, .func ⟨params, returnTy, none, previous⟩⟩ := by
  rw [concluded, Store.decl?_enlisted, if_neg (Nat.ne_of_gt hcontext)]
  cases previous with
  | none => exact h
  | some earlier =>
      refine (Store.decl?_mapFunc _ _ _ _).trans ?_
      rw [if_pos rfl, Store.arena_closed, h]
      rfl

theorem Store.varTy_concluded {ty : Ty} (h : s₁.arena.varTy x = .ok ty) :
    (s₁.concluded p s previous).arena.varTy x = .ok ty := by
  refine Arena.varTy_modifyKind ?_ p.context fun _ _ => rfl
  cases previous with
  | none => exact h
  | some earlier => exact Arena.varTy_modifyKind h s.arena.size fun _ _ => rfl

@[simp] theorem Store.size_concluded :
    (s₁.concluded p s previous).arena.size = s₁.arena.size := by
  simp [concluded]

end Concluded

theorem SignatureStep.exists_signed {p : Place} {s s' : Store} {id : DeclId}
    (h : SignatureStep p s id s') (hs : s.Bounded) (hp : p.scope < s.scopes.size)
    (hcontext : p.context < s.arena.size) :
    ∃ f, s'.arena.Signed p.context id f := by
  cases h with
  | @mk name returnTy params s₁ previous _ hparams _ =>
      have hsize := ParamStep.size_eq_all hparams
      have hids := ParamStep.params_eq hparams
      simp only [Store.arena_opened, Store.size_declared] at hsize hids
      have hlt : s.arena.size < ((s.declared p name
          (.func (.prototype returnTy))).opened p).arena.size := by simp
      have hrange : ∀ x ∈ params, x ≠ p.context ∧ x ≠ s.arena.size := by
        intro x hx
        rw [hids, List.mem_range'_1] at hx
        exact ⟨Nat.ne_of_gt (Nat.lt_of_lt_of_le hcontext (by omega)), Nat.ne_of_gt (by omega)⟩
      refine ⟨⟨params, returnTy, none, previous⟩, ⟨name, ?_⟩, rfl, hids, ?_, ?_, ?_⟩
      · exact Store.decl?_concluded hcontext (ParamStep.decl?_prototype hparams)
      · simpa [Func.arity] using hsize
      · intro x hgt hlt'
        have hx : x < s₁.arena.size := by simpa using hlt'
        rw [Store.decl?_concluded_of_ne (Nat.ne_of_gt (Nat.lt_trans hcontext hgt))
          (Nat.ne_of_gt hgt)]
        exact ParamStep.exists_decl?_all hparams hlt x (by simpa using Nat.succ_le_of_lt hgt) hx
      · have hinside := Place.inside_lt p (s.declared p name (.func (.prototype returnTy)))
        have hempty := (s.declared p name (.func (.prototype returnTy))).visible_opened p
        have hvisible := (hparams.scopes_grows ParamStep.scopes_grows hinside).visible_scope
        have hd := ParamStep.distinct_all hparams hlt (hs.enterParams hp name returnTy) hinside
        simp only [Place.inside, Store.scopes_declared] at hvisible hd hempty
        rw [hvisible, hempty, List.nil_append] at hd
        refine (hd List.Pairwise.nil).congr ?_
        intro x hx
        unfold Arena.name?
        rw [Store.decl?_concluded_of_ne (hrange x hx).1 (hrange x hx).2]

end UnitAnalysis
