import Mathlib.Data.List.Induction
import UnitAnalysis.Proofs.Acceptance
import UnitAnalysis.Proofs.Invariant
import UnitAnalysis.Proofs.Parts

/-!
# Redeclarations

Only functions share a name within a context.  The declarations of one function
form a chain that goes back through the members of the context, and at most one
of them has a body.  Inside functions all names of a block differ.  Main
statement: `oneDefinition_of_analyze`.
-/

namespace UnitAnalysis

/-! ## Accepted declarations -/

/-- Two declarations declare one function: their names and parameter types agree. -/
def Arena.repeats (a : Arena) (x y : DeclId) : Bool :=
  a.name? x == a.name? y &&
    match a.paramTys x, a.paramTys y with
    | .ok xs, .ok ys => Ty.sameAll xs ys
    | _, _ => false

def Arena.HasBody (a : Arena) (id : DeclId) : Prop :=
  ∃ f, a.func id = .ok f ∧ f.isDefinition = true

/-- The members of one context. -/
structure Arena.ContextFormed (a : Arena) (members : List DeclId) : Prop where
  increasing : members.Pairwise (· < ·)
  overloads : ∀ {x y}, x ∈ members → y ∈ members → x ≠ y → a.name? x = a.name? y →
    ∃ f g, a.func x = .ok f ∧ a.func y = .ok g ∧
      (a.repeats x y = true → f.returnTy.same g.returnTy = true)
  previous : ∀ {before id after f}, members = before ++ id :: after → a.func id = .ok f →
    f.previous = (before.filter (a.repeats · id)).getLast?
  previous_lt : ∀ {id f earlier}, id ∈ members → a.func id = .ok f →
    f.previous = some earlier → earlier ∈ members ∧ earlier < id
  first : ∀ {id f}, id ∈ members → a.func id = .ok f →
    ∃ first g, (members.filter (a.repeats · id)).head? = some first ∧
      a.firstDeclaration id = .ok first ∧ a.func first = .ok g ∧ g.previous = none
  bodies : ∀ {x y}, x ∈ members → y ∈ members → a.repeats x y = true → a.HasBody x →
    a.HasBody y → x = y

/-- The parameters of a function and the variables that its blocks introduce. -/
structure Arena.BlocksFormed (a : Arena) (f : Func) : Prop where
  body : a.Distinct (f.params ++ Stmt.introduced (f.body.getD []))
  nested : ∀ {block}, block ∈ Stmt.blocksAll (f.body.getD []) → a.Distinct (Stmt.introduced block)

structure Arena.OneDefinition (a : Arena) : Prop where
  contexts : ∀ {context members}, a.members? context = some members → a.ContextFormed members
  functions : ∀ {id f}, a.func id = .ok f → a.BlocksFormed f

/-! ## Declarations of one function -/

namespace Ty

theorem sameAll_comm (ss ts : List Ty) : sameAll ss ts = sameAll ts ss := by
  induction ss generalizing ts with
  | nil => cases ts <;> rfl
  | cons s ss ih =>
      cases ts with
      | nil => rfl
      | cons t ts => rw [sameAll, sameAll, same_comm, ih]

theorem sameAll_trans {ss ts us : List Ty} (hst : sameAll ss ts = true)
    (htu : sameAll ts us = true) : sameAll ss us = true := by
  induction ss generalizing ts us with
  | nil => cases ts <;> cases us <;> simp_all [sameAll]
  | cons s ss ih =>
      cases ts <;> cases us <;>
        simp only [sameAll, Bool.and_eq_true, Bool.false_eq_true] at hst htu ⊢
      exact ⟨same_trans hst.1 htu.1, ih hst.2 htu.2⟩

theorem sameAll_refl (ts : List Ty) : sameAll ts ts = true := by
  induction ts with
  | nil => rfl
  | cons t ts ih => simp [sameAll, ih]

end Ty

namespace Arena

variable {a b : Arena} {x y z : DeclId}

theorem repeats_iff : a.repeats x y = true ↔ a.name? x = a.name? y ∧
    ∃ xs ys, a.paramTys x = .ok xs ∧ a.paramTys y = .ok ys ∧ Ty.sameAll xs ys = true := by
  unfold repeats
  cases a.paramTys x <;> cases a.paramTys y <;> simp

theorem repeats_comm (a : Arena) (x y : DeclId) : a.repeats x y = a.repeats y x := by
  have hswap : ∀ {x y}, a.repeats x y = true → a.repeats y x = true := by
    intro x y h
    obtain ⟨hname, xs, ys, hx, hy, hsame⟩ := repeats_iff.mp h
    exact repeats_iff.mpr ⟨hname.symm, ys, xs, hy, hx, by rw [Ty.sameAll_comm, hsame]⟩
  exact Bool.eq_iff_iff.mpr ⟨hswap, hswap⟩

theorem repeats_trans (hxy : a.repeats x y = true) (hyz : a.repeats y z = true) :
    a.repeats x z = true := by
  obtain ⟨hname, xs, ys, hx, hy, hsame⟩ := repeats_iff.mp hxy
  obtain ⟨hname', ys', zs, hy', hz, hsame'⟩ := repeats_iff.mp hyz
  obtain rfl := Except.ok.inj (hy.symm.trans hy')
  exact repeats_iff.mpr ⟨hname.trans hname', xs, zs, hx, hz, Ty.sameAll_trans hsame hsame'⟩

theorem repeats_eq_of_repeats (h : a.repeats x y = true) (z : DeclId) :
    a.repeats z x = a.repeats z y := by
  refine Bool.eq_iff_iff.mpr ⟨fun hz => repeats_trans hz h, fun hz => repeats_trans hz ?_⟩
  rw [repeats_comm]
  exact h

theorem mapM_varTy_eq_ok {params : List DeclId}
    (h : ∀ param ∈ params, ∃ ty, a.varTy param = .ok ty) :
    ∃ tys, params.mapM a.varTy = .ok tys := by
  induction params with
  | nil => exact ⟨[], rfl⟩
  | cons param params ih =>
      obtain ⟨ty, hty⟩ := h param List.mem_cons_self
      obtain ⟨tys, htys⟩ := ih fun x hx => h x (List.mem_cons_of_mem _ hx)
      exact ⟨ty :: tys, by simp [List.mapM_cons, hty, htys]⟩

theorem Bounded.exists_paramTys (h : a.Bounded) {f : Func} (hf : a.func x = .ok f) :
    ∃ tys, a.paramTys x = .ok tys := by
  obtain ⟨tys, htys⟩ := mapM_varTy_eq_ok (h.params_var hf)
  exact ⟨tys, by simp [paramTys, hf, htys]⟩

theorem Bounded.repeats_self (h : a.Bounded) {f : Func} (hf : a.func x = .ok f) :
    a.repeats x x = true := by
  obtain ⟨tys, htys⟩ := h.exists_paramTys hf
  exact repeats_iff.mpr ⟨rfl, tys, tys, htys, htys, Ty.sameAll_refl tys⟩

theorem mapM_varTy_mono {params : List DeclId} {tys : List Ty}
    (hmono : ∀ {param ty}, a.varTy param = .ok ty → b.varTy param = .ok ty)
    (h : params.mapM a.varTy = .ok tys) : params.mapM b.varTy = .ok tys := by
  induction params generalizing tys with
  | nil => exact h
  | cons param params ih =>
      simp only [List.mapM_cons, Check.bind_eq_ok, Check.pure_eq_ok] at h ⊢
      obtain ⟨ty, hty, tys, htys, rfl⟩ := h
      exact ⟨ty, hmono hty, tys, ih htys, rfl⟩

theorem paramTys_mono {f g : Func} (hf : a.func x = .ok f) (hg : b.func x = .ok g)
    (hparams : g.params = f.params)
    (hmono : ∀ {param ty}, a.varTy param = .ok ty → b.varTy param = .ok ty)
    {tys : List Ty} (h : a.paramTys x = .ok tys) : b.paramTys x = .ok tys := by
  simp only [paramTys, hf, hg, Check.bind_eq_ok, Except.ok.injEq] at h ⊢
  obtain ⟨_, rfl, h⟩ := h
  exact ⟨_, rfl, hparams ▸ mapM_varTy_mono hmono h⟩

theorem func_of_paramTys {tys : List Ty} (h : a.paramTys x = .ok tys) :
    ∃ f, a.func x = .ok f := by
  simp only [paramTys, Check.bind_eq_ok] at h
  obtain ⟨f, hf, -⟩ := h
  exact ⟨f, hf⟩

theorem Keeps.paramTys_eq_ok (h : a.Keeps b) {tys : List Ty} (htys : a.paramTys x = .ok tys) :
    b.paramTys x = .ok tys := by
  obtain ⟨f, hf⟩ := func_of_paramTys htys
  obtain ⟨body, hg⟩ := h.func_eq_ok hf
  exact paramTys_mono hf hg rfl h.varTy_eq_ok htys

theorem Keeps.paramTys_of_paramTys (h : a.Keeps b) (ha : a.Bounded) (hx : x < a.size)
    {tys : List Ty} (htys : b.paramTys x = .ok tys) : a.paramTys x = .ok tys := by
  obtain ⟨g, hg⟩ := func_of_paramTys htys
  obtain ⟨f, hf, -⟩ := h.func_of_func hx hg
  obtain ⟨old, hold⟩ := ha.exists_paramTys hf
  rw [h.paramTys_eq_ok hold] at htys
  rw [hold, htys]

theorem Keeps.repeats_eq (h : a.Keeps b) (ha : a.Bounded) (hx : x < a.size) (hy : y < a.size) :
    b.repeats x y = a.repeats x y := by
  rw [Bool.eq_iff_iff, repeats_iff, repeats_iff, h.name?_eq hx, h.name?_eq hy]
  constructor
  · rintro ⟨hname, xs, ys, hxs, hys, hsame⟩
    exact ⟨hname, xs, ys, h.paramTys_of_paramTys ha hx hxs, h.paramTys_of_paramTys ha hy hys, hsame⟩
  · rintro ⟨hname, xs, ys, hxs, hys, hsame⟩
    exact ⟨hname, xs, ys, h.paramTys_eq_ok hxs, h.paramTys_eq_ok hys, hsame⟩

/-! ## Chains -/

/-- A declaration of a function and all that lead to it, from the first one on. -/
inductive Chain (a : Arena) : DeclId → List DeclId → Prop where
  | first {id : DeclId} {f : Func} (hf : a.func id = .ok f) (hprevious : f.previous = none) :
      Chain a id [id]
  | again {id earlier : DeclId} {f : Func} {ids : List DeclId} (hf : a.func id = .ok f)
      (hprevious : f.previous = some earlier) (hchain : Chain a earlier ids) :
      Chain a id (ids ++ [id])

namespace Chain

variable {id : DeclId} {ids : List DeclId} {steps : Nat}

theorem firstWithin (h : a.Chain id ids) (ha : a.Bounded) (hid : id < steps) :
    ∃ first, ids.head? = some first ∧ a.firstWithin steps id = .ok first := by
  induction h generalizing steps with
  | first hf hprevious =>
      obtain ⟨steps, rfl⟩ := Nat.exists_eq_succ_of_ne_zero (Nat.ne_of_gt (Nat.zero_lt_of_lt hid))
      exact ⟨_, rfl, by rw [firstWithin_succ hf, hprevious]⟩
  | again hf hprevious _ ih =>
      obtain ⟨steps, rfl⟩ := Nat.exists_eq_succ_of_ne_zero (Nat.ne_of_gt (Nat.zero_lt_of_lt hid))
      have hlt := Nat.lt_of_lt_of_le (ha.previous_lt hf hprevious) (Nat.le_of_lt_succ hid)
      obtain ⟨first, hhead, hfirst⟩ := ih hlt
      refine ⟨first, by simp [List.head?_append, hhead], ?_⟩
      rw [firstWithin_succ hf, hprevious]
      exact hfirst

theorem not_hasBody (h : a.Chain id ids) (ha : a.Bounded) (hid : id < steps)
    (hdefined : a.definedWithin steps id = .ok false) : ∀ x ∈ ids, ¬ a.HasBody x := by
  have hself : ∀ {id f}, a.func id = .ok f → ¬ f.isDefinition = true → ¬ a.HasBody id := by
    rintro id f hf hbody ⟨g, hg, hdefinition⟩
    rw [hf] at hg
    cases hg
    exact hbody hdefinition
  induction h generalizing steps with
  | first hf hprevious =>
      obtain ⟨steps, rfl⟩ := Nat.exists_eq_succ_of_ne_zero (Nat.ne_of_gt (Nat.zero_lt_of_lt hid))
      rw [definedWithin_succ hf] at hdefined
      split at hdefined
      · cases hdefined
      · rename_i hbody
        intro x hx
        rw [List.mem_singleton.mp hx]
        exact hself hf hbody
  | again hf hprevious _ ih =>
      obtain ⟨steps, rfl⟩ := Nat.exists_eq_succ_of_ne_zero (Nat.ne_of_gt (Nat.zero_lt_of_lt hid))
      have hlt := Nat.lt_of_lt_of_le (ha.previous_lt hf hprevious) (Nat.le_of_lt_succ hid)
      rw [definedWithin_succ hf, hprevious] at hdefined
      split at hdefined
      · cases hdefined
      · rename_i hbody
        intro x hx
        rcases List.mem_append.mp hx with hx | hx
        · exact ih hlt hdefined x hx
        · rw [List.mem_singleton.mp hx]
          exact hself hf hbody

end Chain

/-! ## Members of a context -/

/-- What a member of a context has to do with the members before it. -/
structure EntryFormed (a : Arena) (before : List DeclId) (id : DeclId) : Prop where
  lt : ∀ x ∈ before, x < id
  overloads : ∀ x ∈ before, a.name? x = a.name? id →
    ∃ f g, a.func x = .ok f ∧ a.func id = .ok g ∧
      (a.repeats x id = true → f.returnTy.same g.returnTy = true)
  previous : ∀ {f}, a.func id = .ok f → f.previous = (before.filter (a.repeats · id)).getLast?
  bodies : ∀ x ∈ before, a.repeats x id = true → a.HasBody id → ¬ a.HasBody x

def Formed (a : Arena) (members : List DeclId) : Prop :=
  ∀ before id after, members = before ++ id :: after → a.EntryFormed before id

theorem EntryFormed.keeps {before : List DeclId} {id : DeclId} (h : a.EntryFormed before id)
    (hkeeps : a.Keeps b) (ha : a.Bounded) (hid : id < a.size)
    (hbodies : ∀ x ∈ before, b.repeats x id = true → b.HasBody id → ¬ b.HasBody x) :
    b.EntryFormed before id := by
  have hlt : ∀ x ∈ before, x < a.size := fun x hx => Nat.lt_trans (h.lt x hx) hid
  have hrepeats : ∀ x ∈ before, b.repeats x id = a.repeats x id :=
    fun x hx => hkeeps.repeats_eq ha (hlt x hx) hid
  refine ⟨h.lt, ?_, ?_, hbodies⟩
  · intro x hx hname
    rw [hkeeps.name?_eq (hlt x hx), hkeeps.name?_eq hid] at hname
    obtain ⟨f, g, hf, hg, hsame⟩ := h.overloads x hx hname
    obtain ⟨_, hf'⟩ := hkeeps.func_eq_ok hf
    obtain ⟨_, hg'⟩ := hkeeps.func_eq_ok hg
    exact ⟨_, _, hf', hg', fun hrepeat => hsame (hrepeats x hx ▸ hrepeat)⟩
  · intro g hg
    obtain ⟨f, hf, heq⟩ := hkeeps.func_of_func hid hg
    have hprevious : g.previous = f.previous := by rw [heq]
    rw [hprevious, List.filter_congr hrepeats]
    exact h.previous hf

theorem Grows.hasBody_iff {context id : DeclId} {ids : List DeclId} (h : a.Grows b context ids)
    (hid : id < a.size) : b.HasBody id ↔ a.HasBody id := by
  unfold HasBody
  rw [h.func_eq hid]

theorem EntryFormed.grows {before ids : List DeclId} {id context : DeclId}
    (h : a.EntryFormed before id) (hgrows : a.Grows b context ids) (ha : a.Bounded)
    (hid : id < a.size) : b.EntryFormed before id := by
  refine h.keeps hgrows.keeps ha hid ?_
  intro x hx hrepeats
  have hlt : x < a.size := Nat.lt_trans (h.lt x hx) hid
  rw [hgrows.hasBody_iff hid, hgrows.hasBody_iff hlt]
  rw [hgrows.keeps.repeats_eq ha hlt hid] at hrepeats
  exact h.bodies x hx hrepeats

namespace Formed

variable {members : List DeclId}

theorem nil : a.Formed [] := by
  intro before id after heq
  simp at heq

theorem append_one {id : DeclId} (h : a.Formed members) (hid : a.EntryFormed members id) :
    a.Formed (members ++ [id]) := by
  intro before x after heq
  rcases List.eq_nil_or_concat after with rfl | ⟨after, last, rfl⟩
  · obtain ⟨rfl, hlast⟩ := List.append_inj' heq rfl
    cases hlast
    exact hid
  · rw [List.concat_eq_append, ← List.cons_append, ← List.append_assoc] at heq
    obtain ⟨heq, -⟩ := List.append_inj' heq rfl
    exact h _ _ _ heq

theorem grows {context : DeclId} {ids : List DeclId} (h : a.Formed members)
    (hgrows : a.Grows b context ids) (ha : a.Bounded) (hlt : ∀ x ∈ members, x < a.size) :
    b.Formed members := by
  intro before id after heq
  exact (h _ _ _ heq).grows hgrows ha (hlt id (by simp [heq]))

theorem chain (h : a.Formed members) {before after : List DeclId} {id : DeclId} {f : Func}
    (heq : members = before ++ id :: after) (hf : a.func id = .ok f) :
    a.Chain id (before.filter (a.repeats · id) ++ [id]) := by
  -- By induction on the members before: the previous declaration has fewer of them.
  induction hlength : before.length using Nat.strongRecOn generalizing before id after f with
  | ind n ih =>
      subst hlength
      have hprevious := (h _ _ _ heq).previous hf
      cases hlast : (before.filter (a.repeats · id)).getLast? with
      | none =>
          rw [List.getLast?_eq_none_iff] at hlast
          rw [hlast] at hprevious ⊢
          exact .first hf hprevious
      | some earlier =>
          rw [hlast] at hprevious
          obtain ⟨front, hfront⟩ := List.getLast?_eq_some_iff.mp hlast
          obtain ⟨before₁, before₂, rfl, hfront₁, hrest⟩ := List.filter_eq_append_iff.mp hfront
          obtain ⟨skipped, after₁, rfl, hskipped, hrepeats, hafter₁⟩ :=
            List.filter_eq_cons_iff.mp hrest
          have hsplit : members = (before₁ ++ skipped) ++ earlier :: (after₁ ++ id :: after) := by
            simpa using heq
          have hsame : (before₁ ++ skipped).filter (a.repeats · earlier) = front := by
            simp only [repeats_eq_of_repeats hrepeats]
            rw [List.filter_append, hfront₁, List.filter_eq_nil_iff.mpr hskipped, List.append_nil]
          obtain ⟨-, tys, -, htys, -⟩ := repeats_iff.mp hrepeats
          obtain ⟨g, hg⟩ := func_of_paramTys htys
          have hchain := ih _ (by simp) hsplit hg rfl
          rw [hsame] at hchain
          rw [hfront]
          exact .again hf hprevious hchain

theorem increasing (h : a.Formed members) : members.Pairwise (· < ·) := by
  induction members using List.reverseRecOn with
  | nil => exact .nil
  | append_singleton members last ih =>
      have hinit : a.Formed members := by
        intro before id after heq
        exact h before id (after ++ [last]) (by simp [heq])
      refine List.pairwise_append.mpr ⟨ih hinit, List.pairwise_singleton _ _, ?_⟩
      intro x hx y hy
      rw [List.mem_singleton.mp hy]
      exact (h members last [] rfl).lt x hx

theorem entry_or_entry (h : a.Formed members) (hx : x ∈ members) (hy : y ∈ members)
    (hne : x ≠ y) : (∃ before, x ∈ before ∧ a.EntryFormed before y) ∨
      ∃ before, y ∈ before ∧ a.EntryFormed before x := by
  obtain ⟨before, after, heq⟩ := List.append_of_mem hy
  rw [heq, List.mem_append, List.mem_cons] at hx
  rcases hx with hx | hx | hx
  · exact .inl ⟨before, hx, h _ _ _ heq⟩
  · contradiction
  · obtain ⟨after₁, after₂, rfl⟩ := List.append_of_mem hx
    exact .inr ⟨before ++ y :: after₁, by simp, h _ x after₂ (by simp [heq])⟩

theorem overloads (h : a.Formed members) (hx : x ∈ members) (hy : y ∈ members) (hne : x ≠ y)
    (hname : a.name? x = a.name? y) :
    ∃ f g, a.func x = .ok f ∧ a.func y = .ok g ∧
      (a.repeats x y = true → f.returnTy.same g.returnTy = true) := by
  rcases h.entry_or_entry hx hy hne with ⟨before, hmem, hentry⟩ | ⟨before, hmem, hentry⟩
  · exact hentry.overloads x hmem hname
  · obtain ⟨g, f, hg, hf, hsame⟩ := hentry.overloads y hmem hname.symm
    refine ⟨f, g, hf, hg, ?_⟩
    intro hrepeats
    rw [Ty.same_comm]
    rw [repeats_comm] at hrepeats
    exact hsame hrepeats

theorem bodies (h : a.Formed members) (hx : x ∈ members) (hy : y ∈ members)
    (hrepeats : a.repeats x y = true) (hxbody : a.HasBody x) (hybody : a.HasBody y) :
    x = y := by
  by_contra hne
  rcases h.entry_or_entry hx hy hne with ⟨before, hmem, hentry⟩ | ⟨before, hmem, hentry⟩
  · exact hentry.bodies x hmem hrepeats hybody hxbody
  · rw [repeats_comm] at hrepeats
    exact hentry.bodies y hmem hrepeats hxbody hybody

theorem first (h : a.Formed members) (ha : a.Bounded) {id : DeclId} {f : Func}
    (hid : id ∈ members) (hf : a.func id = .ok f) :
    ∃ first g, (members.filter (a.repeats · id)).head? = some first ∧
      a.firstDeclaration id = .ok first ∧ a.func first = .ok g ∧ g.previous = none := by
  obtain ⟨before, after, heq⟩ := List.append_of_mem hid
  obtain ⟨d, hd, -⟩ := func_eq_ok_iff.mp hf
  obtain ⟨first, hhead, hfirst⟩ := (h.chain heq hf).firstWithin ha (decl?_eq_some_lt hd)
  obtain ⟨g, hg, hprevious⟩ := ha.previous_eq_none_of_firstWithin (decl?_eq_some_lt hd) hfirst
  refine ⟨first, g, ?_, hfirst, hg, hprevious⟩
  have hself : (id :: after).filter (a.repeats · id) = id :: after.filter (a.repeats · id) := by
    rw [List.filter_cons, if_pos (ha.repeats_self hf)]
  rw [heq, List.filter_append, hself, ← hhead]
  cases before.filter (a.repeats · id) <;> rfl

theorem contextFormed (h : a.Formed members) (ha : a.Bounded) : a.ContextFormed members where
  increasing := h.increasing
  overloads := h.overloads
  previous heq hf := (h _ _ _ heq).previous hf
  previous_lt {id f earlier} hid hf hprevious := by
    obtain ⟨before, after, heq⟩ := List.append_of_mem hid
    rw [(h _ _ _ heq).previous hf] at hprevious
    have hmem := (List.mem_filter.mp (List.mem_of_getLast? hprevious)).1
    exact ⟨by simp [heq, hmem], (h _ _ _ heq).lt earlier hmem⟩
  first := h.first ha
  bodies := h.bodies

end Formed

end Arena

/-! ## Comparing a function with the others of its name -/

structure Store.Compared (s : Store) (function other : DeclId) (same : Bool) : Prop where
  paramTys : ∃ xs ys, s.arena.paramTys other = .ok xs ∧ s.arena.paramTys function = .ok ys ∧
    same = Ty.sameAll xs ys
  returnTy : ∀ {f g}, s.arena.func other = .ok f → s.arena.func function = .ok g → same = true →
    f.returnTy.same g.returnTy = true

theorem Store.compared_of_redeclares {s : Store} {name : String} {function other : DeclId}
    {same : Bool} (hne : other ≠ function) (h : s.redeclares name function other = .ok same) :
    s.Compared function other same := by
  unfold redeclares at h
  rw [if_neg hne] at h
  simp only [Check.bind_eq_ok] at h
  obtain ⟨xs, hxs, ys, hys, h⟩ := h
  split at h
  · rename_i hdiffer
    cases h
    refine ⟨⟨xs, ys, hxs, hys, by simpa using hdiffer⟩, ?_⟩
    intro f g _ _ hsame
    contradiction
  · rename_i hsame
    simp only [Check.bind_eq_ok] at h
    obtain ⟨f, hf, g, hg, h⟩ := h
    split at h
    · cases h
    · rename_i hreturn
      cases h
      refine ⟨⟨xs, ys, hxs, hys, by simpa using hsame⟩, ?_⟩
      intro f' g' hf' hg' _
      obtain rfl := Except.ok.inj (hf.symm.trans hf')
      obtain rfl := Except.ok.inj (hg.symm.trans hg')
      simpa using hreturn

/--
The last function that is repeated, given a test that answers as the comparisons
do.
-/
theorem Store.previous?_spec {s : Store} {name : String} {function : DeclId}
    {others : List DeclId} {last previous : Option DeclId} {test : DeclId → Bool}
    (hne : ∀ x ∈ others, x ≠ function)
    (htest : ∀ x ∈ others, ∀ {same}, s.Compared function x same → test x = same)
    (h : s.previous? name function last others = .ok previous) :
    previous = (others.filter test).getLast?.or last ∧
      ∀ x ∈ others, s.Compared function x (test x) := by
  induction others generalizing last with
  | nil =>
      cases h
      exact ⟨rfl, by simp⟩
  | cons other others ih =>
      simp only [previous?, Check.bind_eq_ok] at h
      obtain ⟨same, hsame, h⟩ := h
      have hcompared := compared_of_redeclares (hne other List.mem_cons_self) hsame
      have heq : test other = same := htest other List.mem_cons_self hcompared
      have hrest : ∀ {last}, s.previous? name function last others = .ok previous →
          previous = (others.filter test).getLast?.or last ∧
            ∀ x ∈ others, s.Compared function x (test x) :=
        ih (fun x hx => hne x (List.mem_cons_of_mem _ hx))
          fun x hx _ => htest x (List.mem_cons_of_mem _ hx)
      have hall : (∀ x ∈ others, s.Compared function x (test x)) →
          ∀ x ∈ other :: others, s.Compared function x (test x) := by
        intro hothers x hx
        rcases List.mem_cons.mp hx with rfl | hx
        · rw [heq]
          exact hcompared
        · exact hothers x hx
      split at h
      · rename_i htrue
        obtain ⟨hlast, hothers⟩ := hrest h
        refine ⟨?_, hall hothers⟩
        rw [hlast, List.filter_cons, if_pos (heq.trans htrue), List.getLast?_cons]
        cases (others.filter test).getLast? <;> rfl
      · rename_i hfalse
        obtain ⟨hlast, hothers⟩ := hrest h
        refine ⟨?_, hall hothers⟩
        rw [hlast, List.filter_cons, if_neg (by simpa [heq] using hfalse)]

/-! ## Steps -/

theorem ScopeTree.matchesDecl_function_iff {a : Arena} {name : String} {id : DeclId} :
    matchesDecl a name .function id = true ↔
      a.name? id = some name ∧ a.sort? id = some .func := by
  cases hsort : a.sort? id with
  | none => simp [matchesDecl, hsort]
  | some sort => cases sort <;> simp [matchesDecl, hsort, Selector.accepts]

section Concluded

variable {p : Place} {s s₁ : Store} {name : String} {returnTy : Ty} {params : List DeclId}
variable (previous : Option DeclId) {x : DeclId}

theorem Store.func_concluded (hs : s.Between p)
    (hparams : Runs (ParamStep (p.inside s) s.arena.size)
      ((s.declared p name (.func (.prototype returnTy))).opened p) params s₁) :
    (s₁.concluded p s previous).arena.func s.arena.size =
      .ok ⟨params, returnTy, none, previous⟩ :=
  Arena.func_eq_ok_iff.mpr
    ⟨_, Store.decl?_concluded hs.context_lt (ParamStep.decl?_prototype hparams), rfl⟩

theorem Store.name?_concluded (hs : s.Between p)
    (hparams : Runs (ParamStep (p.inside s) s.arena.size)
      ((s.declared p name (.func (.prototype returnTy))).opened p) params s₁) :
    (s₁.concluded p s previous).arena.name? s.arena.size = some name :=
  Arena.name?_of_decl? (Store.decl?_concluded hs.context_lt (ParamStep.decl?_prototype hparams))

theorem Store.func_concluded_of_lt (hs : s.Between p)
    (hparams : Runs (ParamStep (p.inside s) s.arena.size)
      ((s.declared p name (.func (.prototype returnTy))).opened p) params s₁)
    (hgrows : s.Grows (s₁.concluded p s previous) p [s.arena.size] [s.arena.size])
    (hx : x < s.arena.size) : (s₁.concluded p s previous).arena.func x = s₁.arena.func x := by
  have hbefore := ParamStep.grows_closed hparams hs.scope_lt
  rw [hgrows.arena.func_eq hx, ← hbefore.arena.func_eq hx, Store.arena_closed]

theorem Store.paramTys_concluded (hs : s.Between p)
    (hparams : Runs (ParamStep (p.inside s) s.arena.size)
      ((s.declared p name (.func (.prototype returnTy))).opened p) params s₁)
    (hgrows : s.Grows (s₁.concluded p s previous) p [s.arena.size] [s.arena.size])
    (hx : x ≤ s.arena.size) {tys : List Ty} (h : s₁.arena.paramTys x = .ok tys) :
    (s₁.concluded p s previous).arena.paramTys x = .ok tys := by
  obtain ⟨f, hf⟩ := Arena.func_of_paramTys h
  have hmono : ∀ {param ty}, s₁.arena.varTy param = .ok ty →
      (s₁.concluded p s previous).arena.varTy param = .ok ty := Store.varTy_concluded
  rcases Nat.eq_or_lt_of_le hx with rfl | hlt
  · have hprototype := Arena.func_eq_ok_iff.mpr ⟨_, ParamStep.decl?_prototype hparams, rfl⟩
    exact Arena.paramTys_mono hprototype (Store.func_concluded previous hs hparams) rfl hmono h
  · have hfunc := Store.func_concluded_of_lt previous hs hparams hgrows hlt
    exact Arena.paramTys_mono hf (hfunc.trans hf) rfl hmono h

/-- The comparisons at the end of a parameter list tell the repetitions apart. -/
theorem Store.repeats_concluded (hs : s.Between p)
    (hparams : Runs (ParamStep (p.inside s) s.arena.size)
      ((s.declared p name (.func (.prototype returnTy))).opened p) params s₁)
    (hgrows : s.Grows (s₁.concluded p s previous) p [s.arena.size] [s.arena.size])
    (hx : x < s.arena.size) (hname : s.arena.name? x = some name) {same : Bool}
    (h : (s₁.closed s.scopes.size).Compared s.arena.size x same) :
    (s₁.concluded p s previous).arena.repeats x s.arena.size = same := by
  obtain ⟨xs, ys, hxs, hys, rfl⟩ := h.paramTys
  have hxs' := Store.paramTys_concluded previous hs hparams hgrows (Nat.le_of_lt hx) hxs
  have hys' := Store.paramTys_concluded previous hs hparams hgrows (Nat.le_refl _) hys
  have hname' := Store.name?_concluded previous hs hparams
  have hold := (hgrows.arena.keeps.name?_eq hx).trans hname
  simp [Arena.repeats, hxs', hys', hold, hname']

/-- The candidates of a new function are the members of its name: they are all functions. -/
theorem Store.candidates_of_fresh (hs : s.Between p) (hfresh : s.Fresh p name true)
    (hparams : Runs (ParamStep (p.inside s) s.arena.size)
      ((s.declared p name (.func (.prototype returnTy))).opened p) params s₁) :
    (s₁.closed s.scopes.size).scopes.lookupLocal s₁.arena p.scope name .function =
      (s.scopes.visible p.scope).filter (s.arena.name? · == some name) := by
  have hbefore := ParamStep.grows_closed hparams hs.scope_lt
  rw [ScopeTree.lookupLocal, hbefore.scopes.visible_scope, List.append_nil]
  refine List.filter_congr ?_
  intro x hx
  have hlt := hs.bounded.scopes.visible_lt p.scope x hx
  have hname := hbefore.arena.keeps.name?_eq hlt
  have hsort := hbefore.arena.keeps.sort?_eq hlt
  rw [Store.arena_closed] at hname hsort
  rw [Bool.eq_iff_iff, ScopeTree.matchesDecl_function_iff, beq_iff_eq, hname, hsort]
  exact ⟨fun h => h.1, fun h => ⟨h, (hfresh x hx h).2⟩⟩

end Concluded

theorem SignatureStep.entryFormed {p : Place} {s s' : Store} {id : DeclId}
    (h : SignatureStep p s id s') (hs : s.Between p) :
    s'.arena.EntryFormed (s.scopes.visible p.scope) id := by
  have hgrows := h.grows hs.scope_lt
  cases h with
  | @mk name returnTy params s₁ previous hfresh hparams hprevious =>
      have hfunc := Store.func_concluded previous hs hparams
      have hid := Store.name?_concluded previous hs hparams
      have hlt : ∀ x ∈ s.scopes.visible p.scope, x < s.arena.size :=
        hs.bounded.scopes.visible_lt p.scope
      rw [Store.candidates_of_fresh hs hfresh hparams] at hprevious
      obtain ⟨hlast, hcompared⟩ := Store.previous?_spec
        (fun x hx => Nat.ne_of_lt (hlt x (List.mem_filter.mp hx).1))
        (fun x hx _ => Store.repeats_concluded previous hs hparams hgrows
          (hlt x (List.mem_filter.mp hx).1) (by simpa using (List.mem_filter.mp hx).2))
        hprevious
      constructor
      · exact hlt
      · intro x hx hname
        rw [hid, hgrows.arena.keeps.name?_eq (hlt x hx)] at hname
        have hx' := hcompared x (List.mem_filter.mpr ⟨hx, by simpa using hname⟩)
        obtain ⟨xs, ys, hxs, -, -⟩ := hx'.paramTys
        obtain ⟨f, hf⟩ := Arena.func_of_paramTys hxs
        have hf' := Store.func_concluded_of_lt previous hs hparams hgrows (hlt x hx)
        have hprototype := Arena.func_eq_ok_iff.mpr ⟨_, ParamStep.decl?_prototype hparams, rfl⟩
        have hreturn := hx'.returnTy hf hprototype
        exact ⟨f, _, hf'.trans hf, hfunc, hreturn⟩
      · intro f hf
        obtain rfl := Except.ok.inj (hfunc.symm.trans hf)
        rw [Option.or_none, List.filter_filter] at hlast
        refine hlast.trans (congrArg List.getLast? (List.filter_congr ?_))
        intro x hx
        rw [Bool.and_eq_left_iff_imp]
        intro hrepeats
        have hname := (Arena.repeats_iff.mp hrepeats).1
        rw [hid, hgrows.arena.keeps.name?_eq (hlt x hx)] at hname
        simpa using hname
      · rintro x - - ⟨f, hf, hbody⟩
        obtain rfl := Except.ok.inj (hfunc.symm.trans hf)
        cases hbody

theorem FuncStep.entryFormed {p : Place} {s s' : Store} {id : DeclId} (h : FuncStep p s id s')
    (hs : s.Between p) (hformed : s.arena.Formed (s.scopes.visible p.scope)) :
    s'.arena.EntryFormed (s.scopes.visible p.scope) id := by
  cases h with
  | prototype hsignature => exact hsignature.entryFormed hs
  | @definition s₁ s₂ f body hsignature hdefined hfunc hbody =>
      have hgrows := hsignature.grows hs.scope_lt
      have hbounded := hsignature.bounded hs.bounded hs.scope_lt
      have hentry := hsignature.entryFormed hs
      have hinside := Place.inside_lt_revealedAll p s₁ f.params
      have hrun := (hbody.grows hinside).arena
      have hkeeps := hrun.keeps.trans (s₂.keeps_setBody id body)
      obtain ⟨d, hd, -⟩ := Arena.func_eq_ok_iff.mp hfunc
      have hid := Arena.decl?_eq_some_lt hd
      have hformed₁ := (hformed.grows hgrows.arena hs.bounded.arena
        (hs.bounded.scopes.visible_lt p.scope)).append_one hentry
      have hchain := hformed₁.chain rfl hfunc
      refine hentry.keeps hkeeps hbounded.arena hid ?_
      -- Whatever repeats the function is in its chain, and the chain has no body yet.
      intro x hx hrepeats _ hxbody
      have hne : x ≠ id := Nat.ne_of_lt (hentry.lt x hx)
      have hlt : x < s₁.arena.size := Nat.lt_trans (hentry.lt x hx) hid
      rw [Store.arena_closed, hkeeps.repeats_eq hbounded.arena hlt hid] at hrepeats
      refine hchain.not_hasBody hbounded.arena hid hdefined x ?_ ?_
      · exact List.mem_append_left _ (List.mem_filter.mpr ⟨hx, hrepeats⟩)
      · obtain ⟨g, hg, hdefinition⟩ := hxbody
        refine (hrun.hasBody_iff hlt).mp ⟨g, ?_, hdefinition⟩
        obtain ⟨d, hd, hkind⟩ := Arena.func_eq_ok_iff.mp hg
        rw [Store.arena_closed, Store.decl?_mapFunc, if_neg hne] at hd
        exact Arena.func_eq_ok_iff.mpr ⟨d, hd, hkind⟩

theorem Arena.EntryFormed.of_fresh {a : Arena} {before : List DeclId} {id : DeclId}
    (hlt : ∀ x ∈ before, x < id) (hname : ∀ x ∈ before, a.name? x ≠ a.name? id)
    (hfunc : ∀ f, a.func id ≠ .ok f) : a.EntryFormed before id where
  lt := hlt
  overloads x hx heq := absurd heq (hname x hx)
  previous hf := absurd hf (hfunc _)
  bodies x hx hrepeats := absurd (repeats_iff.mp hrepeats).1 (hname x hx)

theorem Store.Between.entryFormed {p : Place} {s s' : Store} {name : String} {kind : DeclKind}
    (hs : s.Between p) (hfresh : s.Fresh p name false) (hfunc : ∀ f, kind ≠ .func f)
    (hkeeps : s.arena.Keeps s'.arena)
    (hdecl : s'.arena.decl? s.arena.size = some ⟨some name, some p.context, kind⟩) :
    s'.arena.EntryFormed (s.scopes.visible p.scope) s.arena.size := by
  have hlt := hs.bounded.scopes.visible_lt p.scope
  refine .of_fresh hlt ?_ ?_
  · intro x hx
    rw [hkeeps.name?_eq (hlt x hx), Arena.name?_of_decl? hdecl]
    exact hfresh.ne x hx
  · intro f hf
    obtain ⟨d, hd, hkind⟩ := Arena.func_eq_ok_iff.mp hf
    obtain rfl := Option.some.inj (hdecl.symm.trans hd)
    exact hfunc f hkind

/-! ## Contexts -/

def Arena.AllFormed (a : Arena) : Prop :=
  ∀ ⦃context members⦄, a.members? context = some members → a.Formed members

/-- A step that adds one member and otherwise only contexts that are formed. -/
theorem Arena.AllFormed.step {p : Place} {s s' : Store} {id : DeclId} (h : s.arena.AllFormed)
    (hs : s.Between p) (hgrows : s.Grows s' p [id] [id])
    (hentry : s'.arena.EntryFormed (s.scopes.visible p.scope) id)
    (hnew : ∀ {context members}, s.arena.size ≤ context →
      s'.arena.members? context = some members → s'.arena.Formed members) :
    s'.arena.AllFormed := by
  intro context members hmembers
  by_cases hold : context < s.arena.size
  · by_cases heq : context = p.context
    · subst heq
      rw [hgrows.arena.members?_context hs.agrees] at hmembers
      cases hmembers
      exact ((h hs.agrees).grows hgrows.arena hs.bounded.arena
        (hs.bounded.scopes.visible_lt p.scope)).append_one hentry
    · obtain ⟨d, hd, hkind⟩ := members?_eq_some_iff.mp hmembers
      rw [hgrows.arena.decl?_eq_of_ne hold heq] at hd
      have hmembers' := members?_eq_some_iff.mpr ⟨d, hd, hkind⟩
      exact (h hmembers').grows hgrows.arena hs.bounded.arena
        (hs.bounded.arena.members_lt hmembers')
  · exact hnew (Nat.le_of_not_lt hold) hmembers

theorem FuncStep.members?_eq_none {p : Place} {s s' : Store} {id : DeclId}
    (h : FuncStep p s id s') (hs : s.Between p) :
    ∀ ⦃x members⦄, s.arena.size ≤ x → s'.arena.members? x ≠ some members := by
  have hsigned : ∀ {s₁ : Store}, SignatureStep p s id s₁ →
      ∀ ⦃x members⦄, s.arena.size ≤ x → s₁.arena.members? x ≠ some members := by
    intro s₁ hsignature x members hle hmembers
    obtain ⟨f, hf⟩ := hsignature.exists_signed hs.bounded hs.scope_lt hs.context_lt
    have hx := Arena.members?_eq_some_lt hmembers
    rw [← hsignature.id_eq] at hle
    rcases Nat.eq_or_lt_of_le hle with rfl | hgt
    · obtain ⟨name, hd⟩ := hf.func
      simp [Arena.members?_of_decl? hd, DeclKind.members?] at hmembers
    · obtain ⟨name, ty, hd⟩ := hf.param x hgt hx
      simp [Arena.members?_of_decl? hd, DeclKind.members?] at hmembers
  cases h with
  | prototype hsignature => exact hsigned hsignature
  | @definition s₁ s₂ f body hsignature _ _ hbody =>
      intro x members hle hmembers
      have hinside := Place.inside_lt_revealedAll p s₁ f.params
      have hmembers₂ : s₂.arena.members? x = some members := by
        obtain ⟨d, hd, hkind⟩ := Arena.members?_eq_some_iff.mp hmembers
        rw [Store.arena_closed, Store.decl?_mapFunc] at hd
        split at hd
        · obtain ⟨d₀, hd₀, rfl⟩ := Option.map_eq_some_iff.mp hd
          rw [Arena.members?_of_decl? hd₀, ← hkind]
          cases d₀.kind <;> rfl
        · exact Arena.members?_eq_some_iff.mpr ⟨d, hd, hkind⟩
      by_cases hx : x < s₁.arena.size
      · have hold := (hbody.grows hinside).arena.decl?_eq_of_nil hx
        have hmembers₁ : s₁.arena.members? x = some members := by
          simpa [Arena.members?, Arena.kind?, hold] using hmembers₂
        exact hsigned hsignature hle hmembers₁
      · obtain ⟨name, ty, init, hd⟩ := hbody.exists_decl? hinside x (Nat.le_of_not_lt hx)
          (Arena.members?_eq_some_lt hmembers₂)
        simp [Arena.members?_of_decl? hd, DeclKind.members?] at hmembers₂

theorem FuncStep.allFormed {p : Place} {s s' : Store} {id : DeclId} (h : FuncStep p s id s')
    (hs : s.Between p) (hformed : s.arena.AllFormed) : s'.arena.AllFormed := by
  refine hformed.step hs (h.grows hs.scope_lt) (h.entryFormed hs (hformed hs.agrees)) ?_
  intro context members hle hmembers
  exact absurd hmembers (h.members?_eq_none hs hle)

theorem Arena.AllFormed.member {p : Place} {s s' : Store} {name : String} {kind : DeclKind}
    (h : s.arena.AllFormed) (hs : s.Between p)
    (hgrows : s.Grows s' p [s.arena.size] [s.arena.size]) (hfresh : s.Fresh p name false)
    (hdecl : s'.arena.decl? s.arena.size = some ⟨some name, some p.context, kind⟩)
    (hsize : s'.arena.size = s.arena.size + 1) (hfunc : ∀ f, kind ≠ .func f)
    (hmembers : kind.members?.getD [] = []) : s'.arena.AllFormed := by
  refine h.step hs hgrows (hs.entryFormed hfresh hfunc hgrows.arena.keeps hdecl) ?_
  intro context members hle hnew
  have hlt := members?_eq_some_lt hnew
  rw [hsize] at hlt
  obtain rfl : context = s.arena.size := Nat.le_antisymm (Nat.le_of_lt_succ hlt) hle
  rw [members?_of_decl? hdecl] at hnew
  rw [hnew] at hmembers
  obtain rfl : members = [] := hmembers
  exact .nil

theorem MemberStep.allFormed {p : Place} {s s' : Store} {id : DeclId} (h : MemberStep p s id s')
    (hs : s.Between p) (hformed : s.arena.AllFormed) : s'.arena.AllFormed := by
  have hgrows := h.grows hs.scope_lt
  cases h with
  | field hfield =>
      cases hfield with
      | @mk name ty _ hfresh =>
          exact hformed.member hs hgrows hfresh (hs.decl?_member name (.field ty)) (by simp)
            (by simp) rfl
  | func hfunc => exact hfunc.allFormed hs hformed

theorem EnumeratorStep.allFormed {p : Place} {s s' : Store} {id : DeclId}
    (h : EnumeratorStep p s id s') (hs : s.Between p) (hformed : s.arena.AllFormed) :
    s'.arena.AllFormed := by
  have hgrows := h.grows hs.scope_lt
  cases h with
  | @mk name value _ hfresh =>
      exact hformed.member hs hgrows hfresh (hs.decl?_member name (.enumerator value)) (by simp)
        (by simp) rfl

theorem TagStep.allFormed {kind : TagKind} {member : Place → Store → DeclId → Store → Prop}
    {p : Place} {s s' : Store} {id : DeclId} (hmember : Growing member)
    (hstep : ∀ {p s id s'}, member p s id s' → s.Between p → s.arena.AllFormed →
      s'.arena.AllFormed)
    (h : TagStep kind member p s id s') (hs : s.Between p) (hformed : s.arena.AllFormed) :
    s'.arena.AllFormed := by
  cases h with
  | @mk name members s₁ hfresh hmembers =>
      have htagged : (s.tagged p name kind).arena.AllFormed :=
        hformed.member hs (Store.tagged_grows hs.scope_lt name kind) hfresh
          (hs.decl?_member name (.tag kind [])) (by simp [Store.tagged]) (by simp) rfl
      have hrun := hmembers.preserves (I := fun s => s.Between _ ∧ s.arena.AllFormed)
        (fun h hI => ⟨hmember.between h hI.1, hstep h hI.1 hI.2⟩)
        ⟨hs.inside name kind, htagged⟩
      exact hrun.2

theorem ItemStep.allFormed {p : Place} {s s' : Store} {id : DeclId} (h : ItemStep p s id s')
    (hs : s.Between p) (hformed : s.arena.AllFormed) : s'.arena.AllFormed := by
  have hgrows := h.grows hs.scope_lt
  cases h with
  | classItem hclass => exact hclass.allFormed MemberStep.growing MemberStep.allFormed hs hformed
  | enumItem henum =>
      exact henum.allFormed EnumeratorStep.growing EnumeratorStep.allFormed hs hformed
  | func hfunc => exact hfunc.allFormed hs hformed
  | @var s₁ hvar =>
      obtain ⟨name, ty, init, hd, hfresh⟩ := hvar.exists_decl?
      rw [hvar.id_eq] at hgrows hd ⊢
      have hdecl : (s₁.enlisted p s.arena.size).arena.decl? s.arena.size =
          some ⟨some name, some p.context, .var ty init⟩ := by
        rw [Store.decl?_enlisted, if_neg (Nat.ne_of_gt hs.context_lt)]
        exact hd
      have hsize : (s₁.enlisted p s.arena.size).arena.size = s.arena.size + 1 := by
        rw [Store.size_enlisted, hvar.size_eq]
      exact hformed.member hs hgrows hfresh hdecl hsize (by simp) rfl

theorem UnitRun.between_allFormed {ids : List DeclId} {s : Store} (h : UnitRun ids s) :
    s.Between .top ∧ s.arena.AllFormed := by
  have hempty : Store.empty.arena.AllFormed := by
    intro context members hmembers
    cases context with
    | zero =>
        cases hmembers
        exact .nil
    | succ => cases hmembers
  exact Runs.preserves (I := fun s => s.Between .top ∧ s.arena.AllFormed)
    (fun h hI => ⟨ItemStep.growing.between h hI.1, h.allFormed hI.1 hI.2⟩) h ⟨.empty, hempty⟩

/-! ## Blocks -/

def Arena.Apart (a : Arena) (ids : List DeclId) : Prop :=
  (∀ x ∈ ids, x < a.size) ∧ a.Distinct ids

theorem Arena.Apart.keeps {a b : Arena} {ids : List DeclId} (h : a.Apart ids)
    (hkeeps : a.Keeps b) : b.Apart ids := by
  refine ⟨fun x hx => Nat.lt_of_lt_of_le (h.1 x hx) hkeeps.size_le, h.2.congr ?_⟩
  intro x hx
  exact hkeeps.name?_eq (h.1 x hx)

theorem VarStep.distinct {p : Place} {s s' : Store} {id : DeclId} (h : VarStep p s id s')
    (hs : s.Bounded) (hp : p.scope < s.scopes.size)
    (hd : s.arena.Distinct (s.scopes.visible p.scope)) :
    s'.arena.Distinct (s'.scopes.visible p.scope) := by
  have hgrows := h.grows hp
  obtain ⟨name, ty, init, hdecl, hfresh⟩ := h.exists_decl?
  have hnames : ∀ x ∈ s.scopes.visible p.scope, s'.arena.name? x = s.arena.name? x :=
    fun x hx => hgrows.arena.keeps.name?_eq (hs.scopes.visible_lt p.scope x hx)
  rw [hgrows.scopes.visible_scope]
  refine (hd.congr hnames).append_one (Arena.name?_of_decl? hdecl) ?_
  intro x hx
  rw [hnames x hx]
  exact hfresh.ne x hx

/-- The names of a block differ, and so do those of each block in it. -/
theorem BlockRun.apart {p : Place} {s s' : Store} {stmts : List Stmt}
    (h : BlockRun p s stmts s') (hs : s.Bounded) (hp : p.scope < s.scopes.size)
    (hd : s.arena.Distinct (s.scopes.visible p.scope)) :
    s'.arena.Apart (s.scopes.visible p.scope ++ Stmt.introduced stmts) ∧
      ∀ block ∈ Stmt.blocksAll stmts, s'.arena.Apart (Stmt.introduced block) := by
  induction h with
  | nil =>
      refine ⟨⟨?_, ?_⟩, by simp [Stmt.blocksAll]⟩
      · simpa [Stmt.introduced] using hs.scopes.visible_lt _
      · simpa [Stmt.introduced] using hd
  | @block p s s₁ s' body rest hbody hrest ihbody ihrest =>
      have hclosed := hbody.grows_closed hp
      have hvisible : (s.opened p).scopes.visible (p.inside s).scope = [] := s.visible_opened p
      obtain ⟨hblock, hblocks⟩ := ihbody (hs.opened hp) (Place.inside_lt p s)
        (by rw [hvisible]; exact .nil)
      have hkeeps := (hrest.grows hclosed.scope_lt).arena.keeps
      have hrestore : (s₁.closed s.scopes.size).scopes.visible p.scope =
          s.scopes.visible p.scope := by
        rw [hclosed.scopes.visible_scope, List.append_nil]
      have hd₁ : (s₁.closed s.scopes.size).arena.Distinct
          ((s₁.closed s.scopes.size).scopes.visible p.scope) := by
        rw [hrestore]
        refine hd.congr ?_
        intro x hx
        exact hclosed.arena.keeps.name?_eq (hs.scopes.visible_lt p.scope x hx)
      obtain ⟨hall, hothers⟩ := ihrest (hbody.bounded_closed hs hp) hclosed.scope_lt hd₁
      rw [hrestore] at hall
      refine ⟨hall, ?_⟩
      intro block hmem
      simp only [Stmt.blocksAll, Stmt.blocks, List.mem_append, List.mem_cons] at hmem
      rcases hmem with (rfl | hmem) | hmem
      · rw [hvisible] at hblock
        exact hblock.keeps hkeeps
      · exact (hblocks block hmem).keeps hkeeps
      · exact hothers block hmem
  | @var p s s₁ s' id rest hvar hrest ih =>
      have hgrows := hvar.grows hp
      have hall := ih (hvar.bounded hs hp) hgrows.scope_lt (hvar.distinct hs hp hd)
      rw [hgrows.scopes.visible_scope, List.append_assoc] at hall
      simpa [Stmt.introduced, Stmt.blocksAll, Stmt.blocks] using hall
  | expr _ _ ih => simpa [Stmt.introduced, Stmt.blocksAll, Stmt.blocks] using ih hs hp hd
  | ret _ _ _ _ ih => simpa [Stmt.introduced, Stmt.blocksAll, Stmt.blocks] using ih hs hp hd
  | retValue _ _ _ _ _ _ ih =>
      simpa [Stmt.introduced, Stmt.blocksAll, Stmt.blocks] using ih hs hp hd

def Arena.BlocksApart (a : Arena) : DeclKind → Prop
  | .func f =>
      a.Apart (f.params ++ Stmt.introduced (f.body.getD [])) ∧
        ∀ block ∈ Stmt.blocksAll (f.body.getD []), a.Apart (Stmt.introduced block)
  | _ => True

theorem Arena.declInvariant_blocksApart :
    DeclInvariant (fun a _ kind => a.BlocksApart kind) where
  stable {a b id kind} hextends _ h := by
    have hkeeps := hextends.toKeeps
    cases kind with
    | func f => exact ⟨h.1.keeps hkeeps, fun block hblock => (h.2 block hblock).keeps hkeeps⟩
    | _ => trivial
  bare {a id kind kind'} heq h := by
    cases kind <;> cases kind' <;> simp_all [DeclKind.bare, BlocksApart]
  inert {a id kind} hinert := by
    cases kind <;> trivial
  enumerator _ _ := trivial
  signature {a context id f} hsigned := by
    have hbound : ∀ x ∈ f.params, x < a.size := by
      intro x hx
      rw [hsigned.params_eq, List.mem_range'_1] at hx
      rw [hsigned.size_eq]
      exact hx.2
    simp only [BlocksApart, hsigned.body_eq, Option.getD_none, Stmt.introduced, List.append_nil,
      Stmt.blocksAll, List.not_mem_nil, false_implies, implies_true, and_true]
    exact ⟨hbound, hsigned.distinct⟩
  init _ _ _ _ _ := trivial
  body {p s₁ s₂ id f body} hs₁ _ hsigned hrun := by
    have hinside := Place.inside_lt_revealedAll p s₁ f.params
    have hbounded := hs₁.bounded.enterBody hs₁.scope_lt hsigned.func_eq
    have hvisible := s₁.visible_revealedAll_opened p f.params
    have hd : s₁.arena.Distinct (((s₁.opened p).revealedAll s₁.scopes.size f.params).scopes.visible
        s₁.scopes.size) := by
      rw [hvisible]
      exact hsigned.distinct
    obtain ⟨hblock, hblocks⟩ := hrun.apart hbounded hinside hd
    have hkeeps := s₂.keeps_setBody id body
    refine ⟨?_, fun block hmem => (hblocks block hmem).keeps hkeeps⟩
    have hparams : s₂.arena.Apart (f.params ++ Stmt.introduced body) := by
      rw [← hvisible]
      exact hblock
    exact hparams.keeps hkeeps

/-! ## Units -/

/-- Accepted units keep the one-definition rule. -/
theorem oneDefinition_of_analyze {tokens : List Token} {a : Arena}
    (h : analyze tokens = .ok a) : a.OneDefinition := by
  obtain ⟨ids, s, hrun, rfl⟩ := exists_run_of_analyze h
  obtain ⟨hbetween, hformed⟩ := hrun.between_allFormed
  constructor
  · intro context members hmembers
    exact (hformed hmembers).contextFormed hbetween.bounded.arena
  · intro id f hf
    obtain ⟨d, hd, hkind⟩ := Arena.func_eq_ok_iff.mp hf
    have hall := Arena.declInvariant_blocksApart.of_unitRun hrun
    obtain ⟨hbody, hblocks⟩ := hall (Arena.kind?_eq_some_iff.mpr ⟨d, hd, hkind⟩)
    exact ⟨hbody.2, fun hblock => (hblocks _ hblock).2⟩

/-- `func f(vi8 x); func f(vi8 y) { { let bool y; } } func f() { }` -/
theorem oneDefinition_overloaded_unit : ∃ a, analyze
    [.keyword .funcKw, .name "f", .mark .lparen, .builtin .vi8, .name "x", .mark .rparen,
      .mark .semi, .keyword .funcKw, .name "f", .mark .lparen, .builtin .vi8, .name "y",
      .mark .rparen, .mark .lbrace, .mark .lbrace, .keyword .letKw, .builtin .bool, .name "y",
      .mark .semi, .mark .rbrace, .mark .rbrace, .keyword .funcKw, .name "f", .mark .lparen,
      .mark .rparen, .mark .lbrace, .mark .rbrace] = .ok a ∧ a.OneDefinition :=
  Check.exists_ok_and (by decide +kernel) fun _ => oneDefinition_of_analyze

end UnitAnalysis
