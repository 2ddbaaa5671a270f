import UnitAnalysis.Proofs.LaterDeclarations
import UnitAnalysis.Proofs.Representation

/-!
# Inner declarations hide outer ones

A lookup goes outwards along the parents of a scope and takes what it finds first.
A tree of scopes changes by scopes that are opened and closed, in any order, and by
declarations that become visible or cease to be, in any scope.  Each change has an
effect on those lookups only that come past the scope, and this effect is said here
for a lookup from anywhere.  Main statement: `ScopeTree.lookup_shadows`.
-/

namespace UnitAnalysis

namespace ScopeTree

/-! ## Trees that can arise -/

/-- A change at a scope that exists. -/
inductive Change (t : ScopeTree) : ScopeTree → Prop where
  | push {scope : ScopeId} (hscope : scope < t.size) : Change t (t.push scope)
  | pop {scope outer : ScopeId} {u : ScopeTree} (hpop : t.pop scope = .ok (outer, u)) : Change t u
  | add {scope : ScopeId} (hscope : scope < t.size) (id : DeclId) : Change t (t.add scope id)
  | remove {scope : ScopeId} (hscope : scope < t.size) (id : DeclId) :
      Change t (t.remove scope id)

/-- The trees that come from the empty one by changes in any order. -/
def Reached (t : ScopeTree) : Prop :=
  Relation.ReflTransGen Change .empty t

variable {t u : ScopeTree} {a : Arena} {name : String} {sel : Selector}
variable {q s scope outer : ScopeId} {id : DeclId}

theorem pop_eq_ok (h : t.pop s = .ok (outer, u)) :
    t.parent? s = some outer ∧ u = t.modifyVisible s fun _ => [] := by
  unfold pop at h
  split at h
  · cases h
    exact ⟨by assumption, rfl⟩
  · cases h

theorem Change.evolves (h : t.Change u) : t.Evolves u := by
  cases h with
  | push hscope => exact .push t hscope
  | pop hpop =>
      obtain ⟨-, rfl⟩ := pop_eq_ok hpop
      exact .modifyVisible _ _ _
  | add hscope id => exact .modifyVisible _ _ _
  | remove hscope id => exact .modifyVisible _ _ _

theorem Reached.rooted (h : t.Reached) : t.Rooted := by
  have hevolves : ScopeTree.empty.Evolves t := by
    induction h with
    | refl => exact .refl _
    | tail _ hchange ih => exact ih.trans hchange.evolves
  exact hevolves.rooted

theorem lt_size_of_parent? (h : t.parent? scope = some outer) : scope < t.size := by
  obtain ⟨record, hrecord, -⟩ := Option.bind_eq_some_iff.mp h
  exact (Array.getElem?_eq_some_iff.mp hrecord).1

theorem Rooted.lt_of_parent? (ht : t.Rooted) (h : t.parent? scope = some outer) :
    outer < scope := by
  have hsize := lt_size_of_parent? h
  by_cases hpos : 0 < scope
  · obtain ⟨parent, hlt, hparent, -⟩ := ht.parent_lt hpos hsize
    cases h.symm.trans hparent
    exact hlt
  · obtain rfl : scope = ScopeTree.root := Nat.eq_zero_of_not_pos hpos
    cases h.symm.trans ht.root.1

/-! ## Matches -/

/-- A declaration has the name that is looked for, and a sort that is accepted. -/
structure Matches (a : Arena) (name : String) (sel : Selector) (id : DeclId) : Prop where
  name_eq : a.name? id = some name
  sort_accepted : ∃ sort ∈ a.sort? id, sel.accepts sort = true

theorem matchesDecl_iff : matchesDecl a name sel id = true ↔ Matches a name sel id := by
  rw [matchesDecl, Bool.and_eq_true, beq_iff_eq, Option.any_eq_true]
  constructor
  · rintro ⟨hname, hsort⟩
    exact ⟨hname, hsort⟩
  · rintro ⟨hname, hsort⟩
    exact ⟨hname, hsort⟩

instance : Decidable (Matches a name sel id) :=
  decidable_of_iff _ matchesDecl_iff

/-- A lookup in one scope keeps what matches, in the order in which it became visible. -/
theorem lookupLocal_eq :
    t.lookupLocal a s name sel = (t.visible s).filter (Matches a name sel ·) := by
  rw [lookupLocal]
  congr 1
  funext id
  rw [Bool.eq_iff_iff, matchesDecl_iff, decide_eq_true_iff]

/-- Something that matches is visible in a scope itself. -/
def HasMatch (t : ScopeTree) (a : Arena) (name : String) (sel : Selector) (s : ScopeId) : Prop :=
  ∃ id ∈ t.visible s, Matches a name sel id

instance : Decidable (t.HasMatch a name sel s) :=
  inferInstanceAs (Decidable (∃ id ∈ t.visible s, Matches a name sel id))

theorem not_hasMatch_iff : ¬ t.HasMatch a name sel s ↔ t.lookupLocal a s name sel = [] := by
  rw [lookupLocal_eq, List.filter_eq_nil_iff]
  simp only [HasMatch, not_exists, not_and, decide_eq_true_iff]

theorem hasMatch_iff : t.HasMatch a name sel s ↔ t.lookupLocal a s name sel ≠ [] :=
  iff_not_comm.mp not_hasMatch_iff.symm

/-! ## The way outwards -/

/-- A scope is met on the way outwards, which begins with the first scope itself. -/
def OnChain (t : ScopeTree) : ScopeId → ScopeId → Prop :=
  Relation.ReflTransGen fun scope outer => t.parent? scope = some outer

/-- Nothing matches on the way to a scope, before the way comes to it. -/
def NoneBelow (t : ScopeTree) (a : Arena) (name : String) (sel : Selector) (q s : ScopeId) : Prop :=
  ∀ scope, t.OnChain q scope → t.OnChain scope s → scope ≠ s → ¬ t.HasMatch a name sel scope

/-- The first scope on the way that has a match. -/
structure Nearest (t : ScopeTree) (a : Arena) (name : String) (sel : Selector) (q s : ScopeId) :
    Prop where
  onChain : t.OnChain q s
  hasMatch : t.HasMatch a name sel s
  below : t.NoneBelow a name sel q s

theorem Rooted.le_of_onChain (ht : t.Rooted) (h : t.OnChain q s) : s ≤ q := by
  induction h with
  | refl => exact Nat.le_refl _
  | tail _ hparent ih => exact Nat.le_trans (Nat.le_of_lt (ht.lt_of_parent? hparent)) ih

/-- Only the start of the way can be a scope that does not exist. -/
theorem Rooted.eq_or_lt_size_of_onChain (ht : t.Rooted) (h : t.OnChain q s) :
    s = q ∨ s < t.size := by
  cases h with
  | refl => exact .inl rfl
  | tail _ hparent =>
      exact .inr (Nat.lt_trans (ht.lt_of_parent? hparent) (lt_size_of_parent? hparent))

/-- A lookup stops at the nearest scope with a match. -/
theorem Rooted.stopsAt_iff_nearest (ht : t.Rooted) :
    t.StopsAt a name sel q s ↔ t.Nearest a name sel q s := by
  constructor
  · intro h
    induction h with
    | @here scope hfound =>
        refine ⟨.refl, hasMatch_iff.mpr hfound, ?_⟩
        intro x hx hscope hne
        exact absurd (Nat.le_antisymm (ht.le_of_onChain hx) (ht.le_of_onChain hscope)) hne
    | @outside scope parent stop hnil hparent hlt _ ih =>
        refine ⟨.head hparent ih.onChain, ih.hasMatch, ?_⟩
        intro x hx hstop hne
        rcases hx.cases_head with rfl | ⟨outer, houter, hx⟩
        · exact not_hasMatch_iff.mpr hnil
        · cases hparent.symm.trans houter
          exact ih.below x hx hstop hne
  · rintro ⟨hchain, hmatch, hbelow⟩
    induction hchain using Relation.ReflTransGen.head_induction_on with
    | refl => exact .here (hasMatch_iff.mp hmatch)
    | @head scope parent hparent hchain ih =>
        have hlt : parent < scope := ht.lt_of_parent? hparent
        have hne : scope ≠ s := Nat.ne_of_gt (Nat.lt_of_le_of_lt (ht.le_of_onChain hchain) hlt)
        have hnone : ¬ t.HasMatch a name sel scope := hbelow scope .refl (.head hparent hchain) hne
        refine .outside (not_hasMatch_iff.mp hnone) hparent hlt (ih ?_)
        intro x hx
        exact hbelow x (.head hparent hx)

theorem Rooted.lookup_eq_of_nearest (ht : t.Rooted) (h : t.Nearest a name sel q s) :
    t.lookup a q name sel = t.lookupLocal a s name sel :=
  (ht.stopsAt_iff_nearest.mpr h).lookup_eq

theorem Rooted.exists_nearest_iff (ht : t.Rooted) :
    (∃ s, t.Nearest a name sel q s) ↔ t.lookup a q name sel ≠ [] := by
  rw [lookup_ne_nil_iff]
  exact exists_congr fun s => ht.stopsAt_iff_nearest.symm

theorem Rooted.lookup_eq_lookup_parent (ht : t.Rooted) (hnil : t.lookupLocal a scope name sel = [])
    (hparent : t.parent? scope = some outer) :
    t.lookup a scope name sel = t.lookup a outer name sel := by
  rw [lookup, hnil]
  simp only [hparent, ht.lt_of_parent? hparent, if_true]

/-- A match anywhere on the way is enough for a lookup to find something. -/
theorem Rooted.lookup_ne_nil_of_onChain (ht : t.Rooted) (hchain : t.OnChain q s)
    (hfound : t.lookupLocal a s name sel ≠ []) : t.lookup a q name sel ≠ [] := by
  induction hchain using Relation.ReflTransGen.head_induction_on with
  | refl =>
      rw [lookup_eq_lookupLocal hfound]
      exact hfound
  | @head scope parent hparent _ ih =>
      by_cases hnil : t.lookupLocal a scope name sel = []
      · rw [ht.lookup_eq_lookup_parent hnil hparent]
        exact ih
      · rw [lookup_eq_lookupLocal hnil]
        exact hnil

/-- The answer of a lookup: what matches in the nearest scope with a match, if there is one. -/
theorem Rooted.lookup_eq_iff (ht : t.Rooted) {found : List DeclId} :
    t.lookup a q name sel = found ↔
      (∃ s, t.Nearest a name sel q s ∧ found = (t.visible s).filter (Matches a name sel ·)) ∨
        (∀ s, t.OnChain q s → ¬ t.HasMatch a name sel s) ∧ found = [] := by
  simp only [← lookupLocal_eq]
  constructor
  · rintro rfl
    by_cases hnil : t.lookup a q name sel = []
    · right
      refine ⟨?_, hnil⟩
      intro s hs hmatch
      exact ht.lookup_ne_nil_of_onChain hs (hasMatch_iff.mp hmatch) hnil
    · left
      obtain ⟨s, hs⟩ := ht.exists_nearest_iff.mpr hnil
      exact ⟨s, hs, ht.lookup_eq_of_nearest hs⟩
  · rintro (⟨s, hs, rfl⟩ | ⟨hnone, rfl⟩)
    · exact ht.lookup_eq_of_nearest hs
    · by_contra hfound
      obtain ⟨s, hs⟩ := ht.exists_nearest_iff.mpr hfound
      exact hnone s hs.onChain hs.hasMatch

/-! ## Effects of changes -/

/-- A lookup depends on the scopes on its way only. -/
theorem lookup_congr_of_onChain (hparent : ∀ s, t.OnChain q s → u.parent? s = t.parent? s)
    (hlocal : ∀ s, t.OnChain q s → u.lookupLocal a s name sel = t.lookupLocal a s name sel) :
    u.lookup a q name sel = t.lookup a q name sel := by
  induction q using Nat.strongRecOn with
  | ind q ih =>
      rw [lookup, lookup, hlocal q .refl, hparent q .refl]
      cases t.lookupLocal a q name sel with
      | cons x xs => rfl
      | nil =>
          cases hup : t.parent? q with
          | none => rfl
          | some parent =>
              by_cases hlt : parent < q
              · simp only [hlt, if_true]
                apply ih parent hlt
                · intro s hs
                  exact hparent s (.head hup hs)
                · intro s hs
                  exact hlocal s (.head hup hs)
              · simp only [hlt, if_false]

theorem onChain_add : (t.add s id).OnChain = t.OnChain := by
  unfold OnChain
  simp only [parent?_add]

theorem lookupLocal_add_of_ne (hs : s < t.size) (hne : s ≠ scope) :
    (t.add s id).lookupLocal a scope name sel = t.lookupLocal a scope name sel := by
  rw [lookupLocal, lookupLocal, visible_add hs, if_neg hne]

theorem lookupLocal_add_of_not_matches (hs : s < t.size) (hid : ¬ Matches a name sel id) :
    (t.add s id).lookupLocal a scope name sel = t.lookupLocal a scope name sel := by
  rw [lookupLocal_eq, lookupLocal_eq, visible_add hs]
  split
  · subst scope
    simp [hid]
  · rfl

/-- A declaration in `s` is among what a lookup from `q` finds. -/
structure Surfaces (t : ScopeTree) (a : Arena) (name : String) (sel : Selector) (q s : ScopeId)
    (id : DeclId) : Prop where
  onChain : t.OnChain q s
  isMatch : Matches a name sel id
  below : t.NoneBelow a name sel q s

theorem Surfaces.lookup_add (h : t.Surfaces a name sel q s id) (hs : s < t.size)
    (hadd : (t.add s id).Rooted) :
    (t.add s id).lookup a q name sel = (t.visible s).filter (Matches a name sel ·) ++ [id] := by
  rw [← lookupLocal_eq]
  have hlocal : (t.add s id).lookupLocal a s name sel = t.lookupLocal a s name sel ++ [id] := by
    rw [lookupLocal_add hs (matchesDecl_iff.mpr h.isMatch), if_pos rfl]
  have hnearest : (t.add s id).Nearest a name sel q s := by
    refine ⟨?_, ?_, ?_⟩
    · rw [onChain_add]
      exact h.onChain
    · simp [hasMatch_iff, hlocal]
    · intro x hx hxs hne
      rw [onChain_add] at hx hxs
      rw [hasMatch_iff, lookupLocal_add_of_ne hs hne.symm, ← hasMatch_iff]
      exact h.below x hx hxs hne
  rw [hadd.lookup_eq_of_nearest hnearest, hlocal]

/-- Where something matches before the way comes to `s`, a lookup does not get there. -/
theorem Rooted.lookup_add_of_hidden (ht : t.Rooted) (hadd : (t.add s id).Rooted) (hs : s < t.size)
    {inner : ScopeId} (hinner : t.OnChain q inner) (hchain : t.OnChain inner s) (hne : inner ≠ s)
    (hmatch : t.HasMatch a name sel inner) :
    (t.add s id).lookup a q name sel = t.lookup a q name sel := by
  have hfound : t.lookup a q name sel ≠ [] :=
    ht.lookup_ne_nil_of_onChain hinner (hasMatch_iff.mp hmatch)
  obtain ⟨c, hc⟩ := ht.exists_nearest_iff.mpr hfound
  -- If `s` came before `c`, so would `inner`, which has a match.
  have hoff : ∀ x, t.OnChain q x → t.OnChain x c → s ≠ x := by
    rintro x - hxc rfl
    refine hc.below inner hinner (hchain.trans hxc) ?_ hmatch
    rintro rfl
    exact hne (Nat.le_antisymm (ht.le_of_onChain hxc) (ht.le_of_onChain hchain))
  have hlocal : ∀ x, t.OnChain q x → t.OnChain x c →
      (t.add s id).lookupLocal a x name sel = t.lookupLocal a x name sel := by
    intro x hx hxc
    exact lookupLocal_add_of_ne hs (hoff x hx hxc)
  have hnearest : (t.add s id).Nearest a name sel q c := by
    refine ⟨?_, ?_, ?_⟩
    · rw [onChain_add]
      exact hc.onChain
    · rw [hasMatch_iff, hlocal c hc.onChain .refl, ← hasMatch_iff]
      exact hc.hasMatch
    · intro x hx hxc hxne
      rw [onChain_add] at hx hxc
      rw [hasMatch_iff, hlocal x hx hxc, ← hasMatch_iff]
      exact hc.below x hx hxc hxne
  rw [hadd.lookup_eq_of_nearest hnearest, ht.lookup_eq_of_nearest hc, hlocal c hc.onChain .refl]

theorem Rooted.lookup_add_of_not_surfaces (ht : t.Rooted) (hadd : (t.add s id).Rooted)
    (hs : s < t.size) (h : ¬ t.Surfaces a name sel q s id) :
    (t.add s id).lookup a q name sel = t.lookup a q name sel := by
  by_cases hchain : t.OnChain q s
  · by_cases hid : Matches a name sel id
    · have hhidden : ¬ t.NoneBelow a name sel q s := fun hbelow => h ⟨hchain, hid, hbelow⟩
      simp only [NoneBelow, not_forall, not_not] at hhidden
      obtain ⟨inner, hinner, hinner_s, hne, hmatch⟩ := hhidden
      exact ht.lookup_add_of_hidden hadd hs hinner hinner_s hne hmatch
    · apply lookup_congr_of_onChain
      · intro x _
        exact parent?_add ..
      · intro x _
        exact lookupLocal_add_of_not_matches hs hid
  · apply lookup_congr_of_onChain
    · intro x _
      exact parent?_add ..
    · intro x hx
      apply lookupLocal_add_of_ne hs
      rintro rfl
      exact hchain hx

theorem Rooted.lookup_push (ht : t.Rooted) (hq : q ≠ t.size) :
    (t.push s).lookup a q name sel = t.lookup a q name sel := by
  apply lookup_congr_of_onChain
  · intro x hx
    rw [parent?_push, if_neg]
    rcases ht.eq_or_lt_size_of_onChain hx with rfl | hlt
    · exact hq
    · exact Nat.ne_of_lt hlt
  · intro x _
    rw [lookupLocal, lookupLocal, visible_push]

/-- A new scope is empty, so that a lookup from it goes on outside at once. -/
theorem Rooted.lookup_pushed (ht : t.Rooted) (hs : s < t.size) :
    (t.push s).lookup a t.size name sel = t.lookup a s name sel := by
  have hnil : (t.push s).lookupLocal a t.size name sel = [] := by
    rw [lookupLocal, visible_push, visible_eq_nil_of_size_le (Nat.le_refl _), List.filter_nil]
  have hparent : (t.push s).parent? t.size = some s := by
    rw [parent?_push, if_pos rfl]
  rw [lookup, hnil]
  simp only [hparent, hs, if_true]
  exact ht.lookup_push (Nat.ne_of_lt hs)

theorem lookup_popped (hpop : t.pop s = .ok (outer, u)) (hchain : ¬ t.OnChain q s) :
    u.lookup a q name sel = t.lookup a q name sel := by
  obtain ⟨hparent, rfl⟩ := pop_eq_ok hpop
  apply lookup_congr_of_onChain
  · intro x _
    exact parent?_modifyVisible ..
  · intro x hx
    have hne : s ≠ x := by
      rintro rfl
      exact hchain hx
    rw [lookupLocal, lookupLocal, visible_modifyVisible _ _ _ _ (lt_size_of_parent? hparent),
      if_neg hne]

/-! ## The law of shadowing -/

/--
A lookup in a tree that can arise answers with the matches of the nearest scope
that has any.  A declaration that is added changes only the lookups that come to
its scope and look for it, and stands after the matches found there so far.  A new
scope shows what its parent shows.  A scope that is left changes no lookup from
where it is not met.
-/
theorem lookup_shadows (ht : t.Reached) (a : Arena) (q : ScopeId) (name : String) (sel : Selector) :
    (∀ found, t.lookup a q name sel = found ↔
      (∃ s, t.Nearest a name sel q s ∧ found = (t.visible s).filter (Matches a name sel ·)) ∨
        (∀ s, t.OnChain q s → ¬ t.HasMatch a name sel s) ∧ found = []) ∧
    (∀ s id, s < t.size →
      (t.Surfaces a name sel q s id →
        (t.add s id).lookup a q name sel =
          (t.visible s).filter (Matches a name sel ·) ++ [id]) ∧
      (¬ t.Surfaces a name sel q s id →
        (t.add s id).lookup a q name sel = t.lookup a q name sel)) ∧
    (∀ s, s < t.size → (t.push s).lookup a t.size name sel = t.lookup a s name sel ∧
      (q ≠ t.size → (t.push s).lookup a q name sel = t.lookup a q name sel)) ∧
    ∀ s outer u, t.pop s = .ok (outer, u) → ¬ t.OnChain q s →
      u.lookup a q name sel = t.lookup a q name sel := by
  have hrooted := ht.rooted
  refine ⟨fun found => hrooted.lookup_eq_iff, ?_, ?_, ?_⟩
  · intro s id hs
    have hadd : (t.add s id).Reached := ht.tail (.add hs id)
    refine ⟨?_, ?_⟩
    · intro h
      exact h.lookup_add hs hadd.rooted
    · intro h
      exact hrooted.lookup_add_of_not_surfaces hadd.rooted hs h
  · intro s hs
    exact ⟨hrooted.lookup_pushed hs, fun hq => hrooted.lookup_push hq⟩
  · intro s outer u hpop hchain
    exact lookup_popped hpop hchain

/--
A variable `x` outside, a class `x` in a block, and another block in that one.  The
class is no variable and hides none: from the innermost block the variable is
found, and after it a second one that becomes visible outside.
-/
theorem lookup_shadows_class_between : ∃ t : ScopeTree, ∃ a : Arena, t.Reached ∧
    t.lookup a 2 "x" .everything = [2] ∧ t.lookup a 2 "x" .variable = [1] ∧
    (t.add 0 3).lookup a 2 "x" .variable = [1, 3] ∧
    (t.push 2).lookup a 3 "x" .variable = [1] := by
  let var : Decl := ⟨some "x", some 0, .var (.ofBuiltin .vi8) none⟩
  let a : Arena :=
    ⟨#[⟨none, none, .unit []⟩, var, ⟨some "x", some 0, .tag .classTag []⟩, var], ["x"]⟩
  let t : ScopeTree := (((ScopeTree.empty.push 0).push 1).add 0 1).add 1 2
  have ht : t.Reached :=
    .tail (.tail (.tail (.single (.push (by decide))) (.push (by decide))) (.add (by decide) 1))
      (.add (by decide) 2)
  have hsurfaces : t.Surfaces a "x" .variable 2 0 3 := by
    refine ⟨.head rfl (.head rfl .refl), ⟨rfl, .var, rfl, rfl⟩, ?_⟩
    intro scope hscope _ hne
    rcases hscope.cases_head with rfl | ⟨_, hparent, hscope⟩
    · decide
    · cases hparent
      rcases hscope.cases_head with rfl | ⟨_, hparent, hscope⟩
      · decide
      · cases hparent
        rcases hscope.cases_head with rfl | ⟨_, hparent, -⟩
        · exact absurd rfl hne
        · cases hparent
  obtain ⟨-, hadd, hpush, -⟩ := lookup_shadows ht a 2 "x" .variable
  have hvar : t.lookup a 2 "x" .variable = [1] := by decide +kernel
  refine ⟨t, a, ht, by decide +kernel, hvar, (hadd 0 3 (by decide)).1 hsurfaces, ?_⟩
  exact (hpush 2 (by decide)).1.trans hvar

end ScopeTree

end UnitAnalysis
