import UnitAnalysis.Proofs.Action
import UnitAnalysis.Scope

/-!
# Qualified names are resolved from left to right

The first segment of a qualified name is looked up in the scopes, and each further
one among the members of what the segments before it name.  That must be one single
context; the first part of the name for which it is not decides the error, whatever
stands behind it.  Main statement: `ScopeTree.lookupPath_by_segments`.
-/

namespace UnitAnalysis

open Check

namespace ScopeTree

/--
`Leads a found segments result` says that from what was found for the part of a name
read so far, further segments lead to `result`: what was found is one context, and of
its members those with the name of the segment lead on.
-/
inductive Leads (a : Arena) : List DeclId → List String → List DeclId → Prop where
  | nil (found : List DeclId) : Leads a found [] found
  | cons {context : DeclId} {members : List DeclId} {segment : String} {segments : List String}
      {result : List DeclId} (hmembers : a.members? context = some members)
      (hrest : Leads a (members.filter fun id => a.name? id == some segment) segments result) :
      Leads a [context] (segment :: segments) result

/-- The error for a part of a name, if what was found for it is not one single context. -/
inductive Refuses (a : Arena) (part : String) : List DeclId → Error → Prop where
  | nothing : Refuses a part [] (.undeclared part)
  | several (first second : DeclId) (others : List DeclId) :
      Refuses a part (first :: second :: others) (.ambiguous part)
  | other {id : DeclId} (hid : a.members? id = none) : Refuses a part [id] (.notAContext part)

variable {a : Arena} {part : String} {found result : List DeclId} {segments : List String}
variable {e : Error}

theorem descend_single_of_members? {context : DeclId} {members : List DeclId} (segment : String)
    (h : a.members? context = some members) :
    descend a part [context] (segment :: segments) =
      descend a (part ++ "::" ++ segment) (members.filter fun id => a.name? id == some segment)
        segments := by
  simp [descend, Arena.isContext, Arena.membersNamed, h]

theorem descend_single_of_no_members {id : DeclId} (segment : String) (h : a.members? id = none) :
    descend a part [id] (segment :: segments) = .error (.notAContext part) := by
  simp [descend, Arena.isContext, h]

theorem descend_eq_ok_iff : descend a part found segments = .ok result ↔
    Leads a found segments result := by
  induction segments generalizing part found with
  | nil =>
      simp only [descend, Except.ok.injEq]
      constructor
      · rintro rfl
        exact .nil found
      · rintro ⟨⟩
        rfl
  | cons segment segments ih =>
      constructor
      · intro h
        match found with
        | [] => cases h
        | _ :: _ :: _ => cases h
        | [context] =>
            cases hmembers : a.members? context with
            | none =>
                rw [descend_single_of_no_members segment hmembers] at h
                cases h
            | some members =>
                rw [descend_single_of_members? segment hmembers] at h
                exact .cons hmembers (ih.mp h)
      · rintro (_ | ⟨hmembers, hrest⟩)
        rw [descend_single_of_members? segment hmembers]
        exact ih.mpr hrest

/-- The first part of a name that is not one single context decides the error. -/
theorem descend_eq_error_iff : descend a part found segments = .error e ↔
    ∃ before segment after reached, segments = before ++ segment :: after ∧
      Leads a found before reached ∧ Refuses a (Path.text ⟨part, before⟩) reached e := by
  induction segments generalizing part found with
  | nil => simp [descend]
  | cons segment segments ih =>
      constructor
      · intro h
        match found with
        | [] =>
            cases h
            exact ⟨[], segment, segments, [], rfl, .nil _, .nothing⟩
        | first :: second :: others =>
            cases h
            exact ⟨[], segment, segments, _, rfl, .nil _, .several first second others⟩
        | [context] =>
            cases hmembers : a.members? context with
            | none =>
                rw [descend_single_of_no_members segment hmembers] at h
                cases h
                exact ⟨[], segment, segments, [context], rfl, .nil _, .other hmembers⟩
            | some members =>
                rw [descend_single_of_members? segment hmembers] at h
                obtain ⟨before, next, after, reached, rfl, hleads, hrefuses⟩ := ih.mp h
                exact ⟨segment :: before, next, after, reached, rfl, .cons hmembers hleads,
                  hrefuses⟩
      · rintro ⟨before, next, after, reached, hsegments, hleads, hrefuses⟩
        cases before with
        | nil =>
            cases hsegments
            cases hleads
            cases hrefuses with
            | nothing => rfl
            | several => rfl
            | other hid => exact descend_single_of_no_members segment hid
        | cons first before =>
            cases hsegments
            obtain _ | ⟨hmembers, hrest⟩ := hleads
            rw [descend_single_of_members? segment hmembers]
            exact ih.mpr ⟨before, next, after, reached, rfl, hrest, hrefuses⟩

/-! ## Whole names -/

variable {t : ScopeTree} {scope : ScopeId} {p : Path} {sel : Selector}

theorem lookupPath_of_rest_ne_nil (hp : p.rest ≠ []) : t.lookupPath a scope p sel =
    (descend a p.first (t.lookup a scope p.first .context) p.rest).map
      (·.filter fun id => (a.sort? id).any sel.accepts) := by
  rw [lookupPath, if_neg]
  simpa using hp

theorem lookupPath_eq_ok_iff (hp : p.rest ≠ []) : t.lookupPath a scope p sel = .ok result ↔
    ∃ last, Leads a (t.lookup a scope p.first .context) p.rest last ∧
      result = last.filter fun id => (a.sort? id).any sel.accepts := by
  rw [lookupPath_of_rest_ne_nil hp, map_eq_ok]
  exact exists_congr fun last => and_congr descend_eq_ok_iff eq_comm

theorem lookupPath_eq_error_iff (hp : p.rest ≠ []) : t.lookupPath a scope p sel = .error e ↔
    ∃ before segment after reached, p.rest = before ++ segment :: after ∧
      Leads a (t.lookup a scope p.first .context) before reached ∧
      Refuses a (Path.text ⟨p.first, before⟩) reached e := by
  rw [← descend_eq_error_iff, lookupPath_of_rest_ne_nil hp]
  cases descend a p.first (t.lookup a scope p.first .context) p.rest with
  | error e' => simp [Except.map]
  | ok found => simp [Except.map]

theorem lookupPath_append_of_error (h : t.lookupPath a scope p sel = .error e)
    (more : List String) (sel' : Selector) :
    t.lookupPath a scope ⟨p.first, p.rest ++ more⟩ sel' = .error e := by
  have hp : p.rest ≠ [] := by
    intro hnil
    simp [lookupPath, hnil] at h
  obtain ⟨before, segment, after, reached, hrest, hleads, hrefuses⟩ :=
    (lookupPath_eq_error_iff hp).mp h
  apply (lookupPath_eq_error_iff (by simp [hp])).mpr
  refine ⟨before, segment, after ++ more, reached, ?_, hleads, hrefuses⟩
  simp [hrest]

/--
A qualified name is resolved segment by segment.  It stands for the members that its
last segment names, of those sorts that are looked for, if each part before is one
single context.  Otherwise the shortest part that is not gives the error and is
named in it, and segments behind it make no difference.  The scope in which the
name stands matters for its first segment only.
-/
theorem lookupPath_by_segments {p : Path} (hp : p.rest ≠ []) (t : ScopeTree) (a : Arena)
    (scope : ScopeId) (sel : Selector) :
    (∀ result, t.lookupPath a scope p sel = .ok result ↔
      ∃ last, Leads a (t.lookup a scope p.first .context) p.rest last ∧
        result = last.filter fun id => (a.sort? id).any sel.accepts) ∧
    (∀ e, t.lookupPath a scope p sel = .error e ↔
      ∃ before segment after reached, p.rest = before ++ segment :: after ∧
        Leads a (t.lookup a scope p.first .context) before reached ∧
        Refuses a (Path.text ⟨p.first, before⟩) reached e) ∧
    (∀ e, t.lookupPath a scope p sel = .error e → ∀ more sel',
      t.lookupPath a scope ⟨p.first, p.rest ++ more⟩ sel' = .error e) ∧
    ∀ (t' : ScopeTree) (scope' : ScopeId),
      t'.lookup a scope' p.first .context = t.lookup a scope p.first .context →
      t'.lookupPath a scope' p sel = t.lookupPath a scope p sel := by
  refine ⟨?_, ?_, ?_, ?_⟩
  · intro result
    exact lookupPath_eq_ok_iff hp
  · intro e
    exact lookupPath_eq_error_iff hp
  · intro e h more sel'
    exact lookupPath_append_of_error h more sel'
  · intro t' scope' h
    rw [lookupPath_of_rest_ne_nil hp, lookupPath_of_rest_ne_nil hp, h]

/-- In a class `A` with a field `f`, the name `A::f::x` fails at `A::f`, however it goes on. -/
theorem lookupPath_by_segments_field : ∃ t : ScopeTree, ∃ a : Arena,
    t.lookupPath a 0 ⟨"A", ["f"]⟩ .variable = .ok [2] ∧
    t.lookupPath a 0 ⟨"A", ["f", "x"]⟩ .variable = .error (.notAContext "A::f") ∧
    ∀ more, t.lookupPath a 0 ⟨"A", ["f", "x"] ++ more⟩ .function =
      .error (.notAContext "A::f") := by
  let a : Arena := ⟨#[⟨none, none, .unit [1]⟩, ⟨some "A", some 0, .tag .classTag [2]⟩,
    ⟨some "f", some 1, .field (.ofBuiltin .vi8)⟩], ["f", "A"]⟩
  let t : ScopeTree := ⟨#[⟨none, 0, [1]⟩]⟩
  have hlookup : t.lookup a 0 "A" .context = [1] := by decide +kernel
  have hleads : Leads a (t.lookup a 0 "A" .context) ["f"] [2] := by
    rw [hlookup]
    exact .cons rfl (.nil _)
  obtain ⟨-, herror, hextend, -⟩ :=
    lookupPath_by_segments (p := ⟨"A", ["f", "x"]⟩) (by simp) t a 0 .variable
  have hfails := (herror (.notAContext "A::f")).mpr
    ⟨["f"], "x", [], [2], rfl, hleads, .other rfl⟩
  obtain ⟨hok, -⟩ := lookupPath_by_segments (p := ⟨"A", ["f"]⟩) (by simp) t a 0 .variable
  refine ⟨t, a, ?_, hfails, fun more => hextend _ hfails more .function⟩
  exact (hok [2]).mpr ⟨[2], hleads, by decide⟩

end ScopeTree

end UnitAnalysis
