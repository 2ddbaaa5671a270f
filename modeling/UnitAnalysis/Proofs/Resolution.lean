import UnitAnalysis.Proofs.Invariant
import UnitAnalysis.Proofs.Parts

/-!
# What references stand for

Conversions, operators and calls hand on the references of their operands.  All
references of an expression therefore come from the names written in it, and a
name stands for what the scopes show or for a member of a context.  Main
statement: `ExprAt.finds`.
-/

namespace UnitAnalysis

open Check

/-! ## References of an expression -/

namespace Expr

variable {e e' lhs rhs : Expr} {op : BinaryOp} {target : Ty}

@[simp] theorem refs_loaded (e : Expr) : e.loaded.refs = e.refs := by
  unfold loaded
  split <;> simp [refs]

@[simp] theorem refs_casted (e : Expr) (target : Ty) (kind : Option CastKind) :
    (e.casted target kind).refs = e.refs := by
  cases kind <;> simp [casted, refs]

theorem refs_convert (h : e.convert target = .ok e') : e'.refs = e.refs := by
  simp only [convert, bind_eq_ok, pure_eq_ok] at h
  obtain ⟨kind, -, rfl⟩ := h
  rw [refs_loaded, refs_casted]

theorem refs_bindTo (h : e.bindTo target = .ok e') : e'.refs = e.refs := by
  simp only [bindTo, bind_eq_ok, pure_eq_ok] at h
  obtain ⟨_, -, rfl⟩ := h
  rfl

theorem refs_pass (h : e.pass target = .ok e') : e'.refs = e.refs := by
  cases target with
  | reference => exact refs_bindTo h
  | _ => exact refs_convert h

theorem refs_initFor (h : e.initFor target = .ok e') : e'.refs = e.refs := by
  cases target with
  | reference => exact refs_bindTo h
  | builtin =>
      simp only [initFor] at h
      split at h
      · split at h
        · cases h
          rw [refs_loaded, refs_casted]
        · cases h
      · cases h
  | pointer => cases h
  | tag => cases h

theorem refs_assign (h : lhs.assign rhs = .ok e) : e.refs = lhs.refs ++ rhs.refs := by
  cases hlvalue : lhs.isLvalue with
  | false => simp [assign, hlvalue] at h
  | true =>
      simp only [assign, hlvalue, Bool.not_true, Bool.false_eq_true, if_false] at h
      split at h
      · simp at h
      · simp only [bind_eq_ok, pure_eq_ok] at h
        obtain ⟨rhs', hconvert, rfl⟩ := h
        rw [refs, refs_convert hconvert]

theorem refs_logical (h : logical op lhs rhs = .ok e) : e.refs = lhs.refs ++ rhs.refs := by
  simp only [logical, bind_eq_ok, pure_eq_ok] at h
  obtain ⟨_, -, _, -, rfl⟩ := h
  rw [refs, refs_loaded, refs_loaded]

theorem refs_algebra (h : algebra op lhs rhs = .ok e) : e.refs = lhs.refs ++ rhs.refs := by
  unfold algebra at h
  split at h
  · simp only [bind_eq_ok, pure_eq_ok] at h
    obtain ⟨lhs', hleft, rhs', hright, rfl⟩ := h
    rw [refs, refs_convert hleft, refs_convert hright]
  · simp at h

theorem refs_combine (h : combine op lhs rhs = .ok e) : e.refs = lhs.refs ++ rhs.refs := by
  unfold combine at h
  split at h
  · exact refs_assign h
  · split at h
    · exact refs_logical h
    · exact refs_algebra h

end Expr

theorem Store.mem_refs_callExpr {s : Store} {p : Place} {path : Path} {args : List Expr}
    {e : Expr} (h : s.callExpr p path args = .ok e) {id : DeclId} (hid : id ∈ e.refs) :
    ∃ arg ∈ args, id ∈ arg.refs := by
  unfold callExpr at h
  simp only [bind_eq_ok] at h
  obtain ⟨candidates, -, h⟩ := h
  split at h
  · simp at h
  · split at h
    · simp only [bind_eq_ok, pure_eq_ok] at h
      obtain ⟨f, -, passed, hpassed, rfl⟩ := h
      rw [Expr.refs, Expr.mem_refsAll] at hid
      obtain ⟨value, hvalue, hid⟩ := hid
      obtain ⟨⟨param, arg⟩, hpair, hpass⟩ := exists_of_mem_mapM hpassed hvalue
      simp only [passArg, bind_eq_ok] at hpass
      obtain ⟨ty, -, hpass⟩ := hpass
      rw [Expr.refs_pass hpass] at hid
      exact ⟨arg, (List.of_mem_zip hpair).2, hid⟩
    · simp at h

/-! ## Lookup -/

namespace ScopeTree

variable {t : ScopeTree} {a : Arena} {scope : ScopeId} {name : String} {sel : Selector}
variable {id : DeclId}

theorem name?_of_mem_lookupLocal (h : id ∈ t.lookupLocal a scope name sel) :
    id ∈ t.visible scope ∧ a.name? id = some name := by
  rw [lookupLocal, List.mem_filter] at h
  simp only [matchesDecl, Bool.and_eq_true, beq_iff_eq] at h
  exact ⟨h.1, h.2.1⟩

theorem name?_ne_of_lookupLocal_eq_nil (h : t.lookupLocal a scope name .everything = []) :
    ∀ id ∈ t.visible scope, a.name? id ≠ some name := by
  intro id hid hname
  have hnot := List.filter_eq_nil_iff.mp h id hid
  obtain ⟨d, hd, -⟩ := Option.bind_eq_some_iff.mp hname
  simp [matchesDecl, hname, Arena.sort?, Arena.kind?, hd, Selector.accepts] at hnot

theorem exists_of_mem_lookup (h : id ∈ t.lookup a scope name sel) :
    ∃ outer ≤ scope, id ∈ t.lookupLocal a outer name sel := by
  fun_induction t.lookup a scope name sel with
  | case1 scope hnil parent hparent hlt ih =>
      obtain ⟨outer, hle, hid⟩ := ih h
      exact ⟨outer, Nat.le_trans hle (Nat.le_of_lt hlt), hid⟩
  | case2 => contradiction
  | case3 => contradiction
  | case4 scope => exact ⟨scope, Nat.le_refl _, h⟩

/-- The segments after the first one of a path lead to members. -/
theorem listed_of_descend {resolved : String} {found result : List DeclId} {segment : String}
    {segments : List String} (h : descend a resolved found (segment :: segments) = .ok result) :
    ∀ id ∈ result, a.Listed id := by
  induction segments generalizing resolved found segment with
  | nil =>
      intro id hid
      unfold descend at h
      split at h
      · cases h
      · rename_i context
        split at h
        · cases h
          obtain ⟨hmem, -⟩ := List.mem_filter.mp hid
          cases hmembers : a.members? context with
          | none => simp [hmembers] at hmem
          | some members => exact ⟨context, members, hmembers, by simpa [hmembers] using hmem⟩
        · cases h
      · cases h
  | cons next segments ih =>
      unfold descend at h
      split at h
      · cases h
      · split at h
        · exact ih h
        · cases h
      · cases h

end ScopeTree

/-! ## Names -/

/-- What a name can stand for at a place. -/
def Store.Finds (s : Store) (p : Place) (id : DeclId) : Prop :=
  s.arena.Listed id ∨ ∃ name, id ∈ s.lookup p name .everything

theorem Store.finds_of_lookupPath {s : Store} {p : Place} {path : Path} {found : List DeclId}
    (h : s.lookupPath p path .everything = .ok found) : ∀ id ∈ found, s.Finds p id := by
  intro id hid
  unfold Store.lookupPath ScopeTree.lookupPath at h
  split at h
  · cases h
    exact .inr ⟨path.first, hid⟩
  · rename_i hrest
    left
    obtain ⟨segment, segments, hsegments⟩ : ∃ segment segments, path.rest = segment :: segments :=
      List.exists_cons_of_ne_nil (by simpa using hrest)
    simp only [hsegments, map_eq_ok] at h
    obtain ⟨result, hresult, rfl⟩ := h
    exact ScopeTree.listed_of_descend hresult id (List.mem_filter.mp hid).1

theorem Store.refs_refer {s : Store} {id : DeclId} {e : Expr} (h : s.refer id = .ok e) :
    e.refs = [id] := by
  unfold refer at h
  split at h
  · cases h
    rfl
  · cases h
    rfl
  · split at h
    · cases h
      rfl
    · cases h
  · cases h

theorem ExprAt.finds {s : Store} {p : Place} {e : Expr} (h : ExprAt s p e) :
    ∀ id ∈ e.refs, s.Finds p id := by
  induction h with
  | int => simp [Expr.ofInt, Expr.refs]
  | float => simp [Expr.ofFloat, Expr.refs]
  | bool => simp [Expr.ofBool, Expr.refs]
  | name hname =>
      simp only [Store.nameExpr, bind_eq_ok] at hname
      obtain ⟨found, hfound, h⟩ := hname
      split at h
      · rw [Store.refs_refer h]
        intro id hid
        obtain rfl := List.mem_singleton.mp hid
        exact Store.finds_of_lookupPath hfound id List.mem_cons_self
      · simp at h
  | call _ hcall ih =>
      intro id hid
      obtain ⟨arg, harg, hid⟩ := Store.mem_refs_callExpr hcall hid
      exact ih arg harg id hid
  | binary _ _ hcombine ihlhs ihrhs =>
      rw [Expr.refs_combine hcombine]
      intro id hid
      rcases List.mem_append.mp hid with hid | hid
      · exact ihlhs id hid
      · exact ihrhs id hid

theorem Store.listed_of_declared {s : Store} {p : Place} {name : String} {kind : DeclKind}
    (hkind : kind.members? = none) {id : DeclId} (h : (s.declared p name kind).arena.Listed id) :
    s.arena.Listed id := by
  obtain ⟨context, members, hmembers, hid⟩ := h
  obtain ⟨d, hd, hlist⟩ := Arena.members?_eq_some_iff.mp hmembers
  rw [Store.decl?_declared] at hd
  split at hd
  · cases hd
    simp [hkind] at hlist
  · exact ⟨context, members, Arena.members?_eq_some_iff.mpr ⟨d, hd, hlist⟩, hid⟩

/-- What is found while a variable is declared but not yet visible is older than the variable. -/
theorem Store.Finds.lt_of_declared {s : Store} {p : Place} {name : String} {kind : DeclKind}
    {id : DeclId} (h : (s.declared p name kind).Finds p id) (hkind : kind.members? = none)
    (hs : s.Bounded) : id < s.arena.size := by
  rcases h with hlisted | ⟨name, hid⟩
  · obtain ⟨context, members, hmembers, hid⟩ := Store.listed_of_declared hkind hlisted
    exact hs.arena.members_lt hmembers id hid
  · obtain ⟨outer, -, hid⟩ := ScopeTree.exists_of_mem_lookup hid
    exact hs.scopes.visible_lt outer id (ScopeTree.name?_of_mem_lookupLocal hid).1

end UnitAnalysis
