import UnitAnalysis.Proofs.Agreement
import UnitAnalysis.Proofs.FirstFit

/-!
# Calls and later declarations

A function that becomes visible later comes after those that a call has found
so far, or repeats one of them.  The candidates of the call are then the same
with at most one more at the end, and a first fit among them stays the first.

Main statement: `Store.callExpr_stable`.
-/

namespace UnitAnalysis

open Check

/-! ## Where a lookup stops -/

namespace ScopeTree

/-- A lookup that starts in a scope finds something first in an outer scope, or at once. -/
inductive StopsAt (t : ScopeTree) (a : Arena) (name : String) (sel : Selector) :
    ScopeId → ScopeId → Prop where
  | here {scope : ScopeId} (hfound : t.lookupLocal a scope name sel ≠ []) :
      StopsAt t a name sel scope scope
  | outside {scope parent stop : ScopeId} (hnil : t.lookupLocal a scope name sel = [])
      (hparent : t.parent? scope = some parent) (hlt : parent < scope)
      (hstops : StopsAt t a name sel parent stop) : StopsAt t a name sel scope stop

variable {t : ScopeTree} {a : Arena} {name : String} {sel : Selector} {scope stop : ScopeId}
variable {id : DeclId}

namespace StopsAt

theorem le (h : t.StopsAt a name sel scope stop) : stop ≤ scope := by
  induction h with
  | here => exact Nat.le_refl _
  | outside _ _ hlt _ ih => exact Nat.le_trans ih (Nat.le_of_lt hlt)

theorem lookupLocal_ne_nil (h : t.StopsAt a name sel scope stop) :
    t.lookupLocal a stop name sel ≠ [] := by
  induction h with
  | here hfound => exact hfound
  | outside _ _ _ _ ih => exact ih

theorem lookup_eq (h : t.StopsAt a name sel scope stop) :
    t.lookup a scope name sel = t.lookupLocal a stop name sel := by
  induction h with
  | here hfound => exact lookup_eq_lookupLocal hfound
  | outside hnil hparent hlt _ ih =>
      rw [lookup, hnil]
      simp only [hparent, hlt, if_true]
      exact ih

theorem stop_lt_size (h : t.StopsAt a name sel scope stop) : stop < t.size := by
  apply Nat.lt_of_not_le
  intro hle
  apply h.lookupLocal_ne_nil
  rw [lookupLocal, visible_eq_nil_of_size_le hle, List.filter_nil]

end StopsAt

/-- A lookup finds something exactly if it stops somewhere. -/
theorem lookup_ne_nil_iff :
    t.lookup a scope name sel ≠ [] ↔ ∃ stop, t.StopsAt a name sel scope stop := by
  constructor
  · intro h
    fun_induction t.lookup a scope name sel with
    | case1 scope hnil parent hparent hlt ih =>
        obtain ⟨stop, hstops⟩ := ih h
        exact ⟨stop, .outside hnil hparent hlt hstops⟩
    | case2 => exact absurd rfl h
    | case3 => exact absurd rfl h
    | case4 scope => exact ⟨scope, .here h⟩
  · rintro ⟨stop, h⟩
    rw [h.lookup_eq]
    exact h.lookupLocal_ne_nil

theorem lookupLocal_add (hstop : stop < t.size) (hid : matchesDecl a name sel id = true)
    (x : ScopeId) :
    (t.add stop id).lookupLocal a x name sel =
      if stop = x then t.lookupLocal a stop name sel ++ [id] else t.lookupLocal a x name sel := by
  rw [lookupLocal, visible_add hstop]
  split
  · simp [lookupLocal, hid]
  · rfl

/-- A declaration that is added where a lookup stops does not move the stop. -/
theorem StopsAt.add (h : t.StopsAt a name sel scope stop) (hid : matchesDecl a name sel id = true) :
    (t.add stop id).StopsAt a name sel scope stop := by
  have hlocal := lookupLocal_add h.stop_lt_size hid
  induction h with
  | here => exact .here (by simp [hlocal])
  | @outside scope parent stop hnil hparent hlt hstops ih =>
      have hne : stop ≠ scope := Nat.ne_of_lt (Nat.lt_of_le_of_lt hstops.le hlt)
      refine .outside ?_ ?_ hlt (ih hlocal)
      · rw [hlocal, if_neg hne, hnil]
      · rw [parent?_add, hparent]

theorem StopsAt.lookup_add (h : t.StopsAt a name sel scope stop)
    (hid : matchesDecl a name sel id = true) :
    (t.add stop id).lookup a scope name sel = t.lookup a scope name sel ++ [id] := by
  rw [(h.add hid).lookup_eq, lookupLocal_add h.stop_lt_size hid, if_pos rfl, h.lookup_eq]

end ScopeTree

/-! ## One more candidate -/

theorem Arena.First.unique {a : Arena} {id first first' : DeclId} (h : a.First id first)
    (h' : a.First id first') : first = first' := by
  obtain ⟨ids, hchain, hhead⟩ := h
  obtain ⟨ids', hchain', hhead'⟩ := h'
  obtain rfl := hchain.unique hchain'
  exact Option.some.inj (hhead.symm.trans hhead')

theorem Arena.mem_firsts_iff {a : Arena} {found firsts : List DeclId} {first : DeclId}
    (h : List.Forall₂ a.First found firsts) :
    first ∈ firsts ↔ ∃ id ∈ found, a.First id first := by
  induction h with
  | nil => simp
  | @cons id first' found firsts hfirst _ ih =>
      have hiff : a.First id first ↔ first = first' := by
        constructor
        · intro h
          exact h.unique hfirst
        · rintro rfl
          exact hfirst
      simp [ih, hiff]

namespace Store

variable {s : Store} {p q : Place} {name : String} {id first : DeclId} {args : List Expr}

/-- What a call by a name may lead to: the first declaration of a function that is found. -/
def Candidate (s : Store) (p : Place) (name : String) (first : DeclId) : Prop :=
  ∃ id ∈ s.lookup p name .function, s.arena.First id first

/--
The result of a call that none of some candidates has taken, made again when the
function declared first by `first` has become visible too.
-/
inductive RetriedWith (s : Store) (p : Place) (name : String) (args : List Expr)
    (first : DeclId) (count : Nat) : Except Error Expr → Prop where
  | taken {f : Func} {passed : List Expr} (hnew : ¬ s.Candidate p name first)
      (htakes : s.Takes args first) (hfunc : s.arena.func first = .ok f)
      (hpassed : s.PassesTo f args passed) :
      RetriedWith s p name args first count (.ok (.call ⟨f.returnTy, .rvalue⟩ first passed))
  | refused (hnew : ¬ s.Candidate p name first) (hrefuses : ¬ s.Takes args first) :
      RetriedWith s p name args first count (.error (.noViableCall name (count + 1)))
  | known (hknown : s.Candidate p name first) :
      RetriedWith s p name args first count (.error (.noViableCall name count))

theorem eraseDups_append_singleton (ids : List DeclId) (id : DeclId) :
    (ids ++ [id]).eraseDups =
      if id ∈ ids.eraseDups then ids.eraseDups else ids.eraseDups ++ [id] := by
  rw [List.eraseDups_append, List.removeAll]
  by_cases h : id ∈ ids <;> simp [h, List.eraseDups_cons]

/-- The candidates of a call, before and after one more function has become visible. -/
theorem candidates_revealed (hs : s.arena.Chained)
    (hstops : s.scopes.StopsAt s.arena name .function p.scope q.scope)
    (hname : s.arena.name? id = some name) {f : Func} (hf : s.arena.func id = .ok f) :
    ∃ first candidates, s.arena.First id first ∧ candidates ≠ [] ∧
      (first ∈ candidates ↔ s.Candidate p name first) ∧
      s.candidates p ⟨name, []⟩ = .ok candidates ∧
      (s.revealed q id).candidates p ⟨name, []⟩ =
        .ok (if first ∈ candidates then candidates else candidates ++ [first]) := by
  obtain ⟨ids, hchain⟩ := hs hf
  obtain ⟨first, hfirst, hdeclaration⟩ := hchain.firstDeclaration
  have hlookup : s.lookupPath p ⟨name, []⟩ .function = .ok (s.lookup p name .function) := rfl
  obtain ⟨firsts, hfirsts, hmapM⟩ := hs.exists_firsts (Ready.exists_func_of_lookupPath hlookup)
  refine ⟨first, firsts.eraseDups, hfirst, ?_, ?_, ?_, ?_⟩
  · obtain ⟨x, hx⟩ := List.exists_mem_of_ne_nil _ (ScopeTree.lookup_ne_nil_iff.mpr ⟨_, hstops⟩)
    obtain ⟨y, hy⟩ := List.exists_mem_of_length_pos
      (hfirsts.length_eq ▸ List.length_pos_of_mem hx)
    exact List.ne_nil_of_mem (List.mem_eraseDups.mpr hy)
  · rw [List.mem_eraseDups]
    exact Arena.mem_firsts_iff hfirsts
  · rw [candidates, hlookup, ok_bind, hmapM]
    rfl
  · have hmatches : ScopeTree.matchesDecl s.arena name .function id = true := by
      obtain ⟨d, hd, hkind⟩ := Arena.func_eq_ok_iff.mp hf
      simp [ScopeTree.matchesDecl, hname, Arena.sort?, Arena.kind?, hd, hkind, DeclKind.sort,
        Selector.accepts]
    have hadded : (s.revealed q id).lookupPath p ⟨name, []⟩ .function =
        .ok (s.lookup p name .function ++ [id]) :=
      congrArg Except.ok (hstops.lookup_add hmatches)
    rw [candidates, hadded, ok_bind, arena_revealed, List.mapM_append, hmapM]
    simp [hdeclaration, ok_bind, eraseDups_append_singleton]

/-- A call is the same among other candidates if these lead to the same function. -/
theorem callExpr_revealed_of_find? {path : Path} {candidates candidates' : List DeclId}
    {callee : DeclId} (h : s.candidates p path = .ok candidates)
    (h' : (s.revealed q id).candidates p path = .ok candidates')
    (hfind : candidates.find? (s.isViable args) = some callee)
    (hfind' : candidates'.find? (s.isViable args) = some callee) :
    (s.revealed q id).callExpr p path args = s.callExpr p path args := by
  have hviable : (s.revealed q id).isViable args = s.isViable args := rfl
  have hne := List.isEmpty_eq_false_iff.mpr (List.ne_nil_of_mem (List.mem_of_find?_eq_some hfind))
  have hne' := List.isEmpty_eq_false_iff.mpr (List.ne_nil_of_mem (List.mem_of_find?_eq_some hfind'))
  simp only [callExpr, h, h', ok_bind, hne, hne', hviable, hfind, hfind']
  rfl

/-- Where no candidate has taken a call, only a function that was none of them matters. -/
theorem retriedWith_of_find?_eq_none {candidates : List DeclId} (hne : candidates ≠ [])
    (hmem : first ∈ candidates ↔ s.Candidate p name first)
    (hafter : (s.revealed q id).candidates p ⟨name, []⟩ =
      .ok (if first ∈ candidates then candidates else candidates ++ [first]))
    (hfind : candidates.find? (s.isViable args) = none) :
    s.RetriedWith p name args first candidates.length
      ((s.revealed q id).callExpr p ⟨name, []⟩ args) := by
  by_cases hknown : first ∈ candidates
  · rw [if_pos hknown] at hafter
    have hcall := callExpr_of_find?_eq_none hafter hne hfind
    rw [hcall]
    exact .known (hmem.mp hknown)
  · rw [if_neg hknown] at hafter
    have hnew : ¬ s.Candidate p name first := fun h => hknown (hmem.mpr h)
    have hlast : (candidates ++ [first]).find? (s.isViable args) =
        if s.isViable args first then some first else none := by
      rw [List.find?_append, hfind, Option.none_or, List.find?_singleton]
    cases hviable : s.isViable args first with
    | true =>
        rw [if_pos hviable] at hlast
        obtain ⟨f, passed, hf, hpassed, hcall⟩ := callExpr_of_find? hafter hlast
        rw [hcall]
        exact .taken hnew (isViable_iff.mp hviable) hf hpassed
    | false =>
        rw [if_neg (by simp [hviable])] at hlast
        have hcall := callExpr_of_find?_eq_none hafter (by simp) hlast
        have hrefuses : ¬ s.Takes args first := by
          rw [← isViable_iff, hviable]
          exact Bool.false_ne_true
        rw [hcall, List.length_append]
        exact .refused hnew hrefuses

/--
A call that has found a function is not changed by functions of that name that
become visible later.  A call that none of its candidates takes is taken by such
a function if that is a new candidate and takes it.
-/
theorem callExpr_stable {s' : Store} (hs : s.arena.Chained)
    (hstops : s.scopes.StopsAt s.arena name .function p.scope q.scope)
    (hname : s.arena.name? id = some name) {f : Func} (hf : s.arena.func id = .ok f)
    (hreveal : (reveal q id).Gives s () s') (args : List Expr) :
    ∃ first, s.arena.First id first ∧
      ((∃ e, s.callExpr p ⟨name, []⟩ args = .ok e ∧ s'.callExpr p ⟨name, []⟩ args = .ok e) ∨
        ∃ count, s.callExpr p ⟨name, []⟩ args = .error (.noViableCall name count) ∧
          s.RetriedWith p name args first count (s'.callExpr p ⟨name, []⟩ args)) := by
  obtain rfl := gives_reveal hreveal
  obtain ⟨first, candidates, hfirst, hne, hmem, hbefore, hafter⟩ :=
    candidates_revealed hs hstops hname hf
  refine ⟨first, hfirst, ?_⟩
  cases hfind : candidates.find? (s.isViable args) with
  | some callee =>
      left
      obtain ⟨f, passed, -, -, hcall⟩ := callExpr_of_find? hbefore hfind
      refine ⟨_, hcall, ?_⟩
      rw [callExpr_revealed_of_find? hbefore hafter hfind, hcall]
      split
      · exact hfind
      · rw [List.find?_append, hfind, Option.some_or]
  | none =>
      right
      refine ⟨_, callExpr_of_find?_eq_none hbefore hne hfind, ?_⟩
      exact retriedWith_of_find?_eq_none hne hmem hafter hfind

/--
The store after `func f(vi8 a); func f(bool b); func f(vr32 c);`, where the third
function is not visible yet, and a block inside.  None of the others takes a
number of type `vr32`, but the third function does once it is visible.
-/
theorem callExpr_stable_overloaded : ∃ s s' : Store, ∃ p : Place, s.arena.Chained ∧
    s.scopes.StopsAt s.arena "f" .function p.scope Place.top.scope ∧
    (reveal .top 5).Gives s () s' ∧
    (s'.callExpr p ⟨"f", []⟩ [.ofFloat ⟨0⟩]).isOk = true ∧
    ∃ first count, s.arena.First 5 first ∧
      s.callExpr p ⟨"f", []⟩ [.ofFloat ⟨0⟩] = .error (.noViableCall "f" count) ∧
      s.RetriedWith p "f" [.ofFloat ⟨0⟩] first count (s'.callExpr p ⟨"f", []⟩ [.ofFloat ⟨0⟩]) := by
  let func (params : List DeclId) : Decl :=
    ⟨some "f", some 0, .func ⟨params, .ofBuiltin .void, none, none⟩⟩
  let var (name : String) (kind : Builtin) : Decl :=
    ⟨some name, some 0, .var (.ofBuiltin kind) none⟩
  let s : Store :=
    ⟨⟨#[⟨none, none, .unit [1, 3, 5]⟩, func [2], var "a" .vi8, func [4], var "b" .bool,
      func [6], var "c" .vr32], ["c", "b", "a", "f"]⟩,
      ⟨#[⟨none, 0, [1, 3]⟩, ⟨some 0, 1, []⟩]⟩⟩
  let p : Place := ⟨1, 0, none⟩
  have hs : s.arena.Chained := by
    intro id f hf
    match id, hf with
    | 1, _ | 3, _ | 5, _ => exact ⟨_, .first rfl rfl⟩
    | 0, hf | 2, hf | 4, hf | 6, hf => cases hf
    | id + 7, hf =>
        obtain ⟨d, hd, -⟩ := Arena.func_eq_ok_iff.mp hf
        exact absurd (Arena.decl?_eq_some_lt hd) (Nat.not_lt_of_le (Nat.le_add_left 7 id))
  have hstops : s.scopes.StopsAt s.arena "f" .function p.scope Place.top.scope :=
    .outside (by decide +kernel) rfl Nat.zero_lt_one (.here (by decide +kernel))
  have hreveal : (reveal .top 5).Gives s () (s.revealed .top 5) := rfl
  have hfails : (s.callExpr p ⟨"f", []⟩ [.ofFloat ⟨0⟩]).isOk = false := by decide +kernel
  refine ⟨s, _, p, hs, hstops, hreveal, by decide +kernel, ?_⟩
  obtain ⟨first, hfirst, ⟨e, hcall, -⟩ | ⟨count, hcall, hretried⟩⟩ :=
    callExpr_stable hs hstops rfl rfl hreveal [.ofFloat ⟨0⟩]
  · rw [hcall] at hfails
    cases hfails
  · exact ⟨first, count, hfirst, hcall, hretried⟩

end Store

end UnitAnalysis
