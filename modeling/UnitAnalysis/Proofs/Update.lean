import UnitAnalysis.Declaring
import UnitAnalysis.Bracket

/-!
# Updates of the store

The changes that actions make to a store, as functions, and what each of them
does to the views through which everything else looks at a store: `decl?` of
the arena, `visible` and `parent?` of the scope tree.
-/

namespace UnitAnalysis

/-! ## Views of the arena -/

namespace Arena

theorem decl?_eq_some_lt {a : Arena} {id : DeclId} {d : Decl}
    (h : a.decl? id = some d) : id < a.size :=
  (Array.getElem?_eq_some_iff.mp h).1

theorem decl?_isSome_iff {a : Arena} {id : DeclId} :
    (a.decl? id).isSome ↔ id < a.size := by
  simp [decl?, size]

theorem exists_decl?_of_lt {a : Arena} {id : DeclId} (h : id < a.size) :
    ∃ d, a.decl? id = some d :=
  Option.isSome_iff_exists.mp (decl?_isSome_iff.mpr h)

@[simp] theorem decl?_intern (a : Arena) (name : String) (id : DeclId) :
    (a.intern name).decl? id = a.decl? id := by
  unfold intern
  split <;> rfl

theorem decl?_modifyKind (a : Arena) (changed : DeclId)
    (change : DeclKind → DeclKind) (id : DeclId) :
    (a.modifyKind changed change).decl? id =
      if id = changed then
        (a.decl? id).map fun d => { d with kind := change d.kind }
      else a.decl? id := by
  by_cases h : id = changed
  · subst h
    simp [modifyKind, decl?, Array.getElem?_modify]
  · have hne : changed ≠ id := fun heq => h heq.symm
    simp [modifyKind, decl?, Array.getElem?_modify, h, hne]

theorem kind?_eq_some_iff {a : Arena} {id : DeclId} {k : DeclKind} :
    a.kind? id = some k ↔ ∃ d, a.decl? id = some d ∧ d.kind = k := by
  simp [kind?, Option.map_eq_some_iff]

theorem name?_of_decl? {a : Arena} {id : DeclId} {d : Decl} (h : a.decl? id = some d) :
    a.name? id = d.name := by
  simp [name?, h]

theorem sort?_eq_some_lt {a : Arena} {id : DeclId} {sort : DeclSort}
    (h : a.sort? id = some sort) : id < a.size := by
  obtain ⟨k, hk, -⟩ := Option.map_eq_some_iff.mp h
  obtain ⟨d, hd, -⟩ := kind?_eq_some_iff.mp hk
  exact decl?_eq_some_lt hd

theorem members?_eq_some_iff {a : Arena} {id : DeclId} {members : List DeclId} :
    a.members? id = some members ↔
      ∃ d, a.decl? id = some d ∧ d.kind.members? = some members := by
  unfold members? kind?
  cases a.decl? id <;> simp

theorem members?_of_decl? {a : Arena} {id : DeclId} {d : Decl} (h : a.decl? id = some d) :
    a.members? id = d.kind.members? := by
  simp [members?, kind?, h]

theorem members?_eq_some_lt {a : Arena} {id : DeclId} {members : List DeclId}
    (h : a.members? id = some members) : id < a.size := by
  obtain ⟨d, hd, -⟩ := members?_eq_some_iff.mp h
  exact decl?_eq_some_lt hd

theorem func_eq_ok_iff {a : Arena} {id : DeclId} {f : Func} :
    a.func id = .ok f ↔ ∃ d, a.decl? id = some d ∧ d.kind = .func f := by
  unfold func kind?
  cases a.decl? id with
  | none => simp
  | some d => cases hkind : d.kind <;> simp [DeclKind.func?, hkind]

theorem func_of_kind? {a : Arena} {id : DeclId} {f : Func} (h : a.kind? id = some (.func f)) :
    a.func id = .ok f := by
  simp [func, h, DeclKind.func?]

theorem varTy_eq_ok_iff {a : Arena} {id : DeclId} {ty : Ty} :
    a.varTy id = .ok ty ↔ ∃ d init, a.decl? id = some d ∧ d.kind = .var ty init := by
  unfold varTy kind?
  cases a.decl? id with
  | none => simp
  | some d => cases hkind : d.kind <;> simp [DeclKind.varTy?, hkind]

theorem varTy_eq_ok_lt {a : Arena} {id : DeclId} {ty : Ty} (h : a.varTy id = .ok ty) :
    id < a.size := by
  obtain ⟨d, -, hd, -⟩ := varTy_eq_ok_iff.mp h
  exact decl?_eq_some_lt hd

theorem varTy_modifyKind {a : Arena} {id : DeclId} {ty : Ty} (h : a.varTy id = .ok ty)
    (changed : DeclId) {change : DeclKind → DeclKind}
    (hchange : ∀ ty init, change (.var ty init) = .var ty init) :
    (a.modifyKind changed change).varTy id = .ok ty := by
  obtain ⟨d, init, hd, hkind⟩ := varTy_eq_ok_iff.mp h
  rw [varTy_eq_ok_iff, decl?_modifyKind]
  by_cases hid : id = changed
  · rw [if_pos hid, hd]
    exact ⟨_, init, rfl, by simp [hkind, hchange]⟩
  · rw [if_neg hid]
    exact ⟨d, init, hd, hkind⟩

end Arena

/-! ## Views of the scope tree -/

namespace ScopeTree

@[simp] theorem visible_push (t : ScopeTree) (parent id : ScopeId) :
    (t.push parent).visible id = t.visible id := by
  unfold visible scope? push
  rw [Array.getElem?_push]
  by_cases h : id = t.scopes.size
  · subst h
    simp
  · simp [h]

theorem parent?_push (t : ScopeTree) (parent id : ScopeId) :
    (t.push parent).parent? id = if id = t.size then some parent else t.parent? id := by
  unfold parent? scope? push size
  rw [Array.getElem?_push]
  by_cases h : id = t.scopes.size <;> simp [h]

@[simp] theorem parent?_modifyVisible (t : ScopeTree) (changed id : ScopeId)
    (change : List DeclId → List DeclId) :
    (t.modifyVisible changed change).parent? id = t.parent? id := by
  unfold parent? scope? modifyVisible
  rw [Array.getElem?_modify]
  by_cases h : changed = id
  · subst h
    cases t.scopes[changed]? <;> simp
  · simp [h]

theorem visible_eq_nil_of_size_le {t : ScopeTree} {id : ScopeId} (h : t.size ≤ id) :
    t.visible id = [] := by
  have hnone : t.scopes[id]? = none := Array.getElem?_eq_none h
  simp [visible, scope?, hnone]

def addAll (t : ScopeTree) (id : ScopeId) (decls : List DeclId) : ScopeTree :=
  decls.foldl (·.add id ·) t

@[simp] theorem size_add (t : ScopeTree) (id : ScopeId) (decl : DeclId) :
    (t.add id decl).size = t.size :=
  t.size_modifyVisible id _

@[simp] theorem parent?_add (t : ScopeTree) (changed id : ScopeId) (decl : DeclId) :
    (t.add changed decl).parent? id = t.parent? id :=
  t.parent?_modifyVisible changed id _

theorem visible_add {t : ScopeTree} {changed : ScopeId} (h : changed < t.size)
    (id : ScopeId) (decl : DeclId) :
    (t.add changed decl).visible id =
      if changed = id then t.visible changed ++ [decl] else t.visible id :=
  t.visible_modifyVisible changed id _ h

@[simp] theorem size_addAll (t : ScopeTree) (id : ScopeId) (decls : List DeclId) :
    (t.addAll id decls).size = t.size := by
  induction decls generalizing t with
  | nil => rfl
  | cons decl decls ih =>
      change ((t.add id decl).addAll id decls).size = t.size
      rw [ih, size_add]

@[simp] theorem parent?_addAll (t : ScopeTree) (changed id : ScopeId)
    (decls : List DeclId) : (t.addAll changed decls).parent? id = t.parent? id := by
  induction decls generalizing t with
  | nil => rfl
  | cons decl decls ih =>
      change ((t.add changed decl).addAll changed decls).parent? id = t.parent? id
      rw [ih, parent?_add]

theorem visible_addAll {t : ScopeTree} {changed : ScopeId} (h : changed < t.size)
    (id : ScopeId) (decls : List DeclId) :
    (t.addAll changed decls).visible id =
      if changed = id then t.visible changed ++ decls else t.visible id := by
  induction decls generalizing t with
  | nil =>
      by_cases heq : changed = id
      · subst heq
        simp [addAll]
      · simp [addAll, heq]
  | cons decl decls ih =>
      change ((t.add changed decl).addAll changed decls).visible id = _
      rw [ih (by simpa using h), visible_add h, visible_add h]
      by_cases heq : changed = id <;> simp [heq]

end ScopeTree

/-! ## Updates -/

/-- The place inside the scope that a store opens next. -/
def Place.inside (p : Place) (s : Store) : Place :=
  { p with scope := s.scopes.size }

namespace Store

def declared (s : Store) (p : Place) (name : String) (kind : DeclKind) : Store :=
  { s with arena := (s.arena.intern name).push ⟨some name, some p.context, kind⟩ }

def revealed (s : Store) (p : Place) (id : DeclId) : Store :=
  { s with scopes := s.scopes.add p.scope id }

def enlisted (s : Store) (p : Place) (id : DeclId) : Store :=
  { s with arena := s.arena.modifyKind p.context (.addMember id) }

def opened (s : Store) (p : Place) : Store :=
  { s with scopes := s.scopes.push p.scope }

def closed (s : Store) (scope : ScopeId) : Store :=
  { s with scopes := s.scopes.modifyVisible scope fun _ => [] }

def revealedAll (s : Store) (scope : ScopeId) (ids : List DeclId) : Store :=
  { s with scopes := s.scopes.addAll scope ids }

def mapFunc (s : Store) (id : DeclId) (change : Func → Func) : Store :=
  { s with arena := s.arena.modifyKind id (.mapFunc change) }

/-- Links a function to the declaration that it repeats, if there is one. -/
def linked (s : Store) (id : DeclId) : Option DeclId → Store
  | some previous => s.mapFunc id fun f => { f with previous := some previous }
  | none => s

section Projections

variable (s : Store) (p : Place) (id : DeclId) (scope : ScopeId) (ids : List DeclId)
variable (name : String) (kind : DeclKind) (change : Func → Func)

@[simp] theorem scopes_declared : (s.declared p name kind).scopes = s.scopes := rfl

@[simp] theorem arena_revealed : (s.revealed p id).arena = s.arena := rfl

@[simp] theorem scopes_enlisted : (s.enlisted p id).scopes = s.scopes := rfl

@[simp] theorem arena_opened : (s.opened p).arena = s.arena := rfl

@[simp] theorem arena_closed : (s.closed scope).arena = s.arena := rfl

@[simp] theorem arena_revealedAll : (s.revealedAll scope ids).arena = s.arena := rfl

@[simp] theorem scopes_mapFunc : (s.mapFunc id change).scopes = s.scopes := rfl

@[simp] theorem scopes_linked (previous : Option DeclId) :
    (s.linked id previous).scopes = s.scopes := by
  cases previous <;> rfl

@[simp] theorem size_declared :
    (s.declared p name kind).arena.size = s.arena.size + 1 := by
  simp [declared]

@[simp] theorem size_enlisted : (s.enlisted p id).arena.size = s.arena.size := by
  simp [enlisted]

@[simp] theorem size_mapFunc : (s.mapFunc id change).arena.size = s.arena.size := by
  simp [mapFunc]

@[simp] theorem size_linked (previous : Option DeclId) :
    (s.linked id previous).arena.size = s.arena.size := by
  cases previous <;> simp [linked]

theorem decl?_declared (x : DeclId) :
    (s.declared p name kind).arena.decl? x =
      if x = s.arena.size then some ⟨some name, some p.context, kind⟩
      else s.arena.decl? x := by
  simp [declared, Arena.decl?_push]

theorem kind?_declared : (s.declared p name kind).arena.kind? s.arena.size = some kind := by
  simp [Arena.kind?, decl?_declared]

theorem varTy_declared {x : DeclId} {ty : Ty} (h : s.arena.varTy x = .ok ty) :
    (s.declared p name kind).arena.varTy x = .ok ty := by
  obtain ⟨d, init, hd, hkind⟩ := Arena.varTy_eq_ok_iff.mp h
  refine Arena.varTy_eq_ok_iff.mpr ⟨d, init, ?_, hkind⟩
  rw [decl?_declared, if_neg (Nat.ne_of_lt (Arena.decl?_eq_some_lt hd))]
  exact hd

theorem decl?_mapFunc (x : DeclId) :
    (s.mapFunc id change).arena.decl? x =
      if x = id then
        (s.arena.decl? x).map fun d => { d with kind := d.kind.mapFunc change }
      else s.arena.decl? x :=
  s.arena.decl?_modifyKind id _ x

theorem decl?_linked_of_ne (previous : Option DeclId) {x : DeclId} (h : x ≠ id) :
    (s.linked id previous).arena.decl? x = s.arena.decl? x := by
  cases previous with
  | none => rfl
  | some earlier => exact (s.decl?_mapFunc id _ x).trans (if_neg h)

theorem visible_opened : (s.opened p).scopes.visible s.scopes.size = [] := by
  rw [opened, ScopeTree.visible_push]
  exact ScopeTree.visible_eq_nil_of_size_le (Nat.le_refl _)

theorem visible_revealedAll_opened :
    ((s.opened p).revealedAll s.scopes.size ids).scopes.visible s.scopes.size = ids := by
  have hlt : s.scopes.size < (s.opened p).scopes.size := by simp [opened]
  refine (ScopeTree.visible_addAll hlt _ ids).trans ?_
  rw [if_pos rfl, visible_opened, List.nil_append]

theorem decl?_enlisted (x : DeclId) :
    (s.enlisted p id).arena.decl? x =
      if x = p.context then
        (s.arena.decl? x).map fun d => { d with kind := d.kind.addMember id }
      else s.arena.decl? x :=
  s.arena.decl?_modifyKind p.context _ x

end Projections

end Store

end UnitAnalysis
