import UnitAnalysis.Proofs.Move

/-!
# Brackets pair up

A bracket is entered at a place, moves are taken, and the bracket is left again.
Leaving reads the way back from the store and not from a stack, but whatever the
moves were, it leads to the place where the bracket was entered.  What can be
looked up from the scopes outside is the same as before, as long as the moves
kept to the scopes inside.  Main statement: `Bracket.leads_back`.
-/

namespace UnitAnalysis

open UnitAnalysis.Action

/-! ## Lookups that agree -/

namespace ScopeTree

/-- A lookup sees only scopes up to the one that it starts in. -/
theorem lookup_congr {t u : ScopeTree} {a b : Arena} {scope : ScopeId} {name : String}
    {sel : Selector} (hvisible : ∀ id ≤ scope, u.visible id = t.visible id)
    (hparent : ∀ id ≤ scope, u.parent? id = t.parent? id)
    (hmatches : ∀ id ≤ scope, ∀ x ∈ t.visible id,
      matchesDecl b name sel x = matchesDecl a name sel x) :
    u.lookup b scope name sel = t.lookup a scope name sel := by
  induction scope using Nat.strongRecOn with
  | ind scope ih =>
      have hlocal : u.lookupLocal b scope name sel = t.lookupLocal a scope name sel := by
        unfold lookupLocal
        rw [hvisible scope (Nat.le_refl _)]
        exact List.filter_congr (hmatches scope (Nat.le_refl _))
      rw [lookup, lookup, hlocal, hparent scope (Nat.le_refl _)]
      cases t.lookupLocal a scope name sel with
      | cons x xs => rfl
      | nil =>
          cases t.parent? scope with
          | none => rfl
          | some parent =>
              by_cases hlt : parent < scope
              · simp only [hlt, if_true]
                have hle : parent ≤ scope := Nat.le_of_lt hlt
                refine ih parent hlt ?_ ?_ ?_
                · intro id hid
                  exact hvisible id (Nat.le_trans hid hle)
                · intro id hid
                  exact hparent id (Nat.le_trans hid hle)
                · intro id hid
                  exact hmatches id (Nat.le_trans hid hle)
              · simp only [hlt, if_false]

end ScopeTree

theorem DeclKind.Evolves.sort_eq {k k' : DeclKind} (h : k.Evolves k') : k'.sort = k.sort := by
  cases h <;> rfl

theorem Arena.Evolves.matchesDecl_eq {a b : Arena} (h : a.Evolves b) {x : DeclId}
    (hx : x < a.size) (name : String) (sel : Selector) :
    ScopeTree.matchesDecl b name sel x = ScopeTree.matchesDecl a name sel x := by
  obtain ⟨d, hd⟩ := exists_decl?_of_lt hx
  obtain ⟨d', hd', hevolves⟩ := h.old hd
  simp [ScopeTree.matchesDecl, name?, sort?, kind?, hd, hd', hevolves.name_eq,
    hevolves.kind.sort_eq]

/-- Where only new scopes have been touched, the old ones show the same declarations. -/
theorem Store.Updates.lookup_eq {s s' : Store} (h : s.Updates (s.scopes.size ≤ ·) s')
    (hs : ∀ x, s.Lists x → x < s.arena.size) (hevolves : s.Evolves s') {p : Place}
    (hp : p.scope < s.scopes.size) (name : String) (sel : Selector) :
    s'.lookup p name sel = s.lookup p name sel := by
  refine ScopeTree.lookup_congr ?_ ?_ ?_
  · intro id hid
    exact h.visible_eq (Nat.not_le.mpr (Nat.lt_of_le_of_lt hid hp))
  · intro id hid
    exact (hevolves.scopes.old (Nat.lt_of_le_of_lt hid hp)).1
  · intro id hid x hx
    exact hevolves.arena.matchesDecl_eq (hs x (.visible hx)) name sel

/-! ## Moves one after the other -/

theorem Action.after_eq_of_gives {α : Type} {x : Action α} {s s' : Store} {a : α}
    (h : Gives x s a s') : x.after s = s' := by
  unfold Action.after
  rw [show x.run s = .ok a s' from h]

/-- Moves are taken in order, each with what exists by then, whether it succeeds or fails. -/
inductive Store.Plays : Store → List Move → Store → Prop where
  | nil {s : Store} : Plays s [] s
  | cons {s s' : Store} {m : Move} {moves : List Move} (hm : m.InRange s)
      (hmoves : Plays (m.action.after s) moves s') : Plays s (m :: moves) s'

namespace Store.Plays

variable {s s' : Store} {moves : List Move}

theorem evolves (h : s.Plays moves s') : s.Evolves s' := by
  induction h with
  | nil => exact .refl _
  | cons hm _ ih => exact (Move.step hm).evolves.trans ih

/-- Moves that keep to the scopes from some point on leave the others alone. -/
theorem updates (h : s.Plays moves s') {first : ScopeId} (hfirst : first ≤ s.scopes.size)
    (hinside : ∀ m ∈ moves, ∀ scope ∈ m.scope?, first ≤ scope) :
    s.Updates (first ≤ ·) s' := by
  induction h with
  | nil => exact .refl
  | @cons s s' m moves hm _ ih =>
      have hsize := (Move.step hm).evolves.scopes.size_le
      have hmove : s.Updates (first ≤ ·) (m.action.after s) := by
        refine (Move.updates hm).mono fun scope htouches => ?_
        rcases htouches with hscope | hnew
        · exact hinside m List.mem_cons_self scope hscope
        · exact Nat.le_trans hfirst hnew
      refine hmove.trans (ih (Nat.le_trans hfirst hsize) fun m' hm' => ?_)
      exact hinside m' (List.mem_cons_of_mem _ hm')

end Store.Plays

/-! ## Brackets -/

inductive Bracket where
  | tag (id : DeclId)
  | params (function : DeclId)
  | block
  | body (function : DeclId) (stmts : List Stmt)

namespace Bracket

def enter (p : Place) : Bracket → Action Place
  | .tag id => enterTag p id
  | .params _ => enterParams p
  | .block => enterBlock p
  | .body function _ => enterBody p function

def leave (p : Place) : Bracket → Action Place
  | .tag _ => leaveTag p
  | .params function => leaveParams p function
  | .block => leaveBlock p
  | .body _ stmts => leaveBody p stmts

/-- A tag is opened in the context that owns it, and a body outside of any other. -/
def Fits (s : Store) (p : Place) : Bracket → Prop
  | .tag id => s.arena.parent? id = some p.context
  | .params _ | .block => True
  | .body _ _ => p.function = none

/-- The place inside a bracket that opens the next scope of a store. -/
def inside (s : Store) (p : Place) : Bracket → Place
  | .tag id => { p.inside s with context := id }
  | .params _ | .block => p.inside s
  | .body function _ => { p.inside s with function := some function }

variable {s s' : Store} {p inner outer : Place} {b : Bracket}

/-- Entering opens one scope, below the one of the place. -/
theorem gives_enter (h : Gives (b.enter p) s inner s') :
    inner = b.inside s p ∧ s.scopes.size < s'.scopes.size ∧
      s'.scopes.parent? s.scopes.size = some p.scope := by
  have hopened : s.scopes.size < (s.opened p).scopes.size ∧
      (s.opened p).scopes.parent? s.scopes.size = some p.scope := by
    simp [Store.opened, ScopeTree.parent?_push]
  cases b with
  | tag id =>
      change Gives (enterTag p id) s inner s' at h
      obtain ⟨rfl, rfl⟩ := gives_enterTag h
      exact ⟨rfl, hopened⟩
  | params | block =>
      change Gives (openScope p) s inner s' at h
      obtain ⟨rfl, rfl⟩ := gives_openScope h
      exact ⟨rfl, hopened⟩
  | body function stmts =>
      change Gives (enterBody p function) s inner s' at h
      obtain ⟨f, -, -, rfl, rfl⟩ := gives_enterBody h
      refine ⟨rfl, ?_⟩
      simpa [Store.revealedAll] using hopened

theorem evolves_enter (hp : p.scope < s.scopes.size) : (b.enter p).Evolves s := by
  cases b with
  | tag id => exact evolves_enterTag hp id
  | params | block => exact evolves_openScope hp
  | body function stmts => exact evolves_enterBody hp function

theorem updates_enter : s.Updates (s.scopes.size ≤ ·) ((b.enter p).after s) := by
  cases b with
  | tag id => exact updates_enterTag p id
  | params | block => exact .single (.enter p)
  | body function stmts => exact updates_enterBody p function (Nat.le_refl _)

theorem evolves_leave : (b.leave p).Evolves s := by
  cases b with
  | tag => exact evolves_leaveTag p
  | params function => exact evolves_leaveParams p function
  | block => exact evolves_closeScope p
  | body function stmts => exact evolves_leaveBody p stmts

theorem updates_leave (hp : p.scope < s.scopes.size) {touched : ScopeId → Prop}
    (htouched : touched p.scope) : s.Updates touched ((b.leave p).after s) := by
  cases b with
  | tag => exact updates_leaveTag hp htouched
  | params function => exact updates_leaveParams function hp htouched
  | block => exact updates_closeScope hp htouched
  | body function stmts => exact updates_leaveBody stmts hp htouched

theorem parent?_of_leaveTag (h : Gives (leaveTag inner) s outer s') :
    s.scopes.parent? inner.scope = some outer.scope ∧
      s.arena.parent? inner.context = some outer.context ∧
      outer = { inner with scope := outer.scope, context := outer.context } := by
  simp only [leaveTag, gives_bind, gives_get] at h
  obtain ⟨_, _, ⟨rfl, rfl⟩, h⟩ := h
  split at h
  · rename_i context hcontext
    simp only [gives_bind, gives_pure] at h
    obtain ⟨q, _, hclose, rfl, rfl⟩ := h
    obtain ⟨hparent, hplace, -⟩ := gives_closeScope hclose
    refine ⟨hparent, hcontext, ?_⟩
    rw [hplace]
  · exact absurd h not_gives_throw

/-- What a bracket has changed of a place is found again in any store that still has the links. -/
theorem outer_eq_of_leave {s₁ : Store} (hfits : b.Fits s p) (hevolves : s.Evolves s₁)
    (hparent : s₁.scopes.parent? s.scopes.size = some p.scope)
    (h : Gives (b.leave (b.inside s p)) s₁ outer s') : outer = p := by
  cases b with
  | tag id =>
      obtain ⟨hscope, hcontext, hplace⟩ := parent?_of_leaveTag h
      have hid : id < s.arena.size := by
        obtain ⟨d, hd, -⟩ := Option.bind_eq_some_iff.mp hfits
        exact Arena.decl?_eq_some_lt hd
      have howner : s₁.arena.parent? id = some p.context :=
        (hevolves.arena.parent?_eq hid).trans hfits
      have hscope' : outer.scope = p.scope := Option.some.inj (hscope.symm.trans hparent)
      have hcontext' : outer.context = p.context := Option.some.inj (hcontext.symm.trans howner)
      rw [hplace, hscope', hcontext']
      rfl
  | params function =>
      obtain ⟨hscope, hplace, -⟩ := exists_linked_of_leaveParams h
      have hscope' : outer.scope = p.scope := Option.some.inj (hscope.symm.trans hparent)
      rw [hplace, hscope']
      rfl
  | block =>
      obtain ⟨hscope, hplace, -⟩ := gives_closeScope h
      have hscope' : outer.scope = p.scope := Option.some.inj (hscope.symm.trans hparent)
      rw [hplace, hscope']
      rfl
  | body function stmts =>
      change Gives (leaveBody (inside s p (.body function stmts)) stmts) s₁ outer s' at h
      obtain ⟨_, -, hscope, hplace, -⟩ := gives_leaveBody h
      have hscope' : outer.scope = p.scope := Option.some.inj (hscope.symm.trans hparent)
      have hnone : p.function = none := hfits
      rw [hplace, hscope', ← hnone]
      rfl

theorem scope_inside : (b.inside s p).scope = s.scopes.size := by
  cases b <;> rfl

/--
Whatever is done inside a bracket, leaving it leads to the place where it was
entered.  If the scopes outside were left alone, so are all lookups from there,
before the bracket is left and after, whether or not leaving succeeds.
-/
theorem leads_back {s₁ s₂ : Store} {moves : List Move}
    (hs : Relation.ReflTransGen Store.Step .empty s) (hp : p.scope < s.scopes.size)
    (hfits : b.Fits s p) (henter : Gives (b.enter p) s inner s₁) (hmoves : s₁.Plays moves s₂) :
    (∀ outer s₃, Gives (b.leave inner) s₂ outer s₃ → outer = p) ∧
      ((∀ m ∈ moves, ∀ scope ∈ m.scope?, inner.scope ≤ scope) →
        ∀ q : Place, q.scope < s.scopes.size → ∀ name sel,
          s₂.lookup q name sel = s.lookup q name sel ∧
          ((b.leave inner).after s₂).lookup q name sel = s.lookup q name sel) := by
  obtain ⟨rfl, hsize, hparent⟩ := gives_enter henter
  have hafter := Action.after_eq_of_gives henter
  have hopen : s.Evolves s₁ := hafter ▸ evolves_enter hp
  have hevolves : s.Evolves s₂ := hopen.trans hmoves.evolves
  constructor
  · intro outer s₃ hleave
    refine outer_eq_of_leave hfits hevolves ?_ hleave
    rw [(hmoves.evolves.scopes.old hsize).1, hparent]
  · intro hinside q hq name sel
    have hlists := Store.lists_lt_of_steps hs
    have hupdates : s.Updates (s.scopes.size ≤ ·) s₂ := by
      rw [scope_inside] at hinside
      exact (hafter ▸ updates_enter).trans (hmoves.updates (Nat.le_of_lt hsize) hinside)
    refine ⟨hupdates.lookup_eq hlists hevolves hq name sel, ?_⟩
    have hinner : (b.inside s p).scope < s₂.scopes.size := by
      rw [scope_inside]
      exact Nat.lt_of_lt_of_le hsize hmoves.evolves.scopes.size_le
    have hleave : s₂.Updates (s.scopes.size ≤ ·) ((b.leave (b.inside s p)).after s₂) :=
      updates_leave hinner (Nat.le_of_eq scope_inside.symm)
    have hafterwards : s.Updates (s.scopes.size ≤ ·) ((b.leave (b.inside s p)).after s₂) :=
      hupdates.trans hleave
    exact hafterwards.lookup_eq hlists (hevolves.trans evolves_leave) hq name sel

/-- A block that declares another `x`, between the first `x` and what comes after the block. -/
theorem leads_back_shadowing_block : ∃ s s₁ s₂ s₃ : Store, ∃ inner outer : Place,
    s = (reveal .top 1).after (Action.after (declareVar .top "x" (.ofBuiltin .vi8)) .empty) ∧
    Gives (Bracket.block.enter .top) s inner s₁ ∧
    s₁.Plays [.declareVar inner "x" (.ofBuiltin .bool), .reveal inner 2] s₂ ∧
    s₂.scopes.lookupLocal s₂.arena inner.scope "x" .everything = [2] ∧
    Gives (Bracket.block.leave inner) s₂ outer s₃ ∧ outer = .top ∧ ∀ name sel,
      s₂.lookup .top name sel = s.lookup .top name sel ∧
      ((Bracket.block.leave inner).after s₂).lookup .top name sel = s.lookup .top name sel := by
  have hempty : Place.top.InRange .empty := ⟨by decide, by decide, by nofun⟩
  let declared := Action.after (declareVar .top "x" (.ofBuiltin .vi8)) .empty
  have hdeclared : Place.top.InRange declared := ⟨by decide, by decide, by nofun⟩
  let s := (reveal .top 1).after declared
  have hs : Relation.ReflTransGen Store.Step .empty s :=
    .tail (.single (.declareVar hempty "x" _)) (.reveal hdeclared (by decide))
  let inner : Place := ⟨1, 0, none⟩
  have henter : Gives (Bracket.block.enter .top) s inner (s.opened .top) := rfl
  let shadowed := Action.after (declareVar inner "x" (.ofBuiltin .bool)) (s.opened .top)
  let s₂ := (reveal inner 2).after shadowed
  have hmoves : (s.opened .top).Plays
      [.declareVar inner "x" (.ofBuiltin .bool), .reveal inner 2] s₂ :=
    .cons ⟨by decide, by decide, by nofun⟩
      (.cons ⟨⟨by decide, by decide, by nofun⟩, by decide⟩ .nil)
  have hfits : Bracket.block.Fits s .top := trivial
  have hback := leads_back hs (by decide) hfits henter hmoves
  have hleave : Gives (Bracket.block.leave inner) s₂ .top (s₂.closed 1) := rfl
  refine ⟨_, _, _, _, inner, _, rfl, henter, hmoves, ?_, hleave, hback.1 _ _ hleave,
    hback.2 ?_ .top ?_⟩
  · decide
  · simp [Move.scope?]
  · decide

end Bracket

end UnitAnalysis
