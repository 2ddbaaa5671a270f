import UnitAnalysis.Proofs.Acceptance
import UnitAnalysis.Proofs.Representation

/-!
# Moves

A move is one action with the place and the arguments that it is taken at, so
that a sequence of actions can be spoken of as a list.  Whatever a move does, it
does by few kinds of updates (`Store.Update`), and a move that fails has made at
most one of them.  Main statement: `Move.residue_of_fails` says for each move
exactly what is left of it when it fails.
-/

namespace UnitAnalysis

open UnitAnalysis.Action

/-! ## Moves and steps -/

inductive Move where
  | declareVar (p : Place) (name : String) (ty : Ty)
  | declareField (p : Place) (name : String) (ty : Ty)
  | declareTag (kind : TagKind) (p : Place) (name : String)
  | declareEnumerator (p : Place) (name : String) (value : Option Int64)
  | declareFunc (p : Place) (name : String) (returnTy : Ty)
  | declareParam (p : Place) (function : DeclId) (name : String) (ty : Ty)
  | reveal (p : Place) (id : DeclId)
  | enlist (p : Place) (id : DeclId)
  | storeInit (id : DeclId) (init : Expr)
  | enterTag (p : Place) (tag : DeclId)
  | leaveTag (p : Place)
  | enterParams (p : Place)
  | leaveParams (p : Place) (function : DeclId)
  | enterBlock (p : Place)
  | leaveBlock (p : Place)
  | enterBody (p : Place) (function : DeclId)
  | leaveBody (p : Place) (body : List Stmt)
  /-- Any question to the store; only whether it fails matters. -/
  | query (ask : Store → Except Error Unit)

namespace Move

def Result : Move → Type
  | .declareVar .. | .declareField .. | .declareTag .. | .declareEnumerator .. | .declareFunc ..
  | .declareParam .. => DeclId
  | .reveal .. | .enlist .. | .storeInit .. | .query .. => Unit
  | .enterTag .. | .leaveTag .. | .enterParams .. | .leaveParams .. | .enterBlock ..
  | .leaveBlock .. | .enterBody .. | .leaveBody .. => Place

def action : (m : Move) → Action m.Result
  | .declareVar p name ty => UnitAnalysis.declareVar p name ty
  | .declareField p name ty => UnitAnalysis.declareField p name ty
  | .declareTag kind p name => UnitAnalysis.declareTag kind p name
  | .declareEnumerator p name value => UnitAnalysis.declareEnumerator p name value
  | .declareFunc p name returnTy => UnitAnalysis.declareFunc p name returnTy
  | .declareParam p function name ty => UnitAnalysis.declareParam p function name ty
  | .reveal p id => UnitAnalysis.reveal p id
  | .enlist p id => UnitAnalysis.enlist p id
  | .storeInit id init => UnitAnalysis.storeInit id init
  | .enterTag p tag => UnitAnalysis.enterTag p tag
  | .leaveTag p => UnitAnalysis.leaveTag p
  | .enterParams p => UnitAnalysis.enterParams p
  | .leaveParams p function => UnitAnalysis.leaveParams p function
  | .enterBlock p => UnitAnalysis.enterBlock p
  | .leaveBlock p => UnitAnalysis.leaveBlock p
  | .enterBody p function => UnitAnalysis.enterBody p function
  | .leaveBody p body => UnitAnalysis.leaveBody p body
  | .query ask => (do ask (← get) : Action Unit)

/-- The place and the declarations that a move is given exist. -/
def InRange (s : Store) : Move → Prop
  | .declareVar p _ _ | .declareField p _ _ | .declareTag _ p _ | .declareEnumerator p _ _
  | .declareFunc p _ _ | .leaveTag p | .enterParams p | .enterBlock p | .leaveBlock p
  | .leaveBody p _ => p.InRange s
  | .declareParam p id _ _ | .reveal p id | .enlist p id | .enterTag p id | .leaveParams p id
  | .enterBody p id => p.InRange s ∧ id < s.arena.size
  | .storeInit id _ => id < s.arena.size
  | .query _ => True

theorem step {s : Store} {m : Move} (h : m.InRange s) : s.Step (m.action.after s) := by
  cases m with
  | declareVar p name ty => exact .declareVar h name ty
  | declareField p name ty => exact .declareField h name ty
  | declareTag kind p name => exact .declareTag h kind name
  | declareEnumerator p name value => exact .declareEnumerator h name value
  | declareFunc p name returnTy => exact .declareFunc h name returnTy
  | declareParam p function name ty => exact .declareParam h.1 h.2 name ty
  | reveal p id => exact .reveal h.1 h.2
  | enlist p id => exact .enlist h.1 h.2
  | storeInit id init => exact .storeInit h init
  | enterTag p tag => exact .enterTag h.1 h.2
  | leaveTag p => exact .leaveTag h
  | enterParams p => exact .enterParams h
  | leaveParams p function => exact .leaveParams h.1 h.2
  | enterBlock p => exact .enterBlock h
  | leaveBlock p => exact .leaveBlock h
  | enterBody p function => exact .enterBody h.1 h.2
  | leaveBody p body => exact .leaveBody h body
  | query ask => exact .query ask

end Move

theorem Action.after_query {α : Type} (ask : Store → Except Error α) (s : Store) :
    after (do ask (← get) : Action α) s = s := by
  change after (ofExcept (ask s)) s = s
  cases ask s <;> rfl

theorem Store.Step.exists_move {s s' : Store} (h : s.Step s') :
    ∃ m : Move, m.InRange s ∧ s' = m.action.after s := by
  cases h with
  | declareVar hp name ty => exact ⟨.declareVar _ name ty, hp, rfl⟩
  | declareField hp name ty => exact ⟨.declareField _ name ty, hp, rfl⟩
  | declareTag hp kind name => exact ⟨.declareTag kind _ name, hp, rfl⟩
  | declareEnumerator hp name value => exact ⟨.declareEnumerator _ name value, hp, rfl⟩
  | declareFunc hp name returnTy => exact ⟨.declareFunc _ name returnTy, hp, rfl⟩
  | declareParam hp hid name ty => exact ⟨.declareParam _ _ name ty, ⟨hp, hid⟩, rfl⟩
  | reveal hp hid => exact ⟨.reveal _ _, ⟨hp, hid⟩, rfl⟩
  | enlist hp hid => exact ⟨.enlist _ _, ⟨hp, hid⟩, rfl⟩
  | storeInit hid init => exact ⟨.storeInit _ init, hid, rfl⟩
  | enterTag hp hid => exact ⟨.enterTag _ _, ⟨hp, hid⟩, rfl⟩
  | leaveTag hp => exact ⟨.leaveTag _, hp, rfl⟩
  | enterParams hp => exact ⟨.enterParams _, hp, rfl⟩
  | leaveParams hp hid => exact ⟨.leaveParams _ _, ⟨hp, hid⟩, rfl⟩
  | enterBlock hp => exact ⟨.enterBlock _, hp, rfl⟩
  | leaveBlock hp => exact ⟨.leaveBlock _, hp, rfl⟩
  | enterBody hp hid => exact ⟨.enterBody _ _, ⟨hp, hid⟩, rfl⟩
  | leaveBody hp body => exact ⟨.leaveBody _ body, hp, rfl⟩
  | query ask =>
      refine ⟨.query fun s => (ask s).map fun _ => (), trivial, ?_⟩
      exact (Action.after_query ask s).trans (Action.after_query _ s).symm

/-! ## Actions that fail without a trace -/

namespace Action

variable {α β : Type} {s : Store}

/-- Where the action fails, it leaves the store as it was. -/
def Atomic (x : Action α) (s : Store) : Prop :=
  ∀ ⦃e s'⦄, Fails x s e s' → s' = s

namespace Atomic

theorem throw (e : Error) : Atomic (MonadExcept.throw e : Action α) s := by
  intro e' s' h
  exact (fails_throw.mp h).2.symm

theorem of_not_fails {x : Action α} (h : ∀ e s', ¬ Fails x s e s') : x.Atomic s := by
  intro e s' hfails
  exact absurd hfails (h e s')

theorem get_bind {f : Store → Action β} (h : (f s).Atomic s) : (get >>= f).Atomic s :=
  h

theorem check (x : Except Error α) : Atomic (liftM x) s := by
  intro e s' hfails
  exact (fails_check.mp hfails).2.symm

theorem check_bind {x : Except Error α} {f : α → Action β}
    (h : ∀ a, x = .ok a → (f a).Atomic s) : Atomic (liftM x >>= f) s := by
  intro e s' hfails
  rcases fails_bind.mp hfails with hcheck | ⟨a, s₁, hgives, hrest⟩
  · exact check x hcheck
  · obtain ⟨ha, rfl⟩ := gives_check.mp hgives
    exact h a ha hrest

theorem ask_bind {query : Store → Except Error α} {f : α → Action β}
    (h : ∀ a, query s = .ok a → (f a).Atomic s) : Atomic (Effects.ask query >>= f) s := by
  intro e s' hfails
  rcases fails_bind.mp hfails with hask | ⟨a, s₁, hgives, hrest⟩
  · exact (fails_ask.mp hask).2.symm
  · obtain ⟨ha, rfl⟩ := gives_ask.mp hgives
    exact h a ha hrest

/-- After its last check an action may change the store, as long as nothing else can fail. -/
theorem bind_of_not_fails {x : Action α} {f : α → Action β} (h : x.Atomic s)
    (hnext : ∀ a s₁ e s', ¬ Fails (f a) s₁ e s') : (x >>= f).Atomic s := by
  intro e s' hfails
  rcases fails_bind.mp hfails with hfirst | ⟨a, s₁, -, hrest⟩
  · exact h hfirst
  · exact absurd hrest (hnext a s₁ e s')

end Atomic

end Action

section Atomic

variable {s : Store} {p : Place}

theorem atomic_declare (p : Place) (name : String) (kind : DeclKind) :
    (declare p name kind).Atomic s :=
  .of_not_fails fun _ _ => not_fails_modifyGet

theorem atomic_declareVar (p : Place) (name : String) (ty : Ty) : Atomic (declareVar p name ty) s :=
  .ask_bind fun _ _ => .check_bind fun _ _ => atomic_declare p name _

theorem atomic_declareField (p : Place) (name : String) (ty : Ty) :
    Atomic (declareField p name ty) s :=
  .ask_bind fun _ _ => .ask_bind fun _ _ => .check_bind fun _ _ => atomic_declare p name _

theorem atomic_declareTag (kind : TagKind) (p : Place) (name : String) :
    Atomic (declareTag kind p name) s :=
  .ask_bind fun _ _ => atomic_declare p name _

theorem atomic_declareEnumerator (p : Place) (name : String) (value : Option Int64) :
    Atomic (declareEnumerator p name value) s := by
  refine .ask_bind fun _ _ => .ask_bind fun _ _ => .ask_bind fun _ _ => ?_
  split
  · exact atomic_declare p name _
  · exact .check _

theorem atomic_declareFunc (p : Place) (name : String) (returnTy : Ty) :
    Atomic (declareFunc p name returnTy) s :=
  .ask_bind fun _ _ => atomic_declare p name _

theorem atomic_enlist (p : Place) (id : DeclId) : (enlist p id).Atomic s :=
  .get_bind (.check_bind fun _ _ => .of_not_fails fun _ _ => not_fails_modify)

theorem atomic_storeInit (id : DeclId) (init : Expr) : (storeInit id init).Atomic s :=
  .get_bind (.check_bind fun _ _ => .check_bind fun _ _ =>
    .of_not_fails fun _ _ => not_fails_modify)

theorem not_fails_openScope {e : Error} {s' : Store} : ¬ Fails (openScope p) s e s' :=
  not_fails_modifyGet

theorem atomic_openScope (p : Place) : (openScope p).Atomic s :=
  .of_not_fails fun _ _ => not_fails_openScope

theorem atomic_closeScope (p : Place) : (closeScope p).Atomic s := by
  refine .get_bind (.check_bind fun popped _ => ?_)
  refine Atomic.bind_of_not_fails (.of_not_fails fun _ _ => not_fails_modify) ?_
  intro _ _ _ _
  exact not_fails_pure

theorem atomic_enterTag (p : Place) (tag : DeclId) : (enterTag p tag).Atomic s := by
  refine .get_bind ?_
  split
  · exact (atomic_openScope p).bind_of_not_fails fun _ _ _ _ => not_fails_pure
  · exact .throw _

theorem atomic_leaveTag (p : Place) : (leaveTag p).Atomic s := by
  refine .get_bind ?_
  split
  · exact (atomic_closeScope p).bind_of_not_fails fun _ _ _ _ => not_fails_pure
  · exact .throw _

theorem atomic_enterBody (p : Place) (function : DeclId) : (enterBody p function).Atomic s := by
  refine .get_bind (.check_bind fun defined _ => ?_)
  cases defined with
  | true => exact .throw _
  | false =>
      refine .check_bind fun f _ => (atomic_openScope p).bind_of_not_fails ?_
      intro inner s₁ e s'
      simp only [fails_bind, not_fails_modify, not_fails_pure, false_or, and_false,
        exists_false, not_false_eq_true]

theorem atomic_query (ask : Store → Except Error Unit) :
    Atomic (do ask (← get) : Action Unit) s := by
  intro e s' h
  exact (fails_check.mp h).2.symm

end Atomic

/-! ## Actions that fail halfway -/

section Halfway

variable {s s' : Store} {p : Place} {function : DeclId} {e : Error}

theorem fails_checkFresh {name : String} {overloadable : Bool}
    (h : s.checkFresh p name overloadable = .error e) : e = .redefinition name := by
  simp only [Store.checkFresh] at h
  split at h
  · cases h
    rfl
  · cases h

theorem fails_checkObject {name : String} {ty : Ty} (h : checkObject name ty = .error e) :
    e = .voidObject name := by
  unfold checkObject at h
  split at h
  · cases h
    rfl
  · cases h

theorem Arena.fails_func {a : Arena} (h : a.func function = .error e) :
    ∃ what, e = .outOfOrder what := by
  unfold func at h
  split at h
  · cases h
  · cases h
    exact ⟨_, rfl⟩

/-- A declaration that is a function stays one when another declaration is added. -/
theorem Store.func_declared {f : Func} (h : s.arena.func function = .ok f) (name : String)
    (kind : DeclKind) : (s.declared p name kind).arena.func function = .ok f := by
  obtain ⟨d, hd, hkind⟩ := Arena.func_eq_ok_iff.mp h
  refine Arena.func_eq_ok_iff.mpr ⟨d, ?_, hkind⟩
  rw [Store.decl?_declared, if_neg (Nat.ne_of_lt (Arena.decl?_eq_some_lt hd))]
  exact hd

theorem fails_addParam {param : DeclId} (h : Fails (addParam function param) s e s') :
    s.arena.func function = .error e ∧ s' = s := by
  simp only [addParam, fails_bind, gives_get, gives_check, fails_check, not_fails_get,
    not_fails_modify, false_or, or_false, and_false, exists_false] at h
  obtain ⟨_, _, ⟨rfl, rfl⟩, hfunc, rfl⟩ := h
  exact ⟨hfunc, rfl⟩

/-- The parameter is declared before it turns out that there is no function to have it. -/
theorem fails_declareParam {name : String} {ty : Ty}
    (h : Fails (declareParam p function name ty) s e s') :
    ((e = .redefinition name ∨ e = .voidObject name) ∧ s' = s) ∨
      (∃ what, e = .outOfOrder what) ∧ (∀ f, s.arena.func function ≠ .ok f) ∧
        s' = s.declared p name (.var ty none) := by
  simp only [declareParam, fails_bind, gives_ask, gives_check, fails_ask, fails_check,
    not_fails_pure, or_false, and_false, exists_false] at h
  obtain ⟨hfresh, rfl⟩ | ⟨_, _, ⟨-, rfl⟩, h⟩ := h
  · exact .inl ⟨.inl (fails_checkFresh hfresh), rfl⟩
  · obtain ⟨hobject, rfl⟩ | ⟨_, _, ⟨-, rfl⟩, h⟩ := h
    · exact .inl ⟨.inr (fails_checkObject hobject), rfl⟩
    · obtain hdeclare | ⟨param, s₁, hdeclare, hadd⟩ := h
      · exact absurd hdeclare not_fails_modifyGet
      · obtain ⟨-, rfl⟩ := gives_declare hdeclare
        obtain ⟨hfunc, rfl⟩ := fails_addParam hadd
        refine .inr ⟨Arena.fails_func hfunc, ?_, rfl⟩
        intro f hf
        rw [Store.func_declared hf] at hfunc
        cases hfunc

theorem fails_closeScope (h : Fails (closeScope p) s e s') :
    s.scopes.parent? p.scope = none ∧ s' = s := by
  refine ⟨?_, atomic_closeScope p h⟩
  simp only [closeScope, fails_bind, gives_get, fails_check, not_fails_get, not_fails_modify,
    not_fails_pure, false_or, and_false, exists_false, or_false] at h
  obtain ⟨_, _, ⟨rfl, rfl⟩, hpop, rfl⟩ := h
  unfold ScopeTree.pop at hpop
  split at hpop
  · cases hpop
  · assumption

/-- The scope of the parameters is closed before the function is compared with others. -/
theorem fails_leaveParams (h : Fails (leaveParams p function) s e s') :
    (s.scopes.parent? p.scope = none ∧ s' = s) ∨
      (∃ outer, s.scopes.parent? p.scope = some outer) ∧ s' = s.closed p.scope := by
  simp only [leaveParams, fails_bind, gives_get, fails_check, not_fails_get, false_or] at h
  obtain hclose | ⟨outer, s₁, hclose, _, _, ⟨rfl, rfl⟩, h⟩ := h
  · exact .inl (fails_closeScope hclose)
  · obtain ⟨hparent, -, rfl⟩ := gives_closeScope hclose
    refine .inr ⟨⟨_, hparent⟩, ?_⟩
    obtain ⟨-, rfl⟩ | ⟨previous, _, hprevious, h⟩ := h
    · rfl
    · cases previous with
      | none => exact absurd h not_fails_pure
      | some earlier =>
          simp only [fails_bind, not_fails_set, not_fails_pure, and_false, exists_false,
            or_false] at h

/-- The body is stored before it turns out that there is no scope to leave. -/
theorem fails_leaveBody {body : List Stmt} (h : Fails (leaveBody p body) s e s') :
    ((∀ function ∈ p.function, ∀ f, s.arena.func function ≠ .ok f) ∧ s' = s) ∨
      s.scopes.parent? p.scope = none ∧ ∃ function f, p.function = some function ∧
        s.arena.func function = .ok f ∧
        s' = s.mapFunc function fun f => { f with body := some body } := by
  unfold leaveBody at h
  cases hfunction : p.function with
  | none =>
      rw [hfunction] at h
      exact .inl ⟨by simp, (fails_throw.mp h).2.symm⟩
  | some function =>
      rw [hfunction] at h
      simp only [fails_bind, gives_get, gives_check, gives_modify, fails_check, not_fails_get,
        not_fails_modify, not_fails_pure, false_or, and_false, exists_false, or_false] at h
      obtain ⟨_, _, ⟨rfl, rfl⟩, ⟨hfunc, rfl⟩ | ⟨f, _, ⟨hfunc, rfl⟩, _, _, rfl, hclose⟩⟩ := h
      · refine .inl ⟨?_, rfl⟩
        intro id hid f hf
        obtain rfl := Option.some.inj hid
        rw [hf] at hfunc
        cases hfunc
      · obtain ⟨hparent, rfl⟩ := fails_closeScope hclose
        exact .inr ⟨hparent, function, f, rfl, hfunc, rfl⟩

end Halfway

/-! ## Updates -/

/-- The declarations that a kind lists: the members of a context, the parameters of a function. -/
def DeclKind.listed : DeclKind → List DeclId
  | .unit members | .tag _ members => members
  | .func f => f.params
  | _ => []

/-- A list of the store mentions a declaration. -/
inductive Store.Lists (s : Store) (x : DeclId) : Prop where
  | listed {id : DeclId} {kind : DeclKind} (hkind : s.arena.kind? id = some kind)
      (hx : x ∈ kind.listed) : Store.Lists s x
  | visible {scope : ScopeId} (hx : x ∈ s.scopes.visible scope) : Store.Lists s x

/--
One update of a store.  Only scopes of the given kind come to show other
declarations, and whatever comes into a list exists or was in a list before.
-/
inductive Store.Update (touched : ScopeId → Prop) (s : Store) : Store → Prop where
  | declare (p : Place) (name : String) {kind : DeclKind} (hkind : kind.listed = []) :
      Update touched s (s.declared p name kind)
  | modify (id : DeclId) {change : DeclKind → DeclKind}
      (hchange : ∀ kind, ∀ x ∈ (change kind).listed, x ∈ kind.listed ∨ x < s.arena.size) :
      Update touched s { s with arena := s.arena.modifyKind id change }
  | enter (p : Place) : Update touched s (s.opened p)
  | reveal {scope : ScopeId} (htouched : touched scope) (hscope : scope < s.scopes.size)
      {ids : List DeclId} (hids : ∀ x ∈ ids, s.Lists x ∨ x < s.arena.size) :
      Update touched s (s.revealedAll scope ids)
  | close {scope : ScopeId} (htouched : touched scope) (hscope : scope < s.scopes.size) :
      Update touched s (s.closed scope)

/-- Updates one after the other. -/
abbrev Store.Updates (touched : ScopeId → Prop) : Store → Store → Prop :=
  Relation.ReflTransGen (Store.Update touched)

namespace Store.Update

variable {touched touched' : ScopeId → Prop} {s s' : Store} {x : DeclId} {q : ScopeId}

theorem mono (h : s.Update touched s') (hle : ∀ q, touched q → touched' q) :
    s.Update touched' s' := by
  cases h with
  | declare p name hkind => exact .declare p name hkind
  | modify id hchange => exact .modify id hchange
  | enter p => exact .enter p
  | reveal htouched hscope hids => exact .reveal (hle _ htouched) hscope hids
  | close htouched hscope => exact .close (hle _ htouched) hscope

theorem size_le (h : s.Update touched s') : s.arena.size ≤ s'.arena.size := by
  cases h <;> simp

theorem visible_eq (h : s.Update touched s') (hq : ¬ touched q) :
    s'.scopes.visible q = s.scopes.visible q := by
  cases h with
  | declare => rfl
  | modify => rfl
  | enter p => exact s.scopes.visible_push p.scope q
  | reveal htouched hscope hids =>
      refine (ScopeTree.visible_addAll hscope q _).trans (if_neg ?_)
      rintro rfl
      exact hq htouched
  | close htouched hscope =>
      refine (ScopeTree.visible_modifyVisible _ _ q _ hscope).trans (if_neg ?_)
      rintro rfl
      exact hq htouched

theorem lists (h : s.Update touched s') (hx : s'.Lists x) : s.Lists x ∨ x < s'.arena.size := by
  cases hx with
  | @visible scope hx =>
      cases h with
      | declare => exact .inl (.visible hx)
      | modify => exact .inl (.visible hx)
      | enter p =>
          rw [Store.opened, ScopeTree.visible_push] at hx
          exact .inl (.visible hx)
      | reveal htouched hscope hids =>
          rw [Store.revealedAll, ScopeTree.visible_addAll hscope] at hx
          split at hx
          · rcases List.mem_append.mp hx with hx | hx
            · exact .inl (.visible hx)
            · exact hids x hx
          · exact .inl (.visible hx)
      | close htouched hscope =>
          rw [Store.closed, ScopeTree.visible_modifyVisible _ _ _ _ hscope] at hx
          split at hx
          · contradiction
          · exact .inl (.visible hx)
  | @listed id kind hkind hx =>
      obtain ⟨d, hd, rfl⟩ := Arena.kind?_eq_some_iff.mp hkind
      cases h with
      | declare p name hnew =>
          rw [Store.decl?_declared] at hd
          split at hd
          · cases hd
            rw [hnew] at hx
            contradiction
          · exact .inl (.listed (Arena.kind?_eq_some_iff.mpr ⟨d, hd, rfl⟩) hx)
      | modify changed hchange =>
          rw [Arena.decl?_modifyKind] at hd
          split at hd
          · obtain ⟨d₀, hd₀, rfl⟩ := Option.map_eq_some_iff.mp hd
            rcases hchange d₀.kind x hx with hx | hx
            · exact .inl (.listed (Arena.kind?_eq_some_iff.mpr ⟨d₀, hd₀, rfl⟩) hx)
            · exact .inr (by simpa using hx)
          · exact .inl (.listed (Arena.kind?_eq_some_iff.mpr ⟨d, hd, rfl⟩) hx)
      | enter | reveal | close => exact .inl (.listed hkind hx)

end Store.Update

namespace Store.Updates

variable {touched touched' : ScopeId → Prop} {s s' : Store} {q : ScopeId}

theorem mono (h : s.Updates touched s') (hle : ∀ q, touched q → touched' q) :
    s.Updates touched' s' := by
  induction h with
  | refl => exact .refl
  | tail _ hupdate ih => exact ih.tail (hupdate.mono hle)

theorem visible_eq (h : s.Updates touched s') (hq : ¬ touched q) :
    s'.scopes.visible q = s.scopes.visible q := by
  induction h with
  | refl => rfl
  | tail _ hupdate ih => exact (hupdate.visible_eq hq).trans ih

/-- Every declaration that a list mentions exists. -/
theorem lists_lt (h : s.Updates touched s') (hs : ∀ x, s.Lists x → x < s.arena.size) :
    ∀ x, s'.Lists x → x < s'.arena.size := by
  induction h with
  | refl => exact hs
  | tail _ hupdate ih =>
      intro x hx
      rcases hupdate.lists hx with hold | hlt
      · exact Nat.lt_of_lt_of_le (ih x hold) hupdate.size_le
      · exact hlt

end Store.Updates

/-! ## What each move updates -/

section Gives

variable {s s' : Store} {p q : Place} {id : DeclId}

theorem exists_linked_of_leaveParams (h : Gives (leaveParams p id) s q s') :
    s.scopes.parent? p.scope = some q.scope ∧ q = { p with scope := q.scope } ∧
      ∃ previous, s' = (s.closed p.scope).linked id previous := by
  simp only [leaveParams, gives_bind, gives_get, gives_check] at h
  obtain ⟨outer, s₁, hclose, _, _, ⟨rfl, rfl⟩, previous, _, ⟨-, rfl⟩, h⟩ := h
  obtain ⟨hparent, hplace, rfl⟩ := gives_closeScope hclose
  cases previous with
  | none =>
      obtain ⟨rfl, rfl⟩ := gives_pure.mp h
      exact ⟨hparent, hplace, none, rfl⟩
  | some earlier =>
      simp only [gives_bind, gives_set, gives_pure] at h
      obtain ⟨_, _, rfl, rfl, rfl⟩ := h
      exact ⟨hparent, hplace, some earlier, rfl⟩

end Gives

section Updates

variable {touched : ScopeId → Prop} {s : Store} {p : Place}

theorem Action.updates_after {α : Type} {x : Action α}
    (hgives : ∀ a s', Gives x s a s' → s.Updates touched s')
    (hfails : ∀ e s', Fails x s e s' → s.Updates touched s') :
    s.Updates touched (x.after s) := by
  unfold after
  cases hx : x.run s with
  | ok a s' => exact hgives a s' hx
  | error e s' => exact hfails e s' hx

theorem Action.Atomic.updates_after {α : Type} {x : Action α} (h : x.Atomic s)
    (hgives : ∀ a s', Gives x s a s' → s.Updates touched s') :
    s.Updates touched (x.after s) := by
  refine Action.updates_after hgives fun e s' hfails => ?_
  rw [h hfails]

theorem Store.Update.mapFunc (id : DeclId) {change : Func → Func}
    (h : ∀ f, ∀ x ∈ (change f).params, x ∈ f.params ∨ x < s.arena.size) :
    s.Update touched (s.mapFunc id change) := by
  refine .modify id fun kind x hx => ?_
  cases kind with
  | func f => exact h f x hx
  | _ => exact .inl hx

theorem Store.Update.mapFunc_of_params_eq (id : DeclId) {change : Func → Func}
    (h : ∀ f, (change f).params = f.params) : s.Update touched (s.mapFunc id change) := by
  refine .mapFunc id fun f x hx => .inl ?_
  rwa [h f] at hx

theorem Store.Update.enlisted (p : Place) {id : DeclId} (hid : id < s.arena.size) :
    s.Update touched (s.enlisted p id) := by
  refine .modify p.context fun kind x hx => ?_
  cases kind with
  | unit members | tag _ members =>
      rcases List.mem_append.mp hx with hx | hx
      · exact .inl hx
      · exact .inr (List.mem_singleton.mp hx ▸ hid)
  | _ => exact .inl hx

theorem Store.Update.setInit (id : DeclId) (init : Expr) :
    s.Update touched { s with arena := s.arena.modifyKind id (.setInit init) } := by
  refine .modify id fun kind x hx => .inl ?_
  cases kind with
  | var => contradiction
  | _ => exact hx

theorem updates_declareParam (p : Place) (function : DeclId) (name : String) (ty : Ty) :
    s.Updates touched (Action.after (declareParam p function name ty) s) := by
  have hdeclare : s.Updates touched (s.declared p name (.var ty none)) :=
    .single (.declare p name rfl)
  refine Action.updates_after ?_ ?_
  · intro id s' h
    obtain ⟨-, -, -, rfl⟩ := gives_declareParam h
    refine hdeclare.tail (.mapFunc function fun f x hx => ?_)
    rcases List.mem_append.mp hx with hx | hx
    · exact .inl hx
    · exact .inr (by simp [List.mem_singleton.mp hx])
  · intro e s' h
    rcases fails_declareParam h with ⟨-, rfl⟩ | ⟨-, -, rfl⟩
    · exact .refl
    · exact hdeclare

theorem updates_enterTag (p : Place) (tag : DeclId) :
    s.Updates touched ((enterTag p tag).after s) := by
  refine (atomic_enterTag p tag).updates_after fun q s' h => ?_
  obtain ⟨-, rfl⟩ := gives_enterTag h
  exact .single (.enter p)

theorem updates_closeScope (hp : p.scope < s.scopes.size) (htouched : touched p.scope) :
    s.Updates touched ((closeScope p).after s) := by
  refine (atomic_closeScope p).updates_after fun q s' h => ?_
  obtain ⟨-, -, rfl⟩ := gives_closeScope h
  exact .single (.close htouched hp)

theorem updates_leaveTag (hp : p.scope < s.scopes.size) (htouched : touched p.scope) :
    s.Updates touched ((leaveTag p).after s) := by
  refine (atomic_leaveTag p).updates_after fun q s' h => ?_
  obtain rfl := gives_leaveTag h
  exact .single (.close htouched hp)

theorem updates_leaveParams (function : DeclId) (hp : p.scope < s.scopes.size)
    (htouched : touched p.scope) : s.Updates touched ((leaveParams p function).after s) := by
  refine Action.updates_after ?_ ?_
  · intro q s' h
    obtain ⟨-, -, previous, rfl⟩ := exists_linked_of_leaveParams h
    have hclose : s.Updates touched (s.closed p.scope) := .single (.close htouched hp)
    cases previous with
    | none => exact hclose
    | some earlier => exact hclose.tail (.mapFunc_of_params_eq function fun _ => rfl)
  · intro e s' h
    rcases fails_leaveParams h with ⟨-, rfl⟩ | ⟨-, rfl⟩
    · exact .refl
    · exact .single (.close htouched hp)

theorem updates_leaveBody (body : List Stmt) (hp : p.scope < s.scopes.size)
    (htouched : touched p.scope) : s.Updates touched ((leaveBody p body).after s) := by
  refine Action.updates_after ?_ ?_
  · intro q s' h
    obtain ⟨function, -, -, -, rfl⟩ := gives_leaveBody h
    have hbody : s.Updates touched (s.mapFunc function fun f => { f with body := some body }) :=
      .single (.mapFunc_of_params_eq function fun _ => rfl)
    exact hbody.tail (.close htouched hp)
  · intro e s' h
    rcases fails_leaveBody h with ⟨-, rfl⟩ | ⟨-, function, f, -, -, rfl⟩
    · exact .refl
    · exact .single (.mapFunc_of_params_eq function fun _ => rfl)

theorem updates_enterBody (p : Place) (function : DeclId) (htouched : touched s.scopes.size) :
    s.Updates touched ((enterBody p function).after s) := by
  refine (atomic_enterBody p function).updates_after fun q s' h => ?_
  obtain ⟨f, -, hfunc, -, rfl⟩ := gives_enterBody h
  obtain ⟨d, hd, hkind⟩ := Arena.func_eq_ok_iff.mp hfunc
  refine Relation.ReflTransGen.tail (.single (.enter p)) (.reveal htouched ?_ fun x hx => .inl ?_)
  · simp [Store.opened]
  · exact .listed (Arena.kind?_eq_some_iff.mpr ⟨d, hd, hkind⟩) hx

end Updates

namespace Move

/-- The scope, of those that a move finds, in which it changes what is visible. -/
def scope? : Move → Option ScopeId
  | .reveal p _ | .leaveTag p | .leaveParams p _ | .leaveBlock p | .leaveBody p _ => some p.scope
  | _ => none

/-- The scope that a move changes, and the scopes that are not there yet. -/
def Touches (s : Store) (m : Move) (q : ScopeId) : Prop :=
  m.scope? = some q ∨ s.scopes.size ≤ q

theorem updates {s : Store} {m : Move} (h : m.InRange s) :
    s.Updates (m.Touches s) (m.action.after s) := by
  cases m with
  | declareVar p name ty =>
      refine (atomic_declareVar p name ty).updates_after fun id s' hgives => ?_
      obtain ⟨-, -, -, rfl⟩ := gives_declareVar hgives
      exact .single (.declare p name rfl)
  | declareField p name ty =>
      refine (atomic_declareField p name ty).updates_after fun id s' hgives => ?_
      obtain ⟨-, -, -, -, rfl⟩ := gives_declareField hgives
      exact .single (.declare p name rfl)
  | declareTag kind p name =>
      refine (atomic_declareTag kind p name).updates_after fun id s' hgives => ?_
      obtain ⟨-, -, rfl⟩ := gives_declareTag hgives
      exact .single (.declare p name rfl)
  | declareEnumerator p name value =>
      refine (atomic_declareEnumerator p name value).updates_after fun id s' hgives => ?_
      obtain ⟨-, -, v, -, rfl⟩ := gives_declareEnumerator hgives
      exact .single (.declare p name rfl)
  | declareFunc p name returnTy =>
      refine (atomic_declareFunc p name returnTy).updates_after fun id s' hgives => ?_
      obtain ⟨-, -, rfl⟩ := gives_declareFunc hgives
      exact .single (.declare p name rfl)
  | declareParam p function name ty => exact updates_declareParam p function name ty
  | reveal p id =>
      have hreveal : s.Update (Touches s (.reveal p id)) (s.revealedAll p.scope [id]) := by
        refine .reveal (.inl rfl) h.1.scope_lt fun x hx => ?_
        exact .inr (List.mem_singleton.mp hx ▸ h.2)
      exact .single hreveal
  | enlist p id =>
      refine (atomic_enlist p id).updates_after fun _ s' hgives => ?_
      obtain rfl := gives_enlist hgives
      exact .single (.enlisted p h.2)
  | storeInit id init =>
      refine (atomic_storeInit id init).updates_after fun _ s' hgives => ?_
      obtain ⟨-, stored, -, -, rfl⟩ := gives_storeInit hgives
      exact .single (.setInit id stored)
  | enterTag p tag => exact updates_enterTag p tag
  | leaveTag p => exact updates_leaveTag h.scope_lt (.inl rfl)
  | enterParams p => exact .single (.enter p)
  | leaveParams p function => exact updates_leaveParams function h.1.scope_lt (.inl rfl)
  | enterBlock p => exact .single (.enter p)
  | leaveBlock p => exact updates_closeScope h.scope_lt (.inl rfl)
  | enterBody p function => exact updates_enterBody p function (.inr (Nat.le_refl _))
  | leaveBody p body => exact updates_leaveBody body h.scope_lt (.inl rfl)
  | query ask =>
      rw [show (query ask).action.after s = s from Action.after_query ask s]

end Move

/-- Whatever actions are taken, the lists of the store mention existing declarations only. -/
theorem Store.lists_lt_of_steps {s : Store} (h : Relation.ReflTransGen Store.Step .empty s) :
    ∀ x, s.Lists x → x < s.arena.size := by
  induction h with
  | refl =>
      intro x hx
      cases hx with
      | @listed id kind hkind hx =>
          obtain ⟨d, hd, rfl⟩ := Arena.kind?_eq_some_iff.mp hkind
          obtain rfl : id = 0 := Nat.lt_one_iff.mp (Arena.decl?_eq_some_lt hd)
          cases hd
          contradiction
      | @visible scope hx =>
          cases scope with
          | zero => contradiction
          | succ n => contradiction
  | tail _ hstep ih =>
      obtain ⟨m, hm, rfl⟩ := hstep.exists_move
      exact (Move.updates hm).lists_lt ih

/-! ## What is left of a move that fails -/

/-- The store that a failing move leaves, given the store it fails in and the error. -/
def Move.Residue (s : Store) (e : Error) (s' : Store) : Move → Prop
  | .declareParam p function name ty =>
      ((e = .redefinition name ∨ e = .voidObject name) ∧ s' = s) ∨
        (∃ what, e = .outOfOrder what) ∧ (∀ f, s.arena.func function ≠ .ok f) ∧
          s' = s.declared p name (.var ty none) ∧ ¬ s'.Lists s.arena.size
  | .leaveParams p _ =>
      (p.scope = ScopeTree.root ∧ s' = s) ∨ (p.scope ≠ ScopeTree.root ∧ s' = s.closed p.scope)
  | .leaveBody p body =>
      ((∀ function ∈ p.function, ∀ f, s.arena.func function ≠ .ok f) ∧ s' = s) ∨
        p.scope = ScopeTree.root ∧ ∃ function f, p.function = some function ∧
          s.arena.func function = .ok f ∧
          s' = s.mapFunc function fun f => { f with body := some body }
  | _ => s' = s

theorem ScopeTree.Rooted.parent?_eq_none_iff {t : ScopeTree} (h : t.Rooted) {id : ScopeId}
    (hid : id < t.size) : t.parent? id = none ↔ id = ScopeTree.root := by
  constructor
  · intro hnone
    by_contra hne
    obtain ⟨parent, -, hparent, -⟩ := h.parent_lt (Nat.pos_of_ne_zero hne) hid
    rw [hnone] at hparent
    cases hparent
  · rintro rfl
    exact h.root.1

/-- The variable that a failed parameter leaves behind is in no list. -/
theorem Store.not_lists_declared {s : Store} (h : ∀ x, s.Lists x → x < s.arena.size) (p : Place)
    (name : String) {kind : DeclKind} (hkind : kind.listed = []) :
    ¬ (s.declared p name kind).Lists s.arena.size := by
  intro hlists
  cases hlists with
  | @listed id k hk hx =>
      obtain ⟨d, hd, rfl⟩ := Arena.kind?_eq_some_iff.mp hk
      rw [Store.decl?_declared] at hd
      split at hd
      · cases hd
        rw [hkind] at hx
        contradiction
      · exact Nat.lt_irrefl _ (h _ (.listed (Arena.kind?_eq_some_iff.mpr ⟨d, hd, rfl⟩) hx))
  | visible hx => exact Nat.lt_irrefl _ (h _ (.visible hx))

/-- A failing move leaves its residue, in every store that a sequence of moves leads to. -/
theorem Move.residue_of_fails {s s' : Store} (hs : Relation.ReflTransGen Store.Step .empty s)
    {m : Move} (hm : m.InRange s) {e : Error} (h : Fails m.action s e s') : m.Residue s e s' := by
  have hscopes := (Store.evolves_of_steps hs).scopes.rooted
  cases m with
  | declareVar p name ty => exact atomic_declareVar p name ty h
  | declareField p name ty => exact atomic_declareField p name ty h
  | declareTag kind p name => exact atomic_declareTag kind p name h
  | declareEnumerator p name value => exact atomic_declareEnumerator p name value h
  | declareFunc p name returnTy => exact atomic_declareFunc p name returnTy h
  | declareParam p function name ty =>
      rcases fails_declareParam h with hsame | ⟨herror, hfunc, rfl⟩
      · exact .inl hsame
      · exact .inr ⟨herror, hfunc, rfl,
          Store.not_lists_declared (Store.lists_lt_of_steps hs) p name rfl⟩
  | reveal p id => exact absurd h not_fails_modify
  | enlist p id => exact atomic_enlist p id h
  | storeInit id init => exact atomic_storeInit id init h
  | enterTag p tag => exact atomic_enterTag p tag h
  | leaveTag p => exact atomic_leaveTag p h
  | enterParams p => exact absurd h not_fails_openScope
  | leaveParams p function =>
      rcases fails_leaveParams h with ⟨hnone, rfl⟩ | ⟨⟨outer, hsome⟩, rfl⟩
      · exact .inl ⟨(hscopes.parent?_eq_none_iff hm.1.scope_lt).mp hnone, rfl⟩
      · refine .inr ⟨fun hroot => ?_, rfl⟩
        rw [hroot, hscopes.root.1] at hsome
        cases hsome
  | enterBlock p => exact absurd h not_fails_openScope
  | leaveBlock p => exact atomic_closeScope p h
  | enterBody p function => exact atomic_enterBody p function h
  | leaveBody p body =>
      rcases fails_leaveBody h with hsame | ⟨hnone, hbody⟩
      · exact .inl hsame
      · exact .inr ⟨(hscopes.parent?_eq_none_iff hm.scope_lt).mp hnone, hbody⟩
  | query ask => exact atomic_query ask h

/-- A parameter `y` of the variable `x`, which stays declared although `x` is no function. -/
theorem Move.residue_failed_param : ∃ s s' : Store, ∃ e,
    s = Action.after (UnitAnalysis.declareVar .top "x" (.ofBuiltin .vi8)) .empty ∧
    Fails (Move.declareParam .top 1 "y" (.ofBuiltin .vi8)).action s e s' ∧ s'.arena.size = 3 ∧
    (Move.declareParam .top 1 "y" (.ofBuiltin .vi8)).Residue s e s' := by
  refine ⟨_, _, _, rfl, rfl, ?_, Move.residue_of_fails (.single (.declareVar ?_ "x" _)) ?_ rfl⟩
  · decide
  · exact ⟨by decide, by decide, by nofun⟩
  · exact ⟨⟨by decide, by decide, by nofun⟩, by decide⟩

end UnitAnalysis
