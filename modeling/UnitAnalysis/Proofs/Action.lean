import Mathlib.Data.List.Forall2
import UnitAnalysis.Access

/-!
# Successful and failing actions

`Action.Gives x s a s'` says that the action `x` succeeds from the store `s`,
with the result `a` and the store `s'`.  There is one equivalence for each way
to build an action, so that the success of a composed action comes apart into
the successes of its parts.  Checks in `Except` come apart in the same way, and
so do the failures of an action, `Action.Fails x s e s'`: a composed action fails
in its first part, or in its second after the first has succeeded.
-/

namespace UnitAnalysis

/-! ## Checks -/

namespace Check

variable {ε α β : Type}

theorem ok_bind (a : α) (f : α → Except ε β) : ((.ok a : Except ε α) >>= f) = f a := rfl

@[simp] theorem bind_eq_ok {x : Except ε α} {f : α → Except ε β} {b : β} :
    (x >>= f) = .ok b ↔ ∃ a, x = .ok a ∧ f a = .ok b := by
  cases x <;> simp [bind, Except.bind]

@[simp] theorem pure_eq_ok {a b : α} :
    (pure a : Except ε α) = .ok b ↔ a = b := by
  simp [pure, Except.pure]

@[simp] theorem throw_ne_ok {e : ε} {a : α} :
    (throw e : Except ε α) ≠ .ok a := by
  simp [throw, throwThe, MonadExceptOf.throw]

@[simp] theorem mapError_eq_ok {result : Except ε α} {wrap : ε → β} {a : α} :
    result.mapError wrap = .ok a ↔ result = .ok a := by
  cases result <;> simp [Except.mapError]

@[simp] theorem map_eq_ok {x : Except ε α} {f : α → β} {b : β} :
    x.map f = .ok b ↔ ∃ a, x = .ok a ∧ f a = b := by
  cases x <;> simp [Except.map]

theorem isOk_iff {x : Except ε α} : x.isOk = true ↔ ∃ a, x = .ok a := by
  cases x <;> simp [Except.isOk, Except.toBool]

theorem exists_ok_and {x : Except ε α} {P : α → Prop} (h : x.isOk = true)
    (hP : ∀ a, x = .ok a → P a) : ∃ a, x = .ok a ∧ P a := by
  cases x with
  | error e => cases h
  | ok a => exact ⟨a, rfl, hP a rfl⟩

theorem exists_ok_of_any {x : Except ε α} {f : α → Bool} {P : α → Prop}
    (h : x.toOption.any f = true) (hP : ∀ a, f a = true → P a) : ∃ a, x = .ok a ∧ P a := by
  cases x with
  | error e => cases h
  | ok a => exact ⟨a, rfl, hP a h⟩

/-- All results of a successful `mapM` are results of its function, in order. -/
theorem forall₂_of_mapM_eq_ok {f : α → Except ε β} {as : List α} {bs : List β}
    (h : as.mapM f = .ok bs) : List.Forall₂ (fun a b => f a = .ok b) as bs := by
  induction as generalizing bs with
  | nil =>
      simp only [List.mapM_nil, pure_eq_ok] at h
      subst h
      exact .nil
  | cons a as ih =>
      simp only [List.mapM_cons, bind_eq_ok, pure_eq_ok] at h
      obtain ⟨b, hb, bs, hbs, rfl⟩ := h
      exact .cons hb (ih hbs)

theorem exists_of_mem_mapM {f : α → Except ε β} {as : List α} {bs : List β}
    (h : as.mapM f = .ok bs) {b : β} (hb : b ∈ bs) : ∃ a ∈ as, f a = .ok b := by
  have hall := forall₂_of_mapM_eq_ok h
  clear h
  induction hall with
  | nil => contradiction
  | cons hfirst _ ih =>
      rcases List.mem_cons.mp hb with rfl | hb
      · exact ⟨_, List.mem_cons_self, hfirst⟩
      · obtain ⟨a, ha, hfa⟩ := ih hb
        exact ⟨a, List.mem_cons_of_mem _ ha, hfa⟩

end Check

/-! ## Actions -/

namespace Action

variable {α β : Type} {s s' : Store}

def Gives (x : Action α) (s : Store) (a : α) (s' : Store) : Prop :=
  x.run s = .ok a s'

@[simp] theorem gives_pure {a b : α} :
    Gives (pure a) s b s' ↔ a = b ∧ s = s' := by
  simp [Gives]

@[simp] theorem gives_bind {x : Action α} {f : α → Action β} {b : β} :
    Gives (x >>= f) s b s' ↔ ∃ a s₁, Gives x s a s₁ ∧ Gives (f a) s₁ b s' := by
  unfold Gives
  rw [EStateM.run_bind]
  cases hx : EStateM.run x s with
  | error e t => simp
  | ok a t =>
      constructor
      · intro h
        exact ⟨a, t, rfl, h⟩
      · rintro ⟨a', t', h, hf⟩
        cases h
        exact hf

@[simp] theorem not_gives_throw {e : Error} {a : α} :
    ¬ Gives (throw e) s a s' := by
  intro h
  cases h

@[simp] theorem gives_get {t : Store} :
    Gives get s t s' ↔ s = t ∧ s = s' := by
  simp [Gives]

@[simp] theorem gives_set {t : Store} {u : PUnit} :
    Gives (set t) s u s' ↔ t = s' := by
  simp [Gives]

@[simp] theorem gives_modify {change : Store → Store} {u : PUnit} :
    Gives (modify change) s u s' ↔ change s = s' := by
  simp [Gives]

@[simp] theorem gives_modifyGet {change : Store → α × Store} {a : α} :
    Gives (modifyGet change) s a s' ↔ (change s).1 = a ∧ (change s).2 = s' := by
  simp [Gives]

@[simp] theorem gives_check {x : Except Error α} {a : α} :
    Gives (liftM x) s a s' ↔ x = .ok a ∧ s = s' := by
  change Gives (ofExcept x) s a s' ↔ x = .ok a ∧ s = s'
  cases x with
  | error e => simp [ofExcept]
  | ok b => simp [ofExcept]

@[simp] theorem gives_ask {query : Store → Except Error α} {a : α} :
    Gives (Effects.ask query) s a s' ↔ query s = .ok a ∧ s = s' := by
  change Gives (get >>= fun t => liftM (query t)) s a s' ↔ query s = .ok a ∧ s = s'
  simp only [gives_bind, gives_get, gives_check]
  grind

/-! ## Failures -/

def Fails (x : Action α) (s : Store) (e : Error) (s' : Store) : Prop :=
  x.run s = .error e s'

variable {e : Error}

def succeeds (x : Action α) (s : Store) : Bool :=
  match x.run s with
  | .ok _ _ => true
  | .error _ _ => false

theorem exists_gives_of_succeeds {x : Action α} (h : succeeds x s = true) :
    ∃ a s', Gives x s a s' := by
  unfold succeeds at h
  split at h
  · rename_i a s' hrun
    exact ⟨a, s', hrun⟩
  · contradiction

theorem exists_fails_of_not_gives {x : Action α} (h : ∀ a s', ¬ Gives x s a s') :
    ∃ e s', Fails x s e s' := by
  cases hx : x.run s with
  | ok a s' => exact absurd hx (h a s')
  | error e s' => exact ⟨e, s', hx⟩

@[simp] theorem not_fails_pure {a : α} : ¬ Fails (pure a) s e s' := by
  simp [Fails]

@[simp] theorem fails_throw {e' : Error} :
    Fails (throw e' : Action α) s e s' ↔ e' = e ∧ s = s' := by
  change (.error e' s : EStateM.Result Error Store α) = .error e s' ↔ e' = e ∧ s = s'
  simp

@[simp] theorem fails_bind {x : Action α} {f : α → Action β} :
    Fails (x >>= f) s e s' ↔
      Fails x s e s' ∨ ∃ a s₁, Gives x s a s₁ ∧ Fails (f a) s₁ e s' := by
  unfold Fails Gives
  rw [EStateM.run_bind]
  cases hx : EStateM.run x s with
  | error e' t => simp
  | ok a t =>
      constructor
      · intro h
        exact .inr ⟨a, t, rfl, h⟩
      · rintro (h | ⟨a', t', h, hf⟩)
        · cases h
        · cases h
          exact hf

@[simp] theorem not_fails_get : ¬ Fails get s e s' := by
  simp [Fails]

@[simp] theorem not_fails_set {t : Store} : ¬ Fails (set t) s e s' := by
  simp [Fails]

@[simp] theorem not_fails_modify {change : Store → Store} : ¬ Fails (modify change) s e s' := by
  simp [Fails]

@[simp] theorem not_fails_modifyGet {change : Store → α × Store} :
    ¬ Fails (modifyGet change) s e s' := by
  simp [Fails]

@[simp] theorem fails_check {x : Except Error α} :
    Fails (liftM x) s e s' ↔ x = .error e ∧ s = s' := by
  change Fails (ofExcept x) s e s' ↔ x = .error e ∧ s = s'
  cases x with
  | error e' => simp [ofExcept]
  | ok a => simp [ofExcept]

@[simp] theorem fails_ask {query : Store → Except Error α} :
    Fails (Effects.ask query : Action α) s e s' ↔ query s = .error e ∧ s = s' := by
  change Fails (get >>= fun t => liftM (query t)) s e s' ↔ query s = .error e ∧ s = s'
  simp only [fails_bind, gives_get, not_fails_get, fails_check]
  grind

end Action

end UnitAnalysis
