import Mathlib.Data.List.Nodup
import UnitAnalysis.Proofs.Progress

/-!
# Numbers of enumerators

An enumerator has the value that is written for it, or else the one after its
predecessor's, which is looked for in the members that the enum has so far.  The
number of an enumerator can be told from what is written alone: it counts on from
the nearest value, or from the beginning (`HasNumber`).

Every body of an enum, well-formed or not, begins with some enumerators
(`exists_enumerators`), and these are what is read of it before the first fault
(`Enumerators.exists_read`).  The analysis goes through them and keeps one invariant
(`Store.Numbering`): those that it has passed are the members of the enum, each with
its number.

Main statement: `EnumTree.analyze_numbers`.
-/

namespace UnitAnalysis

open UnitAnalysis.Action UnitAnalysis.Check

/-! ## Numbers -/

/-- An enumerator as it is written. -/
structure Enumerator where
  name : String
  value : Option Int64
  deriving DecidableEq, Repr

/--
The number of one of some enumerators: its own value, or the nearest value before it
plus the distance from there, or its index if no value is written up to it.
-/
inductive HasNumber (es : List Enumerator) (i : Nat) : Int → Prop where
  | given {j : Nat} {e : Enumerator} {v : Int64} (hj : j ≤ i) (he : es[j]? = some e)
      (hv : e.value = some v) (hafter : ∀ k, j < k → k ≤ i → ∀ x ∈ es[k]?, x.value = none) :
      HasNumber es i (v.toInt + (i - j : Nat))
  | counted (hnone : ∀ k ≤ i, ∀ x ∈ es[k]?, x.value = none) : HasNumber es i i

/-- An enumerator without a value whose predecessor has the largest number. -/
def PastRange (es : List Enumerator) (i : Nat) : Prop :=
  ∃ j e, i = j + 1 ∧ es[i]? = some e ∧ e.value = none ∧ HasNumber es j Int64.maxValue.toInt

namespace HasNumber

variable {es : List Enumerator} {i : Nat} {e : Enumerator} {m n : Int}

theorem own (he : es[i]? = some e) {v : Int64} (hv : e.value = some v) :
    HasNumber es i v.toInt := by
  have h : HasNumber es i (v.toInt + (i - i : Nat)) :=
    .given (Nat.le_refl i) he hv fun k hlt hle => by omega
  simpa using h

theorem zero (he : es[0]? = some e) (hv : e.value = none) : HasNumber es 0 0 := by
  refine .counted fun k hk x hx => ?_
  obtain rfl : k = 0 := by omega
  obtain rfl := Option.some.inj (he.symm.trans hx)
  exact hv

theorem succ (h : HasNumber es i n) (he : es[i + 1]? = some e) (hv : e.value = none) :
    HasNumber es (i + 1) (n + 1) := by
  have hlast : ∀ x ∈ es[i + 1]?, x.value = none := by
    intro x hx
    obtain rfl := Option.some.inj (he.symm.trans hx)
    exact hv
  cases h with
  | @given j d v hj hd hvalue hafter =>
      have hnext : HasNumber es (i + 1) (v.toInt + (i + 1 - j : Nat)) := by
        refine .given (by omega) hd hvalue fun k hlt hle => ?_
        rcases Nat.lt_or_eq_of_le hle with hle | rfl
        · exact hafter k hlt (by omega)
        · exact hlast
      have hcount : v.toInt + (i - j : Nat) + 1 = v.toInt + (i + 1 - j : Nat) := by omega
      rwa [hcount]
  | counted hnone =>
      refine .counted fun k hk => ?_
      rcases Nat.lt_or_eq_of_le hk with hk | rfl
      · exact hnone k (by omega)
      · exact hlast

theorem unique (hm : HasNumber es i m) (hn : HasNumber es i n) : m = n := by
  cases hm with
  | @given j d v hj hd hv hafter =>
      cases hn with
      | @given j' d' v' hj' hd' hv' hafter' =>
          -- The later one of two different positions would have no value.
          rcases Nat.lt_trichotomy j j' with hlt | rfl | hlt
          · rw [hafter j' hlt hj' d' hd'] at hv'
            cases hv'
          · obtain rfl := Option.some.inj (hd.symm.trans hd')
            rw [Option.some.inj (hv.symm.trans hv')]
          · rw [hafter' j hlt hj d hd] at hv
            cases hv
      | counted hnone =>
          rw [hnone j hj d hd] at hv
          cases hv
  | counted hnone =>
      cases hn with
      | @given j d v hj hd hv hafter =>
          rw [hnone j hj d hd] at hv
          cases hv
      | counted => rfl

end HasNumber

theorem toInt_add_one {v : Int64} (h : v ≠ Int64.maxValue) : (v + 1).toInt = v.toInt + 1 := by
  have hlt := Int64.toInt_lt v
  have hge := Int64.le_toInt v
  have hne : v.toInt ≠ Int64.maxValue.toInt := fun heq => h (Int64.toInt_inj.mp heq)
  rw [Int64.toInt_maxValue] at hne
  rw [Int64.toInt_add, Int64.toInt_one, Int.bmod_eq_of_le] <;> omega

/-! ## What is written -/

/-- The tokens of an enumerator. -/
def Enumerator.tokens : Enumerator → List Token
  | ⟨name, none⟩ => [.name name]
  | ⟨name, some v⟩ => [.name name, .operator .assign, .int v]

/-- The enumerator at the beginning of some tokens, with its value if it has one. -/
structure Enumerator.Begins (e : Enumerator) (ts rest : List Token) : Prop where
  eq : ts = e.tokens ++ rest
  whole : e.value = none → rest.head? ≠ some (.operator .assign)

/--
The enumerators at the beginning of some tokens, with a comma between each and the next.
They end where no comma stands after one, or where no other one begins after a comma.
-/
inductive Enumerators : List Token → List Enumerator → List Token → Prop where
  | none {ts : List Token} (hnone : ∀ e rest, ¬ Enumerator.Begins e ts rest) :
      Enumerators ts [] ts
  | last {e : Enumerator} {ts rest : List Token} (he : e.Begins ts rest)
      (hcomma : rest.head? ≠ some (.mark .comma)) : Enumerators ts [e] rest
  | more {e : Enumerator} {es : List Enumerator} {ts after rest : List Token}
      (he : e.Begins ts (.mark .comma :: after)) (hes : Enumerators after es rest) :
      Enumerators ts (e :: es) rest

/-! ## What is read -/

/-- The tree of an enumerator. -/
def Enumerator.tree (e : Enumerator) : EnumeratorTree :=
  ⟨.ok e.name, e.value.map .ok⟩

/-- Declares an enumerator and makes it a member of its enum. -/
def Enumerator.add (p : Place) (e : Enumerator) : Action Unit := do
  let id ← declareEnumerator p e.name e.value
  reveal p id
  enlist p id

theorem Enumerator.faults_tree (e : Enumerator) : e.tree.faults = [] := by
  obtain ⟨name, _ | v⟩ := e <;> rfl

theorem Enumerator.faults_trees (es : List Enumerator) :
    (es.map Enumerator.tree).flatMap EnumeratorTree.faults = [] := by
  simp [Enumerator.faults_tree]

theorem Enumerator.analyze_tree (e : Enumerator) (p : Place) : e.tree.analyze p = e.add p := by
  obtain ⟨name, _ | v⟩ := e <;> rfl

/-- The first fault of an enumerator is what its analysis ends with. -/
theorem EnumeratorTree.fails_of_faults {tree : EnumeratorTree} {fault : Fault}
    (h : tree.faults.head? = some fault) (p : Place) (s : Store) :
    Fails (tree.analyze p) s fault.error s := by
  obtain ⟨name, value⟩ := tree
  rcases name with _ | name <;> rcases value with _ | _ | v <;> cases h <;> rfl

namespace Enumerator.Begins

variable {e : Enumerator} {ts rest : List Token}

theorem length_lt (h : e.Begins ts rest) : rest.length < ts.length := by
  rw [h.eq, List.length_append]
  obtain ⟨name, _ | v⟩ := e
  · simp [tokens]
  · simp [tokens]

theorem head?_ne_rbrace (h : e.Begins ts rest) : ts.head? ≠ some (.mark .rbrace) := by
  rw [h.eq]
  obtain ⟨name, _ | v⟩ := e
  · simp [tokens]
  · simp [tokens]

theorem readValue_eq {name : String} (h : Enumerator.Begins ⟨name, none⟩ ts rest) :
    readValue rest = (none, rest) := by
  have hwhole := h.whole rfl
  unfold readValue
  split <;> simp_all

theorem readEnumerator_eq (h : e.Begins ts rest) : readEnumerator ts = (e.tree, rest) := by
  obtain ⟨name, _ | v⟩ := e
  · rw [h.eq]
    simp only [tokens, List.cons_append, List.nil_append, readEnumerator, readName,
      h.readValue_eq]
    rfl
  · rw [h.eq]
    rfl

/-- An enumerator without a fault is read only where one begins. -/
theorem of_faults (h : (readEnumerator ts).1.faults = []) :
    ∃ e, Enumerator.Begins e ts (readEnumerator ts).2 := by
  revert h
  unfold readEnumerator
  fun_cases readName ts with
  | case1 name after =>
      dsimp only
      fun_cases readValue after with
      | case1 v after => exact fun _ => ⟨⟨name, some v⟩, rfl, by simp⟩
      | case2 => simp [EnumeratorTree.faults, Required.faults]
      | case3 _ _ hassign =>
          refine fun _ => ⟨⟨name, none⟩, rfl, fun _ hhead => ?_⟩
          obtain ⟨after, rfl⟩ := List.head?_eq_some_iff.mp hhead
          exact hassign after rfl
  | case2 => simp [EnumeratorTree.faults, Required.faults]

end Enumerator.Begins

/-- Some enumerators, maybe none, are at the beginning of any tokens. -/
theorem exists_enumerators (ts : List Token) : ∃ es rest, Enumerators ts es rest := by
  by_cases h : ∃ e rest, Enumerator.Begins e ts rest
  · obtain ⟨e, rest, he⟩ := h
    by_cases hcomma : rest.head? = some (.mark .comma)
    · obtain ⟨after, rfl⟩ := List.head?_eq_some_iff.mp hcomma
      have hlt := he.length_lt
      obtain ⟨es, rest, hes⟩ := exists_enumerators after
      exact ⟨_, _, .more he hes⟩
    · exact ⟨_, _, .last he hcomma⟩
  · exact ⟨_, _, .none fun e rest he => h ⟨e, rest, he⟩⟩
termination_by ts.length
decreasing_by
  rw [List.length_cons] at hlt
  omega

namespace Enumerators

variable {ts rest : List Token} {es : List Enumerator}

theorem readEnumerators_last {e : Enumerator} (he : e.Begins ts rest)
    (hcomma : rest.head? ≠ some (.mark .comma)) : readEnumerators ts = ([e.tree], rest) := by
  rw [readEnumerators, if_neg he.head?_ne_rbrace, he.readEnumerator_eq]
  split
  · rename_i heq
    cases heq
    exact absurd rfl hcomma
  · rename_i heq
    cases heq
    rfl

theorem readEnumerators_more {e : Enumerator} {after : List Token}
    (he : e.Begins ts (.mark .comma :: after)) :
    readEnumerators ts = (e.tree :: (readEnumerators after).1, (readEnumerators after).2) := by
  have hlt := he.length_lt
  rw [List.length_cons] at hlt
  rw [readEnumerators, if_neg he.head?_ne_rbrace, he.readEnumerator_eq]
  exact if_pos (by omega)

/-- Where no enumerator begins and no brace closes the body, one is read that has a fault. -/
theorem readEnumerators_none (hnone : ∀ e rest, ¬ Enumerator.Begins e ts rest)
    (hbrace : ts.head? ≠ some (.mark .rbrace)) :
    ∃ tree trees, (readEnumerators ts).1 = tree :: trees ∧ tree.faults ≠ [] := by
  have hfaults : (readEnumerator ts).1.faults ≠ [] := fun h =>
    have ⟨e, he⟩ := Enumerator.Begins.of_faults h
    hnone e _ he
  rw [readEnumerators, if_neg hbrace]
  split
  · rename_i heq
    rw [heq] at hfaults
    split
    · exact ⟨_, _, rfl, hfaults⟩
    · exact ⟨_, _, rfl, hfaults⟩
  · rename_i heq
    rw [heq] at hfaults
    exact ⟨_, _, rfl, hfaults⟩

/-- The enumerators are read with their names and values, and what comes next has a fault. -/
theorem exists_read (h : Enumerators ts es rest) :
    ∃ others, (readEnumerators ts).1 = es.map Enumerator.tree ++ others ∧
      ∀ tree ∈ others.head?, tree.faults ≠ [] := by
  induction h with
  | @none ts hnone =>
      by_cases hbrace : ts.head? = some (.mark .rbrace)
      · exact ⟨[], by simp [readEnumerators, hbrace], by simp⟩
      · obtain ⟨tree, trees, htrees, hfaults⟩ := readEnumerators_none hnone hbrace
        refine ⟨tree :: trees, htrees, ?_⟩
        rintro _ ⟨⟩
        exact hfaults
  | last he hcomma => exact ⟨[], by simp [readEnumerators_last he hcomma], by simp⟩
  | more he _ ih =>
      obtain ⟨others, hread, hothers⟩ := ih
      exact ⟨others, by simp [readEnumerators_more he, hread], hothers⟩

/-- No fault is read up to the closing brace just if the brace is what comes next. -/
theorem faults_eq_nil_iff (h : Enumerators ts es rest) :
    (readEnumerators ts).1.flatMap EnumeratorTree.faults ++
        (readToken (.mark .rbrace) (readEnumerators ts).2).1.faults = [] ↔
      rest.head? = some (.mark .rbrace) := by
  induction h with
  | @none ts hnone =>
      by_cases hbrace : ts.head? = some (.mark .rbrace)
      · simp [readEnumerators, readToken, hbrace, Required.faults]
      · obtain ⟨tree, trees, htrees, hfaults⟩ := readEnumerators_none hnone hbrace
        simp [htrees, hfaults, hbrace]
  | @last e ts rest he hcomma =>
      rw [readEnumerators_last he hcomma]
      unfold readToken
      split <;> simp_all [Enumerator.faults_tree, Required.faults]
  | more he _ ih =>
      rw [readEnumerators_more he]
      simpa [Enumerator.faults_tree] using ih

end Enumerators

/-! ## The invariant -/

/-- The first `k` of some enumerators are the members of an enum, the last declarations made. -/
structure Arena.Numbers (a : Arena) (enum : DeclId) (es : List Enumerator) (k : Nat) : Prop where
  size_eq : a.size = enum + 1 + k
  kind?_eq : a.kind? enum = some (.tag .enumTag (List.range' (enum + 1) k))
  decl?_eq : ∀ i < k, ∃ e v, es[i]? = some e ∧ HasNumber es i v.toInt ∧
    a.decl? (enum + 1 + i) = some ⟨some e.name, some enum, .enumerator v⟩

/-- The value that an enumerator gets when it is declared, if it gets one. -/
def Store.valueFor? (s : Store) (p : Place) (e : Enumerator) : Option Int64 :=
  e.value <|> nextEnumerator? (s.lastEnumerator? p.context)

theorem Store.valueFor?_of_some (s : Store) (p : Place) {e : Enumerator} {v : Int64}
    (h : e.value = some v) : s.valueFor? p e = some v := by
  rw [valueFor?, h]
  rfl

theorem Store.valueFor?_of_none (s : Store) (p : Place) {e : Enumerator} (h : e.value = none) :
    s.valueFor? p e = nextEnumerator? (s.lastEnumerator? p.context) := by
  rw [valueFor?, h]
  rfl

/-- Inside an enum, after the first `k` of its enumerators. -/
structure Store.Numbering (s : Store) (p : Place) (es : List Enumerator) (k : Nat) : Prop where
  numbers : s.arena.Numbers p.context es k
  visible_eq : s.scopes.visible p.scope = List.range' (p.context + 1) k
  scope_lt : p.scope < s.scopes.size
  parent?_context : ∃ outer, s.arena.parent? p.context = some outer
  parent?_scope : ∃ outer, s.scopes.parent? p.scope = some outer

theorem Store.checkFresh_of_fresh {s : Store} {p : Place} {name : String} {overloadable : Bool}
    (h : s.Fresh p name overloadable) : s.checkFresh p name overloadable = .ok () := by
  unfold checkFresh
  apply if_neg
  simp only [List.any_eq_true, not_exists, not_and]
  intro id hid
  simp only [ScopeTree.lookupLocal, ScopeTree.matchesDecl, List.mem_filter, Bool.and_eq_true,
    beq_iff_eq] at hid
  obtain ⟨hvisible, hname, -⟩ := hid
  obtain ⟨hoverloadable, hsort⟩ := h id hvisible hname
  simp [hoverloadable, hsort]

namespace Store.Numbering

variable {s : Store} {p : Place} {es : List Enumerator} {k : Nat} {e : Enumerator}

theorem sort?_context (h : s.Numbering p es k) :
    s.arena.sort? p.context = some (.tag .enumTag) := by
  simp [Arena.sort?, h.numbers.kind?_eq, DeclKind.sort]

theorem members?_context (h : s.Numbering p es k) :
    s.arena.members? p.context = some (List.range' (p.context + 1) k) := by
  simp [Arena.members?, h.numbers.kind?_eq, DeclKind.members?]

/-- The names that are visible inside the enum are those of the enumerators passed. -/
theorem fresh (h : s.Numbering p es k) (he : es[k]? = some e)
    (hdistinct : (es.map (·.name)).Nodup) : s.Fresh p e.name false := by
  intro id hid hname
  rw [h.visible_eq, List.mem_range'_1] at hid
  obtain ⟨i, rfl⟩ := Nat.exists_eq_add_of_le hid.1
  have hlt : i < k := by omega
  obtain ⟨d, v, hd, -, hdecl⟩ := h.numbers.decl?_eq i hlt
  have heq : d.name = e.name := by simpa [Arena.name?, hdecl] using hname
  have hlength := (List.getElem?_eq_some_iff.mp he).1
  have hne := List.nodup_iff_getElem?_ne_getElem?.mp hdistinct i k hlt (by simpa using hlength)
  exact absurd (by simp [hd, he, heq]) hne

theorem lastEnumerator?_zero (h : s.Numbering p es 0) :
    s.lastEnumerator? p.context = none := by
  simp [lastEnumerator?, h.members?_context]

theorem lastEnumerator?_succ (h : s.Numbering p es (k + 1)) :
    ∃ v, s.lastEnumerator? p.context = some v ∧ HasNumber es k v.toInt := by
  obtain ⟨e, v, -, hnumber, hdecl⟩ := h.numbers.decl?_eq k (Nat.lt_succ_self k)
  refine ⟨v, ?_, hnumber⟩
  simp [lastEnumerator?, h.members?_context, List.range'_1_concat, Arena.kind?, hdecl,
    DeclKind.enumeratorValue?]

theorem hasNumber_of_valueFor? (h : s.Numbering p es k) (he : es[k]? = some e) {v : Int64}
    (hv : s.valueFor? p e = some v) : HasNumber es k v.toInt := by
  cases hvalue : e.value with
  | some own =>
      rw [s.valueFor?_of_some p hvalue] at hv
      cases hv
      exact .own he hvalue
  | none =>
      rw [s.valueFor?_of_none p hvalue] at hv
      cases k with
      | zero =>
          rw [h.lastEnumerator?_zero] at hv
          cases hv
          exact .zero he hvalue
      | succ k =>
          obtain ⟨last, hlast, hnumber⟩ := h.lastEnumerator?_succ
          rw [hlast, nextEnumerator?] at hv
          split at hv
          · cases hv
          · rename_i hmax
            cases hv
            rw [toInt_add_one hmax]
            exact hnumber.succ he hvalue

theorem valueFor?_eq_none_iff (h : s.Numbering p es k) (he : es[k]? = some e) :
    s.valueFor? p e = none ↔ PastRange es k := by
  constructor
  · intro hnone
    cases hvalue : e.value with
    | some own =>
        rw [s.valueFor?_of_some p hvalue] at hnone
        cases hnone
    | none =>
        rw [s.valueFor?_of_none p hvalue] at hnone
        cases k with
        | zero =>
            rw [h.lastEnumerator?_zero] at hnone
            cases hnone
        | succ k =>
            obtain ⟨last, hlast, hnumber⟩ := h.lastEnumerator?_succ
            rw [hlast, nextEnumerator?] at hnone
            split at hnone
            · rename_i hmax
              exact ⟨k, e, rfl, he, hvalue, hmax ▸ hnumber⟩
            · cases hnone
  · rintro ⟨j, d, rfl, hd, hvalue, hmax⟩
    obtain rfl := Option.some.inj (he.symm.trans hd)
    obtain ⟨last, hlast, hnumber⟩ := h.lastEnumerator?_succ
    obtain rfl : last = Int64.maxValue := Int64.toInt_inj.mp (hnumber.unique hmax)
    rw [s.valueFor?_of_none p hvalue, hlast, nextEnumerator?, if_pos rfl]

end Store.Numbering

/-! ## One enumerator -/

/-- The store after one more enumerator. -/
def Store.enumerated (s : Store) (p : Place) (name : String) (value : Int64) : Store :=
  ((s.declared p name (.enumerator value)).revealed p s.arena.size).enlisted p s.arena.size

theorem gives_enlist_of_isContext {s : Store} {p : Place} (id : DeclId)
    (h : s.arena.isContext p.context = true) : Gives (enlist p id) s () (s.enlisted p id) := by
  simp only [enlist, gives_bind, gives_get, gives_check, gives_modify]
  exact ⟨_, _, ⟨rfl, rfl⟩, _, _, ⟨by rw [Arena.addMember, if_pos h], rfl⟩, rfl⟩

namespace Store.Numbering

variable {s : Store} {p : Place} {es : List Enumerator} {k : Nat} {e : Enumerator}

theorem gives_add (h : s.Numbering p es k) (he : es[k]? = some e)
    (hdistinct : (es.map (·.name)).Nodup) {v : Int64} (hv : s.valueFor? p e = some v) :
    Gives (e.add p) s () (s.enumerated p e.name v) := by
  have hcontext : s.checkContext p .enumTag = .ok () := if_pos h.sort?_context
  have hfresh := checkFresh_of_fresh (h.fresh he hdistinct)
  have hdeclare : Gives (declareEnumerator p e.name e.value) s s.arena.size
      (s.declared p e.name (.enumerator v)) := by
    simp only [declareEnumerator, gives_bind, gives_ask]
    refine ⟨_, _, ⟨hcontext, rfl⟩, _, _, ⟨hfresh, rfl⟩, _, _, ⟨rfl, rfl⟩, ?_⟩
    rw [valueFor?] at hv
    rw [hv]
    rfl
  -- The declaration leaves the enum as it was, and so it still takes members.
  have hgrows := (Arena.Grows.refl s.arena p.context).declared p e.name (.enumerator v)
  have hlisted : ((s.declared p e.name (.enumerator v)).revealed p s.arena.size).arena.isContext
      p.context = true := by
    rw [arena_revealed, Arena.isContext, hgrows.members?_context h.members?_context]
    rfl
  simp only [Enumerator.add, gives_bind]
  exact ⟨_, _, hdeclare, _, _, rfl, gives_enlist_of_isContext _ hlisted⟩

theorem fails_add (h : s.Numbering p es k) (he : es[k]? = some e)
    (hdistinct : (es.map (·.name)).Nodup) (hv : s.valueFor? p e = none) :
    Fails (e.add p) s
      (.unsupported ("enumerator " ++ Error.quoted e.name ++ " past the vi64 range")) s := by
  have hcontext : s.checkContext p .enumTag = .ok () := if_pos h.sort?_context
  have hfresh := checkFresh_of_fresh (h.fresh he hdistinct)
  rw [Enumerator.add, fails_bind]
  left
  simp only [declareEnumerator, fails_bind, gives_ask]
  refine .inr ⟨_, _, ⟨hcontext, rfl⟩, .inr ⟨_, _, ⟨hfresh, rfl⟩, .inr ⟨_, _, ⟨rfl, rfl⟩, ?_⟩⟩⟩
  rw [valueFor?] at hv
  rw [hv]
  rfl

theorem enumerated (h : s.Numbering p es k) (he : es[k]? = some e) {v : Int64}
    (hnumber : HasNumber es k v.toInt) :
    (s.enumerated p e.name v).Numbering p es (k + 1) := by
  have hgrows : s.Grows (s.enumerated p e.name v) p [s.arena.size] [s.arena.size] :=
    .declared_revealed_enlisted h.scope_lt e.name (.enumerator v) s.arena.size
  have hsize := h.numbers.size_eq
  obtain ⟨d, hd, hkind⟩ := Arena.kind?_eq_some_iff.mp h.numbers.kind?_eq
  have hlt := Arena.decl?_eq_some_lt hd
  have hne (i : Nat) : p.context + 1 + i ≠ p.context :=
    Nat.ne_of_gt (Nat.lt_of_lt_of_le (Nat.lt_succ_self _) (Nat.le_add_right _ _))
  have hcontext : (s.enumerated p e.name v).arena.decl? p.context =
      some (d.addMembers [s.arena.size]) := by
    rw [hgrows.arena.decl?_eq _ hlt, if_pos rfl, hd]
    rfl
  refine ⟨⟨?_, ?_, ?_⟩, ?_, hgrows.scope_lt, ?_, ?_⟩
  · simp [Store.enumerated, hsize]
    omega
  · apply Arena.kind?_eq_some_iff.mpr
    refine ⟨_, hcontext, ?_⟩
    simp [Decl.addMembers, hkind, DeclKind.addMembers, List.range'_1_concat, hsize]
  · intro i hi
    rcases Nat.lt_or_eq_of_le (Nat.le_of_lt_succ hi) with hi | rfl
    · obtain ⟨x, w, hx, hw, hdecl⟩ := h.numbers.decl?_eq i hi
      refine ⟨x, w, hx, hw, ?_⟩
      rw [hgrows.arena.decl?_eq_of_ne (Arena.decl?_eq_some_lt hdecl) (hne i), hdecl]
    · refine ⟨e, v, he, hnumber, ?_⟩
      rw [Store.enumerated, Store.decl?_enlisted, if_neg (hne i), Store.arena_revealed,
        Store.decl?_declared, if_pos hsize.symm]
  · rw [hgrows.scopes.visible_scope, h.visible_eq, List.range'_1_concat, hsize]
  · obtain ⟨outer, houter⟩ := h.parent?_context
    refine ⟨outer, ?_⟩
    rw [Arena.parent?, hd] at houter
    rw [Arena.parent?, hcontext]
    exact houter
  · obtain ⟨outer, houter⟩ := h.parent?_scope
    exact ⟨outer, (hgrows.scopes.parent?_eq _ h.scope_lt).trans houter⟩

/-- An enumerator is added with its number, if the number is in range. -/
theorem exists_gives_add (h : s.Numbering p es k) (he : es[k]? = some e)
    (hdistinct : (es.map (·.name)).Nodup) (hrange : ¬ PastRange es k) :
    ∃ s', Gives (e.add p) s () s' ∧ s'.Numbering p es (k + 1) := by
  cases hv : s.valueFor? p e with
  | none => exact absurd ((h.valueFor?_eq_none_iff he).mp hv) hrange
  | some v =>
      have hnumber := h.hasNumber_of_valueFor? he hv
      exact ⟨_, h.gives_add he hdistinct hv, h.enumerated he hnumber⟩

end Store.Numbering

/-! ## All enumerators -/

theorem gives_forM_append {α : Type} {act : α → Action Unit} {xs ys : List α}
    {s s₁ s' : Store} (hxs : Gives (xs.forM act) s () s₁) (hys : Gives (ys.forM act) s₁ () s') :
    Gives ((xs ++ ys).forM act) s () s' := by
  simp only [List.forM_eq_forM, List.forM_append, gives_bind] at hxs hys ⊢
  exact ⟨_, _, hxs, hys⟩

/-- What is left of a list after its first elements fails with its own first element. -/
theorem fails_forM_append_cons {α : Type} {act : α → Action Unit} {xs ys : List α} {y : α}
    {s s₁ s' : Store} {e : Error} (hxs : Gives (xs.forM act) s () s₁)
    (hy : Fails (act y) s₁ e s') : Fails ((xs ++ y :: ys).forM act) s e s' := by
  simp only [List.forM_eq_forM, List.forM_append, List.forM_cons, fails_bind] at hxs ⊢
  exact .inr ⟨_, _, hxs, .inl hy⟩

namespace Store.Numbering

variable {s : Store} {p : Place} {es : List Enumerator}

/-- The first enumerators are all added, if they are all in range. -/
theorem exists_gives_take (h : s.Numbering p es 0) (hdistinct : (es.map (·.name)).Nodup) {k : Nat}
    (hk : k ≤ es.length) (hrange : ∀ i < k, ¬ PastRange es i) :
    ∃ s', Gives (((es.take k).map Enumerator.tree).forM (·.analyze p)) s () s' ∧
      s'.Numbering p es k := by
  induction k with
  | zero => exact ⟨s, rfl, h⟩
  | succ k ih =>
      obtain ⟨s₁, hgives, h₁⟩ := ih (by omega) fun i hi => hrange i (by omega)
      have he : es[k]? = some es[k] := List.getElem?_eq_getElem hk
      obtain ⟨s', hadd, h'⟩ := h₁.exists_gives_add he hdistinct (hrange k (Nat.lt_succ_self k))
      refine ⟨s', ?_, h'⟩
      rw [List.take_succ_eq_append_getElem hk, List.map_append]
      refine gives_forM_append hgives ?_
      simpa [Enumerator.analyze_tree] using hadd

end Store.Numbering

/-! ## Enums -/

/-- After its opening brace, an enum has no enumerators. -/
theorem numbering_of_openTag {p inner : Place} {s s₀ : Store} {piece : Required String}
    {lbrace : Required Unit} (hp : p.context < s.arena.size)
    (hopen : Gives (openTag .enumTag p piece lbrace) s inner s₀) (es : List Enumerator) :
    s₀.Numbering inner es 0 := by
  obtain ⟨name, -, -, rfl, rfl⟩ := gives_openTag hopen
  have hdecl : ((s.tagged p name .enumTag).opened p).arena.decl? s.arena.size =
      some ⟨some name, some p.context, .tag .enumTag []⟩ := by
    rw [Store.arena_opened, Store.tagged, Store.decl?_enlisted, if_neg (Nat.ne_of_gt hp),
      Store.arena_revealed, Store.decl?_declared, if_pos rfl]
  refine ⟨⟨?_, ?_, ?_⟩, ?_, ?_, ⟨p.context, ?_⟩, ⟨p.scope, ?_⟩⟩
  · simp [Store.tagged]
  · exact Arena.kind?_eq_some_iff.mpr ⟨_, hdecl, rfl⟩
  · exact fun i hi => absurd hi (Nat.not_lt_zero i)
  · have hvisible := Store.visible_opened (s.tagged p name .enumTag) p
    rwa [Store.size_scopes_tagged] at hvisible
  · have hlt := Place.inside_lt p (s.tagged p name .enumTag)
    rwa [Place.inside_tagged] at hlt
  · rw [Arena.parent?, hdecl]
    rfl
  · simp [Place.inside, Store.opened, ScopeTree.parent?_push]

theorem Store.Numbering.gives_leaveTag {s : Store} {p : Place} {es : List Enumerator} {k : Nat}
    (h : s.Numbering p es k) : ∃ q, Gives (leaveTag p) s q (s.closed p.scope) := by
  obtain ⟨context, hcontext⟩ := h.parent?_context
  obtain ⟨outer, houter⟩ := h.parent?_scope
  have hclose : Gives (closeScope p) s { p with scope := outer } (s.closed p.scope) := by
    simp only [closeScope, gives_bind, gives_get, gives_check, gives_modify, gives_pure]
    refine ⟨_, _, ⟨rfl, rfl⟩, (outer, s.scopes.modifyVisible p.scope fun _ => []), _, ⟨?_, rfl⟩,
      ⟨⟩, _, rfl, rfl, rfl⟩
    simp only [ScopeTree.pop, houter]
  refine ⟨{ p with scope := outer, context := context }, ?_⟩
  simp only [leaveTag, gives_bind, gives_get]
  refine ⟨_, _, ⟨rfl, rfl⟩, ?_⟩
  simp only [hcontext, gives_bind, gives_pure]
  exact ⟨_, _, hclose, rfl, rfl⟩

/-- An enum whose enumerators have been declared ends as its closing brace lets it. -/
theorem Store.Numbering.ends {tree : EnumTree} {p inner : Place} {s s₀ s₁ : Store}
    {es : List Enumerator} {k : Nat} (h : s₁.Numbering inner es k)
    (hopen : Gives (openTag .enumTag p tree.name tree.lbrace) s inner s₀)
    (hmembers : Gives (tree.members.forM (·.analyze inner)) s₀ () s₁) :
    ∃ s', s'.arena = s₁.arena ∧ (tree.rbrace.faults = [] → Gives (tree.analyze p) s () s') ∧
      ∀ fault ∈ tree.rbrace.faults.head?, Fails (tree.analyze p) s fault.error s' := by
  simp only [EnumTree.analyze, gives_bind, fails_bind, gives_check, fails_check]
  cases hrbrace : tree.rbrace with
  | ok _ =>
      obtain ⟨q, hleave⟩ := h.gives_leaveTag
      refine ⟨s₁.closed inner.scope, rfl, fun _ => ?_, by simp [Required.faults]⟩
      exact ⟨_, _, hopen, _, _, hmembers, _, _, ⟨rfl, rfl⟩, _, _, hleave, rfl⟩
  | error last =>
      refine ⟨s₁, rfl, by simp [Required.faults], ?_⟩
      rintro _ ⟨⟩
      exact .inr ⟨_, _, hopen, .inr ⟨_, _, hmembers, .inl ⟨rfl, rfl⟩⟩⟩

section EnumTree

variable {name : String} {body rest : List Token} {es : List Enumerator}
  {p inner : Place} {s s₀ : Store}

/-- What fails among the enumerators of an enum ends the analysis of the enum. -/
theorem fails_of_members (hopen : Gives (openTag .enumTag p (.ok name) (.ok ())) s inner s₀)
    {e : Error} {s' : Store}
    (h : Fails ((readEnumerators body).1.forM (·.analyze inner)) s₀ e s') :
    Fails ((readEnum (.name name :: .mark .lbrace :: body)).1.analyze p) s e s' := by
  rw [EnumTree.analyze, fails_bind]
  refine .inr ⟨_, _, hopen, ?_⟩
  rw [fails_bind]
  exact .inl h

theorem faults_readEnum (name : String) (body : List Token) :
    (readEnum (.name name :: .mark .lbrace :: body)).1.faults =
      (readEnumerators body).1.flatMap EnumeratorTree.faults ++
        (readToken (.mark .rbrace) (readEnumerators body).2).1.faults := by
  simp [readEnum, readName, readToken, EnumTree.faults, Required.faults]

/--
Every enumerator in the body of an enum gets its number, whether the body is accepted or
not.  An enum with different names of its enumerators ends at the first one that is past
the range, before the declaration of that one, and only the others are declared.  If there
is none, the enumerators are all declared.  Then the enum is accepted if the closing brace
comes next, and otherwise ends with the fault of what does.
-/
theorem EnumTree.analyze_numbers (hes : Enumerators body es rest)
    (hdistinct : (es.map (·.name)).Nodup) (hp : p.context < s.arena.size)
    (hopen : Gives (openTag .enumTag p (.ok name) (.ok ())) s inner s₀) :
    let tree := (readEnum (.name name :: .mark .lbrace :: body)).1
    (∀ k e, es[k]? = some e → PastRange es k → (∀ i < k, ¬ PastRange es i) →
      ∃ s', s'.arena.Numbers inner.context es k ∧ Fails (tree.analyze p) s
        (.unsupported ("enumerator " ++ Error.quoted e.name ++ " past the vi64 range")) s') ∧
    ((∀ i, ¬ PastRange es i) →
      ∃ s', s'.arena.Numbers inner.context es es.length ∧
        (rest.head? = some (.mark .rbrace) → Gives (tree.analyze p) s () s') ∧
        (rest.head? ≠ some (.mark .rbrace) → ∃ fault, tree.faults.head? = some fault ∧
          Fails (tree.analyze p) s fault.error s')) := by
  intro tree
  have hinit := numbering_of_openTag hp hopen es
  obtain ⟨others, hread, hothers⟩ := hes.exists_read
  refine ⟨fun k e he hpast hfirst => ?_, fun hrange => ?_⟩
  · have hlt : k < es.length := (List.getElem?_eq_some_iff.mp he).1
    obtain ⟨s', hgives, h'⟩ := hinit.exists_gives_take hdistinct (Nat.le_of_lt hlt) hfirst
    refine ⟨s', h'.numbers, fails_of_members hopen ?_⟩
    have hsplit : es = es.take k ++ e :: es.drop (k + 1) := by
      rw [List.getElem?_eq_getElem hlt] at he
      rw [← Option.some.inj he, List.getElem_cons_drop, List.take_append_drop]
    have hadd := h'.fails_add he hdistinct ((h'.valueFor?_eq_none_iff he).mpr hpast)
    rw [← e.analyze_tree] at hadd
    rw [hread, hsplit, List.map_append, List.map_cons, List.append_assoc, List.cons_append]
    exact fails_forM_append_cons hgives hadd
  · obtain ⟨s₁, hgives, h₁⟩ :=
      hinit.exists_gives_take hdistinct (Nat.le_refl _) fun i _ => hrange i
    rw [List.take_length] at hgives
    have hclosed := hes.faults_eq_nil_iff
    have hfaults : tree.faults = _ := faults_readEnum name body
    rw [hread, List.flatMap_append, Enumerator.faults_trees, List.nil_append] at hclosed hfaults
    cases others with
    | nil =>
        -- All that is missing can only be the closing brace.
        have hmembers : Gives (tree.members.forM (·.analyze inner)) s₀ () s₁ := by
          rwa [← List.append_nil (es.map Enumerator.tree), ← hread] at hgives
        obtain ⟨s', harena, haccept, hreject⟩ := h₁.ends hopen hmembers
        refine ⟨s', harena ▸ h₁.numbers, fun hbrace => haccept (hclosed.mpr hbrace),
          fun hbrace => ?_⟩
        have hfault := List.head?_eq_some_head (mt hclosed.mp hbrace)
        refine ⟨_, ?_, hreject _ hfault⟩
        rw [hfaults]
        exact hfault
    | cons other others =>
        have hother := hothers other rfl
        have hunclosed : rest.head? ≠ some (.mark .rbrace) := by simpa [hother] using hclosed
        have hfault := List.head?_eq_some_head hother
        refine ⟨s₁, h₁.numbers, fun hbrace => absurd hbrace hunclosed, fun _ => ?_⟩
        refine ⟨other.faults.head hother, ?_, fails_of_members hopen ?_⟩
        · simp [hfaults, hfault]
        · rw [hread]
          exact fails_forM_append_cons hgives (EnumeratorTree.fails_of_faults hfault inner s₁)

end EnumTree

/--
The enum `E` with the body `a, b = 9223372036854775806, c, d }`, where `c` has the largest
number and `d` is past the range.
-/
theorem EnumTree.analyze_numbers_past_largest :
    let body : List Token := [.name "a", .mark .comma, .name "b", .operator .assign,
      .int 9223372036854775806, .mark .comma, .name "c", .mark .comma, .name "d", .mark .rbrace]
    let es : List Enumerator := [⟨"a", none⟩, ⟨"b", some 9223372036854775806⟩, ⟨"c", none⟩,
      ⟨"d", none⟩]
    Enumerators body es [.mark .rbrace] ∧
    ∃ inner s₀ s', Gives (openTag .enumTag .top (.ok "E") (.ok ())) .empty inner s₀ ∧
      s'.arena.Numbers inner.context es 3 ∧
      Fails ((readEnum (.name "E" :: .mark .lbrace :: body)).1.analyze .top) .empty
        (.unsupported ("enumerator " ++ Error.quoted "d" ++ " past the vi64 range")) s' := by
  intro body es
  have hes : Enumerators body es [.mark .rbrace] :=
    .more ⟨rfl, by simp⟩ <| .more ⟨rfl, by simp⟩ <| .more ⟨rfl, by simp⟩ <|
      .last ⟨rfl, by simp⟩ (by simp)
  have hb : HasNumber es 1 (Int64.toInt 9223372036854775806) := .own rfl rfl
  have hc : HasNumber es 2 Int64.maxValue.toInt := hb.succ rfl rfl
  have hpast : PastRange es 3 := ⟨2, _, rfl, rfl, rfl, hc⟩
  have hfirst : ∀ i < 3, ¬ PastRange es i := by
    rintro i hi ⟨j, e, rfl, he, hnone, hmax⟩
    match j with
    | 0 =>
        cases he
        cases hnone
    | 1 => exact absurd (hmax.unique hb) (by decide)
    | j + 2 => omega
  obtain ⟨inner, s₀, hopen⟩ : ∃ inner s₀,
      Gives (openTag .enumTag .top (.ok "E") (.ok ())) .empty inner s₀ := ⟨_, _, rfl⟩
  obtain ⟨s', hnumbers, hfails⟩ :=
    (EnumTree.analyze_numbers hes (by decide) (by decide) hopen).1 3 _ rfl hpast hfirst
  exact ⟨hes, inner, s₀, s', hopen, hnumbers, hfails⟩

end UnitAnalysis
