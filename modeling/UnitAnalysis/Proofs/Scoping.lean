import UnitAnalysis.Proofs.Acceptance
import UnitAnalysis.Proofs.Resolution

/-!
# Lexical scoping

What a reference to a local variable may mean, read off the finished tree alone:
the blocks around the reference and the declarations that stand before it in
each of them.  The scopes of the analysis have to be matched with these blocks
while the blocks are still growing.  Main statement: references in accepted
units are lexically scoped (`lexicallyScoped_of_analyze`).
-/

namespace UnitAnalysis

/-! ## References and the blocks around them -/

structure Occurrence where
  decl : DeclId
  /-- What the blocks around the reference have declared before it, innermost block first. -/
  blocks : List (List DeclId)
  deriving DecidableEq, Repr

def Arena.initRefs (a : Arena) (id : DeclId) : List DeclId :=
  match a.kind? id with
  | some (.var _ (some init)) => init.refs
  | _ => []

mutual

def Stmt.occurrences (a : Arena) (blocks : List (List DeclId)) : Stmt → List Occurrence
  | .compound body => Stmt.occurrencesAll a [] blocks body
  -- The variable is not yet declared in its own initializer.
  | .decl id => (a.initRefs id).map (⟨·, blocks⟩)
  | .expr e => e.refs.map (⟨·, blocks⟩)
  | .ret none => []
  | .ret (some e) => e.refs.map (⟨·, blocks⟩)

/-- The references in the statements of one block, which has declared `here` before them. -/
def Stmt.occurrencesAll (a : Arena) (here : List DeclId) (around : List (List DeclId)) :
    List Stmt → List Occurrence
  | [] => []
  | stmt :: stmts =>
      stmt.occurrences a (here :: around) ++
        Stmt.occurrencesAll a (here ++ Stmt.introduced [stmt]) around stmts

end

mutual

theorem Stmt.mem_map_occurrences (a : Arena) (blocks : List (List DeclId)) (d : DeclId)
    (stmt : Stmt) : d ∈ (stmt.occurrences a blocks).map (·.decl) ↔
      d ∈ Expr.refsAll stmt.roots ∨ d ∈ stmt.decls.flatMap a.initRefs := by
  match stmt with
  | .compound body =>
      rw [Stmt.occurrences, Stmt.roots, Stmt.decls]
      exact Stmt.mem_map_occurrencesAll a [] blocks d body
  | .decl id => simp [Stmt.occurrences, Stmt.roots, Stmt.decls, Expr.refsAll]
  | .expr e => simp [Stmt.occurrences, Stmt.roots, Stmt.decls, Expr.refsAll]
  | .ret none => simp [Stmt.occurrences, Stmt.roots, Stmt.decls, Expr.refsAll]
  | .ret (some e) => simp [Stmt.occurrences, Stmt.roots, Stmt.decls, Expr.refsAll]

/-- No reference of a body is left out: it stands in an expression or an initializer. -/
theorem Stmt.mem_map_occurrencesAll (a : Arena) (here : List DeclId)
    (around : List (List DeclId)) (d : DeclId) (stmts : List Stmt) :
    d ∈ (Stmt.occurrencesAll a here around stmts).map (·.decl) ↔
      d ∈ Expr.refsAll (Stmt.rootsAll stmts) ∨ d ∈ (Stmt.declsAll stmts).flatMap a.initRefs := by
  match stmts with
  | [] => simp [Stmt.occurrencesAll, Stmt.rootsAll, Stmt.declsAll, Expr.refsAll]
  | stmt :: stmts =>
      rw [Stmt.occurrencesAll, List.map_append, List.mem_append,
        Stmt.mem_map_occurrences a _ d stmt, Stmt.mem_map_occurrencesAll a _ around d stmts,
        Stmt.rootsAll, Stmt.declsAll, List.flatMap_append, List.mem_append, Expr.refsAll_append,
        List.mem_append]
      exact or_or_or_comm

end

/--
The reference means a declaration of one of the blocks around it, and no block
further in has declared the same name before.
-/
def Arena.Innermost (a : Arena) (o : Occurrence) : Prop :=
  ∃ inner block outer, o.blocks = inner ++ block :: outer ∧ o.decl ∈ block ∧
    ∀ other ∈ inner, ∀ id ∈ other, a.name? id ≠ a.name? o.decl

/--
Initializers refer backwards.  References in a body mean members of contexts or
the innermost declaration of their name, where the parameters count as the
first declarations of the body.
-/
structure Arena.LexicallyScoped (a : Arena) : Prop where
  inits : ∀ {id ty init}, a.kind? id = some (.var ty (some init)) → ∀ d ∈ init.refs, d < id
  bodies : ∀ {id f body}, a.kind? id = some (.func f) → f.body = some body →
    ∀ o ∈ Stmt.occurrencesAll a f.params [] body, ¬ a.Listed o.decl → a.Innermost o

namespace Arena.Innermost

variable {a b : Arena} {id : DeclId} {blocks : List (List DeclId)} {block : List DeclId}

theorem head (h : id ∈ block) : a.Innermost ⟨id, block :: blocks⟩ :=
  ⟨[], block, blocks, rfl, h, by simp⟩

theorem cons (h : a.Innermost ⟨id, blocks⟩) (hnames : ∀ x ∈ block, a.name? x ≠ a.name? id) :
    a.Innermost ⟨id, block :: blocks⟩ := by
  obtain ⟨inner, found, outer, rfl, hid, hinner⟩ := h
  refine ⟨block :: inner, found, outer, rfl, hid, ?_⟩
  intro other hother
  rcases List.mem_cons.mp hother with rfl | hother
  · exact hnames
  · exact hinner other hother

theorem keeps (h : a.Innermost ⟨id, blocks⟩) (hkeeps : a.Keeps b)
    (hlt : ∀ block ∈ blocks, ∀ x ∈ block, x < a.size) : b.Innermost ⟨id, blocks⟩ := by
  obtain ⟨inner, found, outer, rfl, hid, hinner⟩ := h
  refine ⟨inner, found, outer, rfl, hid, ?_⟩
  intro other hother x hx
  rw [hkeeps.name?_eq (hlt other (by simp [hother]) x hx),
    hkeeps.name?_eq (hlt found (by simp) id hid)]
  exact hinner other hother x hx

end Arena.Innermost

/-! ## Scopes as blocks -/

/--
The scopes from one scope outwards show what the blocks have declared, innermost
first, and further out only members are visible.
-/
inductive Store.Nested (s : Store) : ScopeId → List (List DeclId) → Prop where
  | outside {scope : ScopeId}
      (hlisted : ∀ outer ≤ scope, ∀ id ∈ s.scopes.visible outer, s.arena.Listed id) :
      Store.Nested s scope []
  | block {scope parent : ScopeId} {here : List DeclId} {around : List (List DeclId)}
      (hparent : s.scopes.parent? scope = some parent) (hlt : parent < scope)
      (hvisible : s.scopes.visible scope = here) (haround : Store.Nested s parent around) :
      Store.Nested s scope (here :: around)

namespace Store.Nested

variable {s s' : Store} {p : Place} {scope : ScopeId} {here : List DeclId}
variable {around blocks : List (List DeclId)}

theorem congr (h : s.Nested scope blocks)
    (hparent : ∀ x ≤ scope, s'.scopes.parent? x = s.scopes.parent? x)
    (hvisible : ∀ x ≤ scope, s'.scopes.visible x = s.scopes.visible x)
    (hlisted : ∀ {id}, s.arena.Listed id → s'.arena.Listed id) : s'.Nested scope blocks := by
  induction h with
  | outside hmembers =>
      refine .outside fun outer houter id hid => ?_
      rw [hvisible outer houter] at hid
      exact hlisted (hmembers outer houter id hid)
  | @block scope parent here around hup hlt hhere _ ih =>
      have hle : ∀ x ≤ parent, x ≤ scope := fun x hx => Nat.le_trans hx (Nat.le_of_lt hlt)
      refine .block ?_ hlt ?_ ?_
      · rw [hparent scope (Nat.le_refl _)]
        exact hup
      · rw [hvisible scope (Nat.le_refl _)]
        exact hhere
      · exact ih (fun x hx => hparent x (hle x hx)) fun x hx => hvisible x (hle x hx)

theorem grows {listed shown : List DeclId} (h : s.Nested p.scope (here :: around))
    (hgrows : s.Grows s' p listed shown) : s'.Nested p.scope ((here ++ shown) :: around) := by
  cases h with
  | @block _ parent _ _ hparent hlt hvisible haround =>
      have hold : ∀ x ≤ parent, x < p.scope := fun x hx => Nat.lt_of_le_of_lt hx hlt
      have hsize : ∀ x ≤ parent, x < s.scopes.size :=
        fun x hx => Nat.lt_trans (hold x hx) hgrows.scopes.scope_lt
      refine .block ?_ hlt ?_ (haround.congr ?_ ?_ hgrows.arena.listed)
      · rw [hgrows.scopes.parent?_eq _ hgrows.scopes.scope_lt]
        exact hparent
      · rw [hgrows.scopes.visible_scope, hvisible]
      · exact fun x hx => hgrows.scopes.parent?_eq x (hsize x hx)
      · intro x hx
        rw [hgrows.scopes.visible_eq x (hsize x hx), if_neg (Nat.ne_of_lt (hold x hx))]

theorem enter (h : s.Nested p.scope blocks) (hp : p.scope < s.scopes.size) (ids : List DeclId) :
    ((s.opened p).revealedAll s.scopes.size ids).Nested s.scopes.size (ids :: blocks) := by
  have hne : ∀ x ≤ p.scope, x ≠ s.scopes.size := by
    intro x hx
    exact Nat.ne_of_lt (Nat.lt_of_le_of_lt hx hp)
  have hopen : s.scopes.size < (s.scopes.push p.scope).size := by simp
  refine .block ?_ hp (s.visible_revealedAll_opened p ids) (h.congr ?_ ?_ id)
  · simp [revealedAll, opened, ScopeTree.parent?_push]
  · intro x hx
    simp [revealedAll, opened, ScopeTree.parent?_push, hne x hx]
  · intro x hx
    simp [revealedAll, opened, ScopeTree.visible_addAll hopen, (hne x hx).symm]

theorem lt (h : s.Nested scope blocks) (hs : s.Bounded) :
    ∀ block ∈ blocks, ∀ x ∈ block, x < s.arena.size := by
  induction h with
  | outside => simp
  | @block scope parent here around _ _ hvisible _ ih =>
      intro block hblock
      rcases List.mem_cons.mp hblock with rfl | hblock
      · subst hvisible
        exact hs.scopes.visible_lt scope
      · exact ih block hblock

/-- Lookup walks the blocks from the inside out. -/
theorem innermost_of_mem_lookup {id : DeclId} {name : String} (h : s.Nested scope blocks)
    (hid : id ∈ s.scopes.lookup s.arena scope name .everything) (hlocal : ¬ s.arena.Listed id) :
    s.arena.Innermost ⟨id, blocks⟩ := by
  induction h with
  | outside hlisted =>
      obtain ⟨outer, houter, hid⟩ := ScopeTree.exists_of_mem_lookup hid
      exact absurd (hlisted outer houter id (ScopeTree.name?_of_mem_lookupLocal hid).1) hlocal
  | block hparent hlt hvisible _ ih =>
      subst hvisible
      unfold ScopeTree.lookup at hid
      split at hid
      · rename_i hnil
        simp only [hparent, hlt, if_true] at hid
        obtain ⟨outer, -, hfound⟩ := ScopeTree.exists_of_mem_lookup hid
        refine (ih hid).cons ?_
        rw [(ScopeTree.name?_of_mem_lookupLocal hfound).2]
        exact ScopeTree.name?_ne_of_lookupLocal_eq_nil hnil
      · exact .head (ScopeTree.name?_of_mem_lookupLocal hid).1

theorem innermost {id : DeclId} (h : s.Nested p.scope blocks) (hfinds : s.Finds p id)
    (hlocal : ¬ s.arena.Listed id) : s.arena.Innermost ⟨id, blocks⟩ := by
  rcases hfinds with hlisted | ⟨name, hid⟩
  · exact absurd hlisted hlocal
  · exact h.innermost_of_mem_lookup hid hlocal

end Store.Nested

/-! ## Runs -/

section Runs

variable {p : Place} {s s' : Store} {here : List DeclId} {around blocks : List (List DeclId)}

theorem ExprAt.innermost {e : Expr} (h : ExprAt s p e) (hs : s.Bounded)
    (hnested : s.Nested p.scope blocks) {b : Arena} (hextends : s.arena.Extends b) :
    ∀ o ∈ e.refs.map (Occurrence.mk · blocks), ¬ b.Listed o.decl → b.Innermost o := by
  intro o ho hlocal
  obtain ⟨id, hid, rfl⟩ := List.mem_map.mp ho
  refine (hnested.innermost (h.finds id hid) ?_).keeps hextends.toKeeps (hnested.lt hs)
  exact fun hlisted => hlocal (hextends.listed hlisted)

theorem VarStep.innermost {id : DeclId} (h : VarStep p s id s') (hs : s.Bounded)
    (hnested : s.Nested p.scope blocks) {b : Arena} (hextends : s'.arena.Extends b) :
    ∀ o ∈ (b.initRefs id).map (Occurrence.mk · blocks), ¬ b.Listed o.decl → b.Innermost o := by
  intro o ho hlocal
  obtain ⟨x, hx, rfl⟩ := List.mem_map.mp ho
  cases h with
  | @plain name ty =>
      simp [Arena.initRefs, hextends.kind?_var (s.kind?_declared p name _)] at hx
  | @init name ty e init _ _ hexpr hinit =>
      simp only [Arena.initRefs, hextends.kind?_var (s.kind?_declared p name _)] at hx
      rw [Expr.refs_initFor hinit] at hx
      have hgrows : ∀ kind, s.arena.Grows (s.declared p name kind).arena p.context [] :=
        (Arena.Grows.refl s.arena p.context).declared p name
      have hdeclared : (s.declared p name (.var ty none)).Nested p.scope blocks :=
        hnested.congr (fun _ _ => rfl) (fun _ _ => rfl) (hgrows _).listed
      have hinner := hdeclared.innermost (hexpr.finds x hx) fun hlisted =>
        hlocal (hextends.listed ((hgrows _).listed (Store.listed_of_declared rfl hlisted)))
      have hkeeps : (s.declared p name (.var ty none)).arena.Keeps
          (s.declared p name (.var ty (some init))).arena := s.keeps_declared p name rfl
      exact hinner.keeps (hkeeps.trans hextends.toKeeps)
        (hdeclared.lt (hs.declared name rfl (by simp)))

/--
The scopes stay in step with the blocks.  The statements are looked at in any
arena `b` that the arena at their end becomes later.
-/
theorem BlockRun.innermost {stmts : List Stmt} (h : BlockRun p s stmts s') (hs : s.Bounded)
    (hp : p.scope < s.scopes.size) (hnested : s.Nested p.scope (here :: around)) {b : Arena}
    (hextends : s'.arena.Extends b) :
    ∀ o ∈ Stmt.occurrencesAll b here around stmts, ¬ b.Listed o.decl → b.Innermost o := by
  induction h generalizing here around with
  | nil => simp [Stmt.occurrencesAll]
  | @block p s s₁ s' body rest hbody hrest ihbody ihrest =>
      have hclosed := hbody.grows_closed hp
      have hlater := (hrest.grows hclosed.scope_lt).arena.extends.trans hextends
      intro o ho
      rcases List.mem_append.mp ho with ho | ho
      · exact ihbody (hs.opened hp) (Place.inside_lt p s) (hnested.enter hp []) hlater o ho
      · exact ihrest (hbody.bounded_closed hs hp) hclosed.scope_lt (hnested.grows hclosed)
          hextends o ho
  | @var p s s₁ s' id rest hvar hrest ih =>
      have hgrows := hvar.grows hp
      have hlater := (hrest.grows hgrows.scope_lt).arena.extends.trans hextends
      intro o ho
      rcases List.mem_append.mp ho with ho | ho
      · exact hvar.innermost hs hnested hlater o ho
      · exact ih (hvar.bounded hs hp) hgrows.scope_lt (hnested.grows hgrows) hextends o ho
  | expr hexpr hrest ih =>
      have hlater := (hrest.grows hp).arena.extends.trans hextends
      intro o ho
      rcases List.mem_append.mp ho with ho | ho
      · exact hexpr.innermost hs hnested hlater o ho
      · exact ih hs hp (by simpa [Stmt.introduced] using hnested) hextends o ho
  | ret _ _ _ _ ih =>
      intro o ho
      exact ih hs hp (by simpa [Stmt.introduced] using hnested) hextends o ho
  | retValue _ _ _ hexpr hpass hrest ih =>
      have hlater := (hrest.grows hp).arena.extends.trans hextends
      intro o ho
      rcases List.mem_append.mp ho with ho | ho
      · rw [Stmt.occurrences, Expr.refs_pass hpass] at ho
        exact hexpr.innermost hs hnested hlater o ho
      · exact ih hs hp (by simpa [Stmt.introduced] using hnested) hextends o ho

end Runs

/-! ## Units -/

def Arena.ScopedDecl (a : Arena) (id : DeclId) : DeclKind → Prop
  | .var _ (some init) => ∀ d ∈ init.refs, d < id
  | .func f => ∀ b, a.Extends b →
      ∀ o ∈ Stmt.occurrencesAll b f.params [] (f.body.getD []), ¬ b.Listed o.decl → b.Innermost o
  | _ => True

theorem Arena.declInvariant_scopedDecl : DeclInvariant Arena.ScopedDecl where
  stable {a b id kind} hextends _ h := by
    match kind with
    | .func f => exact fun c hc => h c (hextends.trans hc)
    | .var _ (some _) => exact h
    | .var _ none | .unit _ | .field _ | .tag _ _ | .enumerator _ => trivial
  bare {a id kind kind'} hbare h := by
    cases kind <;> cases kind' <;> cases hbare <;> exact h
  inert {a id kind} hinert := by
    match kind with
    | .var _ none | .unit _ | .field _ | .tag _ _ => trivial
  enumerator _ _ := trivial
  signature hsigned := by
    intro b _ o ho
    rw [hsigned.body_eq] at ho
    contradiction
  init {p s name ty e init} hs _ _ hexpr hinit := by
    intro d hd
    rw [Expr.refs_initFor hinit] at hd
    exact (hexpr.finds d hd).lt_of_declared rfl hs
  body {p s₁ s₂ id f body} hs₁ _ hsigned hrun := by
    have hnested : s₁.Nested p.scope [] := .outside fun outer _ => hs₁.listed outer
    intro b hextends
    exact hrun.innermost (hs₁.bounded.enterBody hs₁.scope_lt hsigned.func_eq)
      (Place.inside_lt_revealedAll p s₁ f.params) (hnested.enter hs₁.scope_lt f.params)
      ((s₂.extends_setBody id body).trans hextends)

/-- References in accepted units are lexically scoped. -/
theorem lexicallyScoped_of_analyze {tokens : List Token} {a : Arena}
    (h : analyze tokens = .ok a) : a.LexicallyScoped := by
  obtain ⟨ids, s, hrun, rfl⟩ := exists_run_of_analyze h
  have hall := Arena.declInvariant_scopedDecl.of_unitRun hrun
  constructor
  · intro id ty init hkind
    exact hall hkind
  · intro id f body hkind hbody
    have hscoped := hall hkind s.arena (.refl _)
    rw [hbody] at hscoped
    exact hscoped

/-- `func f(vi8 x) { let vi8 y = x; { let vi8 x = y; { let vi8 z = x; } } return; }` -/
theorem lexicallyScoped_shadowing_unit : ∃ a, analyze
    [.keyword .funcKw, .name "f", .mark .lparen, .builtin .vi8, .name "x", .mark .rparen,
      .mark .lbrace, .keyword .letKw, .builtin .vi8, .name "y", .operator .assign, .name "x",
      .mark .semi, .mark .lbrace, .keyword .letKw, .builtin .vi8, .name "x", .operator .assign,
      .name "y", .mark .semi, .mark .lbrace, .keyword .letKw, .builtin .vi8, .name "z",
      .operator .assign, .name "x", .mark .semi, .mark .rbrace, .mark .rbrace, .keyword .returnKw,
      .mark .semi, .mark .rbrace] = .ok a ∧ a.LexicallyScoped :=
  Check.exists_ok_and (by decide +kernel) fun _ => lexicallyScoped_of_analyze

end UnitAnalysis
