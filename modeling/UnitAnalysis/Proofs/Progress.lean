import UnitAnalysis.Proofs.Loops

/-!
# Progress

The analysis gets ahead with everything that it accepts.  It accepts a construct
only if the tree has no fault, whatever the store holds by then, and so the
reader has consumed a word of the grammar.  No construct has an empty word.  This
holds of functions too, where the reader goes back to the parameters: the point
that it goes on from is the one that it has found by skipping them.

Main statement: `analyze_progresses`.
-/

namespace UnitAnalysis

open UnitAnalysis.Action UnitAnalysis.Check

/-! ## Accepted trees -/

theorem Required.faults_of_check {α : Type} {piece : Required α} {a : α}
    (h : piece.check = .ok a) : piece.faults = [] := by
  rw [mapError_eq_ok.mp h]
  rfl

theorem TypeTree.faults_of_analyze {s : Store} {p : Place} {tree : TypeTree} {ty : Ty}
    (h : tree.analyze s p = .ok ty) : tree.faults = [] := by
  simp only [TypeTree.analyze, bind_eq_ok] at h
  obtain ⟨base, hbase, -⟩ := h
  exact Required.faults_of_check hbase

mutual

theorem ExprTree.faults_of_analyze {s : Store} {p : Place} :
    ∀ {tree : ExprTree} {e : Expr}, tree.analyze s p = .ok e → tree.faults = []
  | .int _, _, _ | .float _, _, _ | .bool _, _, _ | .name _, _, _ => by
      rw [ExprTree.faults]
  | .call path args, e, h => by
      rw [ExprTree.analyze, bind_eq_ok] at h
      obtain ⟨es, hargs, -⟩ := h
      rw [ExprTree.faults, ExprTree.faultsAll_of_analyzeAll hargs]
  | .binary op lhs rhs, e, h => by
      simp only [ExprTree.analyze, bind_eq_ok] at h
      obtain ⟨l, hlhs, r, hrhs, -⟩ := h
      rw [ExprTree.faults, ExprTree.faults_of_analyze hlhs, ExprTree.faults_of_analyze hrhs]
      rfl
  | .broken parts fault, e, h => by
      simp only [ExprTree.analyze, bind_eq_ok] at h
      obtain ⟨_, _, hraise⟩ := h
      exact absurd hraise Fault.raise_ne_ok

theorem ExprTree.faultsAll_of_analyzeAll {s : Store} {p : Place} :
    ∀ {trees : List ExprTree} {es : List Expr},
      ExprTree.analyzeAll s p trees = .ok es → ExprTree.faultsAll trees = []
  | [], _, _ => by rw [ExprTree.faultsAll]
  | tree :: trees, es, h => by
      simp only [ExprTree.analyzeAll, bind_eq_ok] at h
      obtain ⟨first, hfirst, rest, hrest, -⟩ := h
      rw [ExprTree.faultsAll, ExprTree.faults_of_analyze hfirst,
        ExprTree.faultsAll_of_analyzeAll hrest]
      rfl

end

theorem VarTree.faults_of_analyze {p : Place} {tree : VarTree} {s s' : Store} {id : DeclId}
    (h : Gives (tree.analyze p) s id s') : tree.faults = [] := by
  simp only [VarTree.analyze, gives_bind, gives_ask, gives_check] at h
  obtain ⟨ty, _, ⟨hty, -⟩, name, _, ⟨hname, -⟩, id, _, -, h⟩ := h
  suffices hrest : tree.init.elim [] ExprTree.faults = [] ∧ tree.semi.faults = [] by
    rw [VarTree.faults, TypeTree.faults_of_analyze hty, Required.faults_of_check hname, hrest.1,
      hrest.2]
    rfl
  cases hinit : tree.init with
  | none =>
      simp only [hinit, gives_bind, gives_check] at h
      obtain ⟨_, _, ⟨hsemi, -⟩, -⟩ := h
      exact ⟨rfl, Required.faults_of_check hsemi⟩
  | some init =>
      simp only [hinit, gives_bind, gives_ask, gives_check] at h
      obtain ⟨e, _, ⟨hexpr, -⟩, _, _, -, _, _, ⟨hsemi, -⟩, -⟩ := h
      exact ⟨ExprTree.faults_of_analyze hexpr, Required.faults_of_check hsemi⟩

mutual

theorem StmtTree.faults_of_analyze {p : Place} :
    ∀ {tree : StmtTree} {s s' : Store} {stmt : Stmt},
      Gives (tree.analyze p) s stmt s' → tree.faults = []
  | .block body, s, s', stmt, h => by
      simp only [StmtTree.analyze, gives_bind] at h
      obtain ⟨_, _, -, stmts, _, hbody, -⟩ := h
      rw [StmtTree.faults, StmtTree.faultsAll_of_analyzeAll hbody]
  | .var tree, s, s', stmt, h => by
      simp only [StmtTree.analyze, gives_bind] at h
      obtain ⟨id, _, hvar, -⟩ := h
      rw [StmtTree.faults, VarTree.faults_of_analyze hvar]
  | .ret none semi, s, s', stmt, h => by
      simp only [StmtTree.analyze, gives_bind, gives_check] at h
      obtain ⟨_, _, ⟨hsemi, -⟩, -⟩ := h
      rw [StmtTree.faults, Required.faults_of_check hsemi]
      rfl
  | .ret (some value) semi, s, s', stmt, h => by
      simp only [StmtTree.analyze, gives_bind, gives_ask, gives_check] at h
      obtain ⟨e, _, ⟨hexpr, -⟩, _, _, ⟨hsemi, -⟩, -⟩ := h
      rw [StmtTree.faults, Required.faults_of_check hsemi, Option.elim,
        ExprTree.faults_of_analyze hexpr]
      rfl
  | .expr value semi, s, s', stmt, h => by
      simp only [StmtTree.analyze, gives_bind, gives_ask, gives_check] at h
      obtain ⟨e, _, ⟨hexpr, -⟩, _, _, ⟨hsemi, -⟩, -⟩ := h
      rw [StmtTree.faults, ExprTree.faults_of_analyze hexpr, Required.faults_of_check hsemi]
      rfl
  | .broken fault, s, s', stmt, h => by
      rw [StmtTree.analyze] at h
      exact absurd h Fault.not_gives_raise

theorem StmtTree.faultsAll_of_analyzeAll {p : Place} :
    ∀ {trees : List StmtTree} {s s' : Store} {stmts : List Stmt},
      Gives (StmtTree.analyzeAll p trees) s stmts s' → StmtTree.faultsAll trees = []
  | [], _, _, _, _ => by rw [StmtTree.faultsAll]
  | tree :: trees, s, s', stmts, h => by
      simp only [StmtTree.analyzeAll, gives_bind] at h
      obtain ⟨stmt, _, hfirst, rest, _, hrest, -⟩ := h
      rw [StmtTree.faultsAll, StmtTree.faults_of_analyze hfirst,
        StmtTree.faultsAll_of_analyzeAll hrest]
      rfl

end

theorem flatMap_faults_of_forM {α : Type} {act : α → Action Unit} {faults : α → List Fault}
    (hact : ∀ {x s s'}, Gives (act x) s () s' → faults x = []) {xs : List α} {s s' : Store}
    (h : Gives (xs.forM act) s () s') : xs.flatMap faults = [] := by
  induction xs generalizing s with
  | nil => rfl
  | cons x xs ih =>
      simp only [List.forM_eq_forM, List.forM_cons, gives_bind] at h
      obtain ⟨_, s₁, hfirst, hrest⟩ := h
      rw [List.flatMap_cons, hact hfirst, ih (by simpa using hrest)]
      rfl

theorem ParamTree.faults_of_analyze {p : Place} {function : DeclId} {tree : ParamTree}
    {s s' : Store} (h : Gives (tree.analyze p function) s () s') : tree.faults = [] := by
  simp only [ParamTree.analyze, gives_bind, gives_ask, gives_check] at h
  obtain ⟨ty, _, ⟨hty, -⟩, name, _, ⟨hname, -⟩, -⟩ := h
  rw [ParamTree.faults, TypeTree.faults_of_analyze hty, Required.faults_of_check hname]
  rfl

theorem BodyTree.faults_of_analyze {p : Place} {function : DeclId} {tree : BodyTree}
    {s s' : Store} (h : Gives (tree.analyze p function) s () s') : tree.faults = [] := by
  cases tree with
  | prototype => rfl
  | block body =>
      simp only [BodyTree.analyze, gives_bind] at h
      obtain ⟨_, _, -, stmts, _, hbody, -⟩ := h
      exact StmtTree.faultsAll_of_analyzeAll hbody
  | broken fault => exact absurd h Fault.not_gives_raise

theorem FuncTree.faults_of_analyzeReturn {p : Place} {tree : FuncTree} {s s' : Store} {ty : Ty}
    (h : Gives (tree.analyzeReturn p) s ty s') :
    tree.returnType.elim [] TypeTree.faults = [] := by
  unfold FuncTree.analyzeReturn at h
  cases htype : tree.returnType with
  | none => rfl
  | some type =>
      rw [htype] at h
      exact TypeTree.faults_of_analyze (gives_ask.mp h).1

theorem FuncTree.faults_of_analyzeParams {p : Place} {tree : FuncTree} {s s' : Store}
    {inside : Place × DeclId} (h : Gives (tree.analyzeParams p) s inside s') :
    tree.name.faults ++ tree.parens.faults ++ tree.returnType.elim [] TypeTree.faults ++
      tree.params.flatMap ParamTree.faults ++ tree.rparen.faults = [] := by
  simp only [FuncTree.analyzeParams, gives_bind, gives_check] at h
  obtain ⟨name, _, ⟨hname, -⟩, _, _, ⟨hparens, -⟩, ty, _, hreturn, id, _, -, inner, _, -, _, _,
    hparams, _, _, ⟨hrparen, -⟩, -⟩ := h
  rw [Required.faults_of_check hname, Required.faults_of_check hparens,
    FuncTree.faults_of_analyzeReturn hreturn,
    flatMap_faults_of_forM ParamTree.faults_of_analyze hparams, Required.faults_of_check hrparen]
  rfl

theorem FuncTree.faults_of_analyze {p : Place} {tree : FuncTree} {s s' : Store}
    (h : Gives (tree.analyze p) s () s') : tree.faults = [] := by
  simp only [FuncTree.analyze, FuncTree.sign, gives_bind] at h
  obtain ⟨_, _, ⟨inside, _, hparams, -⟩, hbody⟩ := h
  rw [FuncTree.faults, FuncTree.faults_of_analyzeParams hparams, BodyTree.faults_of_analyze hbody]
  rfl

theorem FieldTree.faults_of_analyze {p : Place} {tree : FieldTree} {s s' : Store}
    (h : Gives (tree.analyze p) s () s') : tree.faults = [] := by
  simp only [FieldTree.analyze, gives_bind, gives_ask, gives_check] at h
  obtain ⟨ty, _, ⟨hty, -⟩, name, _, ⟨hname, -⟩, _, _, -, _, _, ⟨hsemi, -⟩, -⟩ := h
  rw [FieldTree.faults, TypeTree.faults_of_analyze hty, Required.faults_of_check hname,
    Required.faults_of_check hsemi]
  rfl

theorem MemberTree.faults_of_analyze {p : Place} {tree : MemberTree} {s s' : Store}
    (h : Gives (tree.analyze p) s () s') : tree.faults = [] := by
  cases tree with
  | field tree => exact FieldTree.faults_of_analyze h
  | func tree => exact FuncTree.faults_of_analyze h
  | broken fault => exact absurd h Fault.not_gives_raise

theorem faults_of_openTag {kind : TagKind} {p q : Place} {piece : Required String}
    {lbrace : Required Unit} {s s' : Store} (h : Gives (openTag kind p piece lbrace) s q s') :
    piece.faults ++ lbrace.faults = [] := by
  simp only [openTag, gives_bind, gives_check] at h
  obtain ⟨name, _, ⟨hname, -⟩, _, _, -, _, _, -, _, _, -, _, _, ⟨hlbrace, -⟩, -⟩ := h
  rw [Required.faults_of_check hname, Required.faults_of_check hlbrace]
  rfl

theorem ClassTree.faults_of_analyze {p : Place} {tree : ClassTree} {s s' : Store}
    (h : Gives (tree.analyze p) s () s') : tree.faults = [] := by
  simp only [ClassTree.analyze, gives_bind] at h
  obtain ⟨inner, _, hopen, _, _, hmembers, -⟩ := h
  rw [ClassTree.faults, faults_of_openTag hopen,
    flatMap_faults_of_forM MemberTree.faults_of_analyze hmembers]
  rfl

theorem EnumeratorTree.faults_of_analyze {p : Place} {tree : EnumeratorTree} {s s' : Store}
    (h : Gives (tree.analyze p) s () s') : tree.faults = [] := by
  simp only [EnumeratorTree.analyze, gives_bind, gives_check] at h
  obtain ⟨name, _, ⟨hname, -⟩, h⟩ := h
  rw [EnumeratorTree.faults, Required.faults_of_check hname, List.nil_append]
  cases hvalue : tree.value with
  | none => rfl
  | some piece =>
      simp only [hvalue, map_eq_pure_bind, gives_bind, gives_check] at h
      obtain ⟨_, _, ⟨value, _, ⟨hpiece, -⟩, -⟩, -⟩ := h
      exact Required.faults_of_check hpiece

theorem EnumTree.faults_of_analyze {p : Place} {tree : EnumTree} {s s' : Store}
    (h : Gives (tree.analyze p) s () s') : tree.faults = [] := by
  simp only [EnumTree.analyze, gives_bind, gives_check] at h
  obtain ⟨inner, _, hopen, _, _, hmembers, _, _, ⟨hrbrace, -⟩, -⟩ := h
  rw [EnumTree.faults, faults_of_openTag hopen,
    flatMap_faults_of_forM EnumeratorTree.faults_of_analyze hmembers,
    Required.faults_of_check hrbrace]
  rfl

theorem ItemTree.faults_of_analyze {p : Place} {tree : ItemTree} {s s' : Store}
    (h : Gives (tree.analyze p) s () s') : tree.faults = [] := by
  cases tree with
  | classItem item => exact ClassTree.faults_of_analyze h
  | enumItem item => exact EnumTree.faults_of_analyze h
  | funcItem item => exact FuncTree.faults_of_analyze h
  | varItem item =>
      simp only [ItemTree.analyze, gives_bind] at h
      obtain ⟨id, _, hvar, -⟩ := h
      exact VarTree.faults_of_analyze hvar
  | broken fault => exact absurd h Fault.not_gives_raise

/-! ## Positions -/

/--
At a place of a store, the construct is read from some tokens and accepted, and
leaves other tokens.  A construct that a keyword announces begins with it.
-/
inductive Parses (s : Store) (p : Place) : Nonterminal → List Token → List Token → Prop where
  | item {ts : List Token} {s' : Store} (h : Gives ((readItem ts).1.analyze p) s () s') :
      Parses s p .item ts (readItem ts).2
  | classDef {ts : List Token} {s' : Store} (h : Gives ((readClass ts).1.analyze p) s () s') :
      Parses s p .classDef (.keyword .classKw :: ts) (readClass ts).2
  | field {ts : List Token} {s' : Store} (h : Gives ((readField ts).1.analyze p) s () s') :
      Parses s p .field (.keyword .letKw :: ts) (readField ts).2
  | enumDef {ts : List Token} {s' : Store} (h : Gives ((readEnum ts).1.analyze p) s () s') :
      Parses s p .enumDef (.keyword .enumKw :: ts) (readEnum ts).2
  | func {ts : List Token} {s' : Store} (h : Gives ((readFunc ts).1.analyze p) s () s') :
      Parses s p .func (.keyword .funcKw :: ts) (readFunc ts).2
  | var {ts : List Token} {id : DeclId} {s' : Store}
      (h : Gives ((readVar ts).1.analyze p) s id s') :
      Parses s p .var (.keyword .letKw :: ts) (readVar ts).2
  | type {ts : List Token} {ty : Ty} (h : (readType ts).1.analyze s p = .ok ty) :
      Parses s p .type ts (readType ts).2
  | stmt {ts : List Token} {stmt : Stmt} {s' : Store}
      (h : Gives ((readStmt ts).1.analyze p) s stmt s') : Parses s p .stmt ts (readStmt ts).2
  | expr {ts : List Token} {e : Expr} (h : (readExpr ts).1.analyze s p = .ok e) :
      Parses s p .expr ts (readExpr ts).2
  | primary {ts : List Token} {e : Expr} (h : (readPrimary ts).1.analyze s p = .ok e) :
      Parses s p .primary ts (readPrimary ts).2

theorem not_spans_type_nil (rest : List Token) : ¬ Spans (.sym .type) [] rest := by
  intro hspans
  obtain ⟨mid, hquals, hbase⟩ := spans_seq.mp (spans_sym.mp hspans)
  rcases spans_many.mp hquals with rfl | ⟨_, hqual, -⟩
  · simp [spans_path] at hbase
  · simp at hqual

namespace Parses

variable {s : Store} {p : Place} {symbol : Nonterminal} {ts rest : List Token}

theorem spans (h : Parses s p symbol ts rest) : Spans (.sym symbol) ts rest := by
  cases h with
  | item h => exact (reads_item _).sound (ItemTree.faults_of_analyze h)
  | classDef h => exact (reads_class _).sound (ClassTree.faults_of_analyze h)
  | field h => exact (reads_field _).sound (FieldTree.faults_of_analyze h)
  | enumDef h => exact (reads_enum _).sound (EnumTree.faults_of_analyze h)
  | func h => exact (reads_func _).sound (FuncTree.faults_of_analyze h)
  | var h => exact (reads_var _).sound (VarTree.faults_of_analyze h)
  | type h => exact (reads_type _).sound (TypeTree.faults_of_analyze h)
  | stmt h => exact (reads_stmt _).sound (StmtTree.faults_of_analyze h)
  | expr h => exact (reads_expr _).sound (ExprTree.faults_of_analyze h)
  | primary h => exact (reads_primary _).sound (ExprTree.faults_of_analyze h)

theorem not_spans_nil (h : Parses s p symbol ts rest) (after : List Token) :
    ¬ Spans (.sym symbol) [] after := by
  cases h with
  | item => simp [spans_item, spans_class, spans_enum, spans_func, spans_var]
  | classDef => simp [spans_class]
  | field => simp [spans_field]
  | enumDef => simp [spans_enum]
  | func => simp [spans_func]
  | var => simp [spans_var]
  | type => apply not_spans_type_nil
  | stmt => apply not_spans_stmt_nil
  | expr => apply not_spans_expr_nil
  | primary => simp [spans_primary, spans_path]

/-- What is accepted takes some of the tokens before the end, in their order. -/
theorem exists_drop (h : Parses s p symbol ts rest) :
    ∃ taken, 0 < taken ∧ taken ≤ ts.findIdx Token.isEnd ∧ rest = ts.drop taken := by
  obtain ⟨w, hderives, hts⟩ := h.spans
  have hpos : 0 < w.length := by
    apply List.length_pos_iff.mpr
    rintro rfl
    exact h.not_spans_nil [] (spans_nil_iff.mpr hderives)
  have hend : .endOfInput ∉ w := hderives.end_not_mem trivial
  refine ⟨w.length, hpos, ?_, ?_⟩
  · rw [← Token.length_body, hts, Token.body_append hend, List.length_append]
    omega
  · rw [hts, List.drop_left]

end Parses

theorem Token.findIdx_drop {pos : Nat} {tokens : List Token} (h : pos ≤ tokens.findIdx isEnd) :
    (tokens.drop pos).findIdx isEnd = tokens.findIdx isEnd - pos := by
  induction pos generalizing tokens with
  | zero => rfl
  | succ pos ih =>
      cases tokens with
      | nil => cases h
      | cons t tokens =>
          by_cases ht : t = .endOfInput
          · subst ht
            cases h
          · rw [findIdx_isEnd_cons ht] at h ⊢
            rw [List.drop_succ_cons, ih (by omega)]
            omega

/--
Reading gets ahead, and so it ends.  Whatever construct is accepted, at any
position up to the end of the input and in any state of the analysis, the position
after it is a later one and not beyond the end.  Every loop of reading stops,
wherever it begins, and so does the loop over the items of the unit with their
analysis.
-/
theorem analyze_progresses (tokens : List Token) :
    (∀ (s : Store) (p : Place) (symbol : Nonterminal) (pos : Nat) (rest : List Token),
      pos ≤ tokens.findIdx Token.isEnd → Parses s p symbol (tokens.drop pos) rest →
        ∃ pos', pos < pos' ∧ pos' ≤ tokens.findIdx Token.isEnd ∧ rest = tokens.drop pos') ∧
    (∀ pos, LoopsStop (tokens.drop pos)) ∧
    StopsWithin unitRound (tokens.findIdx Token.isEnd) (.empty, tokens) (analyze tokens) := by
  refine ⟨?_, fun pos => loopsStop _, stopsWithin_unitRound tokens⟩
  intro s p symbol pos rest hpos hparses
  obtain ⟨taken, htaken, hle, rfl⟩ := hparses.exists_drop
  rw [Token.findIdx_drop hpos] at hle
  refine ⟨pos + taken, ?_, ?_, ?_⟩
  · omega
  · omega
  · rw [List.drop_drop]

/--
The function in `let vi8 x; func f(vi8 a) -> vi8;`, which begins at position `4`.  Its
reader comes back to the parameter at `7` after the return type at `11`, and yet the
position after the function is a later one than `4`, and not beyond `13`.
-/
theorem progresses_past_parameters : ∃ rest,
    Parses .empty .top .func (List.drop 4 [.keyword .letKw, .builtin .vi8, .name "x", .mark .semi,
      .keyword .funcKw, .name "f", .mark .lparen, .builtin .vi8, .name "a", .mark .rparen,
      .mark .arrow, .builtin .vi8, .mark .semi, .endOfInput, .mark .semi]) rest ∧
    ∃ pos', 4 < pos' ∧ pos' ≤ 13 ∧
      rest = List.drop pos' [.keyword .letKw, .builtin .vi8, .name "x", .mark .semi,
        .keyword .funcKw, .name "f", .mark .lparen, .builtin .vi8, .name "a", .mark .rparen,
        .mark .arrow, .builtin .vi8, .mark .semi, .endOfInput, .mark .semi] := by
  let ts : List Token := [.name "f", .mark .lparen, .builtin .vi8, .name "a", .mark .rparen,
    .mark .arrow, .builtin .vi8, .mark .semi, .endOfInput, .mark .semi]
  let tokens : List Token := [.keyword .letKw, .builtin .vi8, .name "x", .mark .semi] ++
    .keyword .funcKw :: ts
  obtain ⟨_, s', hgives⟩ : ∃ u s', Gives ((readFunc ts).1.analyze .top) .empty u s' :=
    exists_gives_of_succeeds (by decide +kernel)
  have hparses : Parses .empty .top .func (tokens.drop 4) (readFunc ts).2 := .func hgives
  exact ⟨_, hparses, (analyze_progresses tokens).1 _ _ _ _ _ (by decide) hparses⟩

end UnitAnalysis
