import UnitAnalysis.Proofs.Reading
import UnitAnalysis.Proofs.Safety

/-!
# Recognition of units

The readers of statements and items are compared with the grammar in the same
way as those of expressions.  A function is the one construct whose reader goes
back: it skips its parameters by counting parentheses and reads them later.
Both agree on where the parameters end, because no parentheses stand in them.

Main statements: reading leaves no fault exactly in the words of the grammar
(`faults_readItems`), and so the analysis accepts only such words and calls none
of them malformed (`analyze_respects_grammar`).
-/

namespace UnitAnalysis

/-! ## Variables and statements -/

theorem reads_init (ts : List Token) :
    Reads (.opt (.all [.op .assign, .sym .expr])) (Token.continuesExpr 1) ts
      ((readInit ts).1.elim [] ExprTree.faults) (readInit ts).2 := by
  fun_cases readInit ts with
  | case1 rest init after heq =>
      have hexpr := reads_expr rest
      rw [heq] at hexpr
      exact .opt_some (hexpr.congr (by simp)) (by simp [BinaryOp.precedence])
  | case2 ts hassign =>
      exact .opt_none (by simpa using fun after mid hts => absurd hts (hassign mid))

theorem spans_var {ts rest : List Token} : Spans (.sym .var) ts rest ↔
    ∃ mid, ts = .keyword .letKw :: mid ∧
      Spans (.seq (.sym .type) (.seq (.kind .name)
        (.seq (.opt (.all [.op .assign, .sym .expr])) (.mark .semi)))) mid rest := by
  rw [spans_sym]
  simp [Nonterminal.rule]

theorem reads_var (ts : List Token) :
    Reads (.sym .var) nothing (.keyword .letKw :: ts) (readVar ts).1.faults (readVar ts).2 := by
  have hinit : Reads (.seq _ (.mark .semi)) nothing _ _ _ :=
    (reads_init (readName (readType ts).2).2).seq_mark (by simp)
  have hvar := (reads_type ts).seq_name ((reads_name _).andThen hinit) (by simp)
  rw [← List.append_assoc, ← List.append_assoc] at hvar
  exact hvar.congr (by simp [spans_var])

theorem spans_block {ts rest : List Token} : Spans (.sym .block) ts rest ↔
    ∃ mid, ts = .mark .lbrace :: mid ∧
      Spans (.seq (.many (.sym .stmt)) (.mark .rbrace)) mid rest := by
  rw [spans_sym]
  simp [Nonterminal.rule]

theorem spans_stmt {ts rest : List Token} : Spans (.sym .stmt) ts rest ↔
    Spans (.sym .block) ts rest ∨ Spans (.sym .var) ts rest ∨
    (∃ mid, ts = .keyword .returnKw :: mid ∧
      Spans (.seq (.opt (.sym .expr)) (.mark .semi)) mid rest) ∨
    Spans (.seq (.sym .expr) (.mark .semi)) ts rest := by
  rw [spans_sym]
  simp [Nonterminal.rule]

theorem not_spans_expr_nil (rest : List Token) : ¬ Spans (.sym .expr) [] rest := by
  intro hspans
  obtain ⟨_, _, ⟨⟩, -⟩ := exists_startsExpr hspans

theorem not_spans_stmt_nil (rest : List Token) : ¬ Spans (.sym .stmt) [] rest := by
  simp [spans_stmt, spans_block, spans_var, not_spans_expr_nil]

theorem not_spans_stmt_end (ts rest : List Token) :
    ¬ Spans (.sym .stmt) (.endOfInput :: ts) rest := by
  have hexpr := not_spans_expr (t := .endOfInput) rfl ts
  simp [spans_stmt, spans_block, spans_var, hexpr]

theorem not_spans_stmt_rbrace (ts rest : List Token) :
    ¬ Spans (.sym .stmt) (.mark .rbrace :: ts) rest := by
  have hexpr := not_spans_expr (t := .mark .rbrace) rfl ts
  simp [spans_stmt, spans_block, spans_var, hexpr]

theorem reads_returnValue (ts : List Token) :
    Reads (.seq (.opt (.sym .expr)) (.mark .semi)) nothing ts
      ((readReturnValue ts).1.elim [] ExprTree.faults ++
        (readToken (.mark .semi) (readReturnValue ts).2).1.faults)
      (readToken (.mark .semi) (readReturnValue ts).2).2 := by
  unfold readReturnValue
  split
  · rename_i h
    obtain ⟨rest, rfl⟩ := List.head?_eq_some_iff.mp h
    exact .closed_none (not_spans_expr rfl rest)
  · rename_i h
    exact .closed_some ((reads_expr ts).seq_mark (by simp)) h

mutual

theorem reads_stmt (ts : List Token) :
    Reads (.sym .stmt) nothing ts (readStmt ts).1.faults (readStmt ts).2 := by
  fun_cases readStmt ts with
  | case1 rest body after heq =>
      have hblock := reads_block rest
      have hexpr := not_spans_expr (t := .mark .lbrace) rfl rest
      rw [heq] at hblock
      exact hblock.congr (by simp [spans_stmt, spans_block, spans_var, hexpr])
  | case2 rest var after heq =>
      have hvar := reads_var rest
      have hexpr := not_spans_expr (t := .keyword .letKw) rfl rest
      rw [heq] at hvar
      exact hvar.congr (by simp [spans_stmt, spans_block, hexpr])
  | case3 rest value mid heq semi after hsemi =>
      have hvalue := reads_returnValue rest
      have hexpr := not_spans_expr (t := .keyword .returnKw) rfl rest
      simp only [heq, hsemi] at hvalue
      exact hvalue.congr (by simp [spans_stmt, spans_block, spans_var, hexpr])
  | case4 ts value mid heq semi after hsemi hblock hvar hreturn =>
      have hexpr : Reads (.seq (.sym .expr) (.mark .semi)) nothing _ _ _ :=
        (reads_expr ts).seq_mark (by simp)
      refine hexpr.congr fun after => ?_
      rw [spans_stmt, spans_block, spans_var]
      grind
termination_by 2 * ts.length

theorem reads_block (ts : List Token) :
    Reads (.seq (.many (.sym .stmt)) (.mark .rbrace)) nothing ts
      (StmtTree.faultsAll (readBlock ts).1) (readBlock ts).2 := by
  fun_cases readBlock ts with
  | case1 => exact .loop_done (reads_token _ []) not_spans_stmt_nil
  | case2 rest => exact .loop_done (.fault (by simp) _) (not_spans_stmt_end rest)
  | case3 rest => exact .loop_done (.single (by simp)) (not_spans_stmt_rbrace rest)
  | case4 t ts hend ht stmt mid hstmt hle stmts after hstmts =>
      have hfirst := reads_stmt (t :: ts)
      have hrest := reads_block mid
      rw [hstmt] at hfirst
      rw [hstmts] at hrest
      refine hfirst.loop_more hrest fun after hspans => ?_
      exact ht (List.cons.inj (spans_mark.mp hspans)).1
  | case5 t ts hend ht stmt mid hstmt hle =>
      have hrest := readStmt_rest (t :: ts)
      rw [hstmt] at hrest
      exact absurd hrest hle
termination_by 2 * ts.length + 1
decreasing_by
  all_goals subst_vars
  all_goals simp only [List.length_cons]
  all_goals omega

end

/-! ## Functions -/

theorem reads_param (ts : List Token) :
    Reads (.sym .param) nothing ts (readParam ts).1.faults (readParam ts).2 := by
  refine .sym ((reads_type ts).seq (reads_name _) ?_)
  intro mid after hspans _
  obtain ⟨text, rfl⟩ := spans_kind.mp hspans
  simp

/-- The parameters and the closing parenthesis. -/
theorem reads_paramsFrom (ts : List Token) :
    Reads (.list (.sym .param)) nothing ts
      ((readParamsFrom ts).1.flatMap ParamTree.faults ++
        (readToken (.mark .rparen) (readParamsFrom ts).2).1.faults)
      (readToken (.mark .rparen) (readParamsFrom ts).2).2 := by
  fun_induction readParamsFrom ts with
  | case1 ts param rest hparam hlt params after hparams ih =>
      have hfirst := reads_param ts
      rw [hparam] at hfirst
      rw [hparams] at ih
      rw [List.flatMap_cons, List.append_assoc]
      exact hfirst.list (.listTail_comma ih) id id
  | case2 ts param rest hparam hlt =>
      have hrest := readParam_rest ts
      simp [hparam] at hrest
      omega
  | case3 ts param rest hrest hparam =>
      have hfirst := reads_param ts
      rw [hparam] at hfirst
      rw [List.flatMap_singleton]
      exact hfirst.list (.listTail_rparen hrest) id id

theorem not_spans_param_rparen (ts rest : List Token) :
    ¬ Spans (.sym .param) (.mark .rparen :: ts) rest := by
  intro hspans
  obtain ⟨mid, htype, -⟩ := spans_seq.mp (spans_sym.mp hspans)
  obtain ⟨mid, hquals, hbase⟩ := spans_seq.mp (spans_sym.mp htype)
  rcases spans_many.mp hquals with rfl | ⟨_, hqual, -⟩
  · simp [spans_path] at hbase
  · simp at hqual

theorem reads_params (ts : List Token) :
    Reads (.seq (.opt (.commas (.sym .param))) (.mark .rparen)) nothing ts
      ((readParams ts).1.flatMap ParamTree.faults ++
        (readToken (.mark .rparen) (readParams ts).2).1.faults)
      (readToken (.mark .rparen) (readParams ts).2).2 := by
  unfold readParams
  split
  · rename_i h
    obtain ⟨rest, rfl⟩ := List.head?_eq_some_iff.mp h
    exact .closed_none (not_spans_commas (not_spans_param_rparen rest))
  · rename_i h
    exact .closed_some (reads_paramsFrom ts) h

theorem reads_returnType (ts : List Token) :
    Reads (.opt (.all [.mark .arrow, .sym .type])) (fun t => t = .mark .arrow ∨ t.continuesType) ts
      ((readReturnType ts).1.elim [] TypeTree.faults) (readReturnType ts).2 := by
  fun_cases readReturnType ts with
  | case1 rest type after heq =>
      have htype := (reads_type rest).mono fun t => Or.inr (a := t = .mark .arrow)
      rw [heq] at htype
      exact .opt_some (htype.congr (by simp)) (by simp)
  | case2 ts harrow => exact .opt_none (by simpa using fun after mid hts => absurd hts (harrow mid))

theorem reads_body (ts : List Token) :
    Reads (.any [.mark .semi, .sym .block]) nothing ts (readBody ts).1.faults (readBody ts).2 := by
  fun_cases readBody ts with
  | case1 rest => exact .single (by simp [spans_block])
  | case2 rest body after heq =>
      have hblock := reads_block rest
      rw [heq] at hblock
      exact hblock.congr (by simp [spans_block])
  | case3 ts hsemi hlbrace =>
      refine .fault (fun after => ?_) _
      simp only [spans_any_cons, spans_any_single, spans_mark, spans_block]
      grind

/-- What stands after the parameters of a function. -/
def Phrase.funcRest : Phrase :=
  .seq (.opt (.all [.mark .arrow, .sym .type])) (.any [.mark .semi, .sym .block])

theorem reads_funcRest (ts : List Token) :
    Reads .funcRest nothing ts
      ((readReturnType ts).1.elim [] TypeTree.faults ++ (readBody (readReturnType ts).2).1.faults)
      (readBody (readReturnType ts).2).2 := by
  refine (reads_returnType ts).seq (reads_body _) ?_
  intro mid after hspans _
  simp only [spans_any_cons, spans_any_single, spans_mark, spans_block] at hspans
  rcases hspans with rfl | ⟨_, rfl, -⟩
  all_goals simp [Token.continuesType]

/-- Skipping passes over the words of the phrase. -/
def Phrase.Skipped (p : Phrase) : Prop :=
  ∀ ⦃ts rest⦄, Spans p ts rest → ∀ depth, skipParens? depth ts = skipParens? depth rest

/-- Neither a parenthesis nor the end of the input. -/
def Token.Plain (t : Token) : Prop :=
  t ≠ .mark .lparen ∧ t ≠ .mark .rparen ∧ t ≠ .endOfInput

theorem skipParens?_append_of_forall {w : List Token} (hw : ∀ t ∈ w, t.Plain) (depth : Nat)
    (rest : List Token) : skipParens? depth (w ++ rest) = skipParens? depth rest := by
  induction w with
  | nil => rfl
  | cons t w ih =>
      obtain ⟨⟨hl, hr, hend⟩, hw⟩ := List.forall_mem_cons.mp hw
      rw [List.cons_append, skipParens?, ih hw]
      · exact hend
      · exact hl
      · exact hr

/-- The words of the phrase have plain tokens only. -/
def Phrase.Flat (p : Phrase) : Prop :=
  ∀ ⦃w⦄, Derives p w → ∀ t ∈ w, t.Plain

namespace Phrase.Flat

variable {p q : Phrase}

theorem skipped (h : p.Flat) : p.Skipped := by
  rintro ts rest ⟨w, hw, rfl⟩ depth
  exact skipParens?_append_of_forall (h hw) depth rest

theorem one {wanted : Token → Prop} (h : ∀ t, wanted t → t.Plain) : (Phrase.one wanted).Flat := by
  intro w hw
  cases hw with
  | one ht => exact List.forall_mem_singleton.mpr (h _ ht)

theorem seq (hp : p.Flat) (hq : q.Flat) : (p.seq q).Flat := by
  intro w hw
  cases hw with
  | seq hfirst hsecond => exact List.forall_mem_append.mpr ⟨hp hfirst, hq hsecond⟩

theorem alt (hp : p.Flat) (hq : q.Flat) : (p.alt q).Flat := by
  intro w hw
  cases hw with
  | left h => exact hp h
  | right h => exact hq h

theorem many (hp : p.Flat) : p.many.Flat := by
  intro w hw
  generalize hmany : p.many = m at hw
  induction hw with
  | done => exact List.forall_mem_nil _
  | more hfirst _ _ ih =>
      cases hmany
      exact List.forall_mem_append.mpr ⟨hp hfirst, ih rfl⟩
  | _ => cases hmany

theorem sym {symbol : Nonterminal} (h : symbol.rule.Flat) : (Phrase.sym symbol).Flat := by
  intro w hw
  cases hw with
  | sym hrule => exact h hrule

theorem empty : Phrase.empty.Flat := by
  intro w hw
  cases hw with
  | empty => exact List.forall_mem_nil _

theorem kind {α : Type} {make : α → Token} (h : ∀ a, (make a).Plain) :
    (Phrase.kind make).Flat :=
  one (by rintro _ ⟨a, rfl⟩; exact h a)

theorem token {t : Token} (h : t.Plain) : (Phrase.token t).Flat :=
  one (by rintro _ rfl; exact h)

theorem path : (Phrase.sym .path).Flat :=
  have hname : (Phrase.kind .name).Flat := .kind (by simp [Token.Plain])
  .sym (hname.seq (.many (.seq (.token (by simp [Token.Plain])) hname)))

theorem type : (Phrase.sym .type).Flat :=
  have hqualifier : (Phrase.kind .qualifier).Flat := .kind (by simp [Token.Plain])
  have hbuiltin : (Phrase.kind .builtin).Flat := .kind (by simp [Token.Plain])
  have hsign : (Phrase.any [.op .mul, .mark .amp]).Flat :=
    .alt (.token (by simp [Token.Plain])) (.token (by simp [Token.Plain]))
  .sym (hqualifier.many.seq ((hbuiltin.alt path).seq (.many (hqualifier.alt hsign))))

theorem params : (Phrase.commas (.sym .param)).opt.Flat :=
  have hparam : (Phrase.sym .param).Flat := .sym (type.seq (.kind (by simp [Token.Plain])))
  .alt (hparam.seq (.many (.seq (.token (by simp [Token.Plain])) hparam))) empty

end Phrase.Flat

/-- A parameter list with its parentheses. -/
def Phrase.params : Phrase :=
  .seq (.mark .lparen) (.seq (.opt (.commas (.sym .param))) (.mark .rparen))

theorem skipParams_of_spans {ts rest : List Token} (h : Spans .params ts rest) :
    skipParams ts = .ok rest := by
  obtain ⟨mid, hlparen, hparams⟩ := spans_seq.mp h
  obtain ⟨last, hparams, hrparen⟩ := spans_seq.mp hparams
  obtain rfl := spans_mark.mp hlparen
  obtain rfl := spans_mark.mp hrparen
  have hskip : skipParens? 0 mid = some rest := by
    rw [Phrase.Flat.params.skipped hparams, skipParens?]
  rw [skipParams, hskip]

/-- Skipping the parentheses finds the end of the parameters that are read afterwards. -/
theorem spans_params_of_skipParams {ts stop : List Token} (h : skipParams ts = .ok stop)
    (hfaults : (readParams ts.tail).1.flatMap ParamTree.faults ++
      (readToken (.mark .rparen) (readParams ts.tail).2).1.faults = []) :
    Spans .params ts stop ∧ (readToken (.mark .rparen) (readParams ts.tail).2).2 = stop := by
  obtain ⟨tail, rfl⟩ : ∃ tail, ts = .mark .lparen :: tail := by
    unfold skipParams at h
    split at h
    · exact ⟨_, rfl⟩
    · cases h
  have hspans : Spans .params _ _ :=
    spans_seq.mpr ⟨tail, spans_mark.mpr rfl, (reads_params tail).sound hfaults⟩
  have hstop := Except.ok.inj ((skipParams_of_spans hspans).symm.trans h)
  rw [hstop] at hspans
  exact ⟨hspans, hstop⟩

theorem reads_skippedParams {ts rest : List Token} (h : skipParams ts = .ok rest) :
    Reads .params nothing ts
      ((readParams ts.tail).1.flatMap ParamTree.faults ++
        (readToken (.mark .rparen) (readParams ts.tail).2).1.faults) rest := by
  refine ⟨fun hf => (spans_params_of_skipParams h hf).1, ?_⟩
  intro after hspans _
  have hrest := Except.ok.inj (h.symm.trans (skipParams_of_spans hspans))
  obtain ⟨mid, hlparen, hmid⟩ := spans_seq.mp hspans
  obtain rfl := spans_mark.mp hlparen
  exact ⟨((reads_params mid).complete hmid ends_nothing).1, hrest⟩

theorem spans_func {ts rest : List Token} : Spans (.sym .func) ts rest ↔
    ∃ mid, ts = .keyword .funcKw :: mid ∧
      Spans (.seq (.kind .name) (.seq .params .funcRest)) mid rest := by
  rw [spans_sym]
  simp only [Nonterminal.rule, Phrase.all, Phrase.params, Phrase.funcRest, spans_seq, spans_word,
    spans_mark]
  grind

theorem readFunc_of_skipParams {ts stop : List Token}
    (h : skipParams (readName ts).2 = .ok stop) :
    readFunc ts = (⟨(readName ts).1, .ok (), (readReturnType stop).1,
      (readParams (readName ts).2.tail).1,
      (readToken (.mark .rparen) (readParams (readName ts).2.tail).2).1,
      (readBody (readReturnType stop).2).1⟩, (readBody (readReturnType stop).2).2) := by
  simp [readFunc, h]

theorem reads_func (ts : List Token) :
    Reads (.sym .func) nothing (.keyword .funcKw :: ts) (readFunc ts).1.faults (readFunc ts).2 := by
  -- A tree keeps the faults of the return type before those of the parameters.
  have hname : Reads (.kind .name) nothing ts _ _ := reads_name ts
  suffices hfunc : Reads (.seq (.kind .name) (.seq .params .funcRest)) nothing ts
      (readFunc ts).1.faults (readFunc ts).2 from hfunc.congr (by simp [spans_func])
  cases hskip : skipParams (readName ts).2 with
  | error fault =>
      have hnone : ∀ after, ¬ Spans (.seq .params .funcRest) (readName ts).2 after := by
        intro after hspans
        obtain ⟨mid, hparams, -⟩ := spans_seq.mp hspans
        rw [skipParams_of_spans hparams] at hskip
        cases hskip
      have hfault : Reads (.seq .params .funcRest) nothing (readName ts).2 [fault] [] :=
        .fault hnone fault
      simpa [readFunc, hskip, FuncTree.faults, BodyTree.faults] using hname.andThen hfault
  | ok mid =>
      have hrest := (reads_skippedParams hskip).andThen (reads_funcRest mid)
      rw [readFunc_of_skipParams hskip]
      refine (hname.andThen hrest).of_faults_iff ?_
      simp only [FuncTree.faults, Required.faults_ok, List.append_eq_nil_iff]
      tauto

/-! ## Classes and enums -/

theorem reads_field (ts : List Token) :
    Reads (.sym .field) nothing (.keyword .letKw :: ts) (readField ts).1.faults
      (readField ts).2 := by
  have hname : Reads (.seq (.kind .name) (.mark .semi)) nothing _ _ _ :=
    (reads_name (readType ts).2).andThen (reads_token (.mark .semi) _)
  have hfield := (reads_type ts).seq_name hname (by simp)
  rw [← List.append_assoc] at hfield
  exact hfield.congr fun _ => spans_sym.trans (by simp [Nonterminal.rule])

theorem spans_field {ts rest : List Token} : Spans (.sym .field) ts rest ↔
    ∃ mid, ts = .keyword .letKw :: mid ∧
      Spans (.seq (.sym .type) (.seq (.kind .name) (.mark .semi))) mid rest := by
  rw [spans_sym]
  simp [Nonterminal.rule]

theorem reads_members (ts : List Token) :
    Reads (.seq (.many (.any [.sym .field, .sym .func])) (.mark .rbrace)) nothing ts
      ((readMembers ts).1.flatMap MemberTree.faults) (readMembers ts).2 := by
  fun_induction readMembers ts with
  | case1 rest => exact .loop_done (.single (by simp)) (by simp [spans_field, spans_func])
  | case2 rest field mid hfield hle members after hmembers ih =>
      have hfirst : Reads (.any [.sym .field, .sym .func]) nothing (.keyword .letKw :: rest) _ _ :=
        (reads_field rest).congr (by simp [spans_func])
      rw [hfield] at hfirst
      rw [hmembers] at ih
      exact hfirst.loop_more ih (by simp)
  | case4 rest func mid hfunc hle members after hmembers ih =>
      have hfirst : Reads (.any [.sym .field, .sym .func]) nothing (.keyword .funcKw :: rest) _ _ :=
        (reads_func rest).congr (by simp [spans_field])
      rw [hfunc] at hfirst
      rw [hmembers] at ih
      exact hfirst.loop_more ih (by simp)
  | case3 rest field mid hfield hle =>
      have hrest := readField_rest rest
      rw [hfield] at hrest
      exact absurd (Nat.le_trans hrest (Nat.sub_le ..)) hle
  | case5 rest func mid hfunc hle =>
      have hrest := readFunc_rest rest
      rw [hfunc] at hrest
      exact absurd (Nat.le_trans hrest (Nat.sub_le ..)) hle
  | case6 ts hrbrace hlet hfunc =>
      refine .loop_done (.fault ?_ _) ?_
      · simpa using hrbrace
      · intro after
        simp only [spans_any_cons, spans_any_single, spans_field, spans_func]
        grind

theorem reads_dropSemi (ts : List Token) :
    Reads (.opt (.mark .semi)) (· = .mark .semi) ts [] (dropToken (.mark .semi) ts) := by
  unfold dropToken
  split
  · rename_i h
    obtain ⟨rest, rfl⟩ := List.head?_eq_some_iff.mp h
    exact .opt_some (.single (by simp)) (by simp)
  · rename_i h
    refine .opt_none fun after hspans => h ?_
    rw [spans_mark.mp hspans]
    rfl

theorem spans_class {ts rest : List Token} : Spans (.sym .classDef) ts rest ↔
    ∃ mid, ts = .keyword .classKw :: mid ∧
      Spans (.seq (.kind .name) (.seq (.mark .lbrace)
        (.seq (.seq (.many (.any [.sym .field, .sym .func])) (.mark .rbrace))
          (.opt (.mark .semi))))) mid rest := by
  rw [spans_sym]
  simp only [Nonterminal.rule, Phrase.all, spans_seq, spans_word]
  grind

theorem reads_class (ts : List Token) :
    Reads (.sym .classDef) (· = .mark .semi) (.keyword .classKw :: ts) (readClass ts).1.faults
      (readClass ts).2 := by
  have hmembers := (reads_members (readToken (.mark .lbrace) (readName ts).2).2).andThen
    (reads_dropSemi _)
  have hclass := (reads_name ts).andThen ((reads_token (.mark .lbrace) _).andThen hmembers)
  rw [List.append_nil, ← List.append_assoc] at hclass
  exact hclass.congr fun _ => spans_class.trans (by simp)

theorem reads_value (ts : List Token) :
    Reads (.opt (.all [.op .assign, .kind .int])) (· = .operator .assign) ts
      ((readValue ts).1.elim [] Required.faults) (readValue ts).2 := by
  fun_cases readValue ts with
  | case1 value rest => exact .opt_some (.single (by simp)) (by simp)
  | case2 rest hint =>
      exact .opt_fault (by simpa using fun after value => hint value after) (by simp) _
  | case3 ts _ hassign =>
      exact .opt_none (by simpa using fun after value hts => absurd hts (hassign _))

theorem reads_enumerator (ts : List Token) :
    Reads (.sym .enumerator) (· = .operator .assign) ts (readEnumerator ts).1.faults
      (readEnumerator ts).2 :=
  .sym ((reads_name ts).andThen (reads_value _))

/-- Enumerators, the optional comma after them and the closing brace. -/
def Phrase.enumerators : Phrase :=
  .seq (.opt (.all [.commas (.sym .enumerator), .opt (.mark .comma)])) (.mark .rbrace)

/-- What follows one enumerator. -/
def Phrase.enumeratorsTail : Phrase :=
  .alt (.mark .rbrace) (.seq (.mark .comma) .enumerators)

theorem spans_enumerators {ts rest : List Token} : Spans .enumerators ts rest ↔
    ts = .mark .rbrace :: rest ∨ Spans (.seq (.sym .enumerator) .enumeratorsTail) ts rest := by
  have hsome : ∀ ts, Spans .enumerators ts rest ↔
      ts = .mark .rbrace :: rest ∨ ∃ mid, Spans (.commas (.sym .enumerator)) ts mid ∧
        (mid = .mark .comma :: .mark .rbrace :: rest ∨ mid = .mark .rbrace :: rest) := by
    intro ts
    simp only [Phrase.enumerators, Phrase.all, spans_seq, spans_opt, spans_mark]
    grind
  simp only [Phrase.enumeratorsTail, spans_seq, spans_alt, spans_mark, hsome]
  refine or_congr_right ⟨?_, ?_⟩
  · rintro ⟨mid, hcommas, hmid⟩
    obtain ⟨mid₁, hfirst, rfl | ⟨mid₂, rfl, hcommas⟩⟩ := spans_commas.mp hcommas
    · exact ⟨mid₁, hfirst, hmid.symm.imp_right fun h => ⟨_, h, .inl rfl⟩⟩
    · exact ⟨_, hfirst, .inr ⟨mid₂, rfl, .inr ⟨mid, hcommas, hmid⟩⟩⟩
  · rintro ⟨mid, hfirst, rfl | ⟨mid₁, rfl, rfl | ⟨mid₂, hcommas, hmid⟩⟩⟩
    · exact ⟨_, spans_commas.mpr ⟨_, hfirst, .inl rfl⟩, .inr rfl⟩
    · exact ⟨_, spans_commas.mpr ⟨_, hfirst, .inl rfl⟩, .inl rfl⟩
    · exact ⟨mid₂, spans_commas.mpr ⟨_, hfirst, .inr ⟨mid₁, rfl, hcommas⟩⟩, hmid⟩

theorem Reads.enumerators {ts mid rest : List Token} {faults faults' : List Fault}
    (hts : ts.head? ≠ some (.mark .rbrace))
    (hfirst : Reads (.sym .enumerator) (· = .operator .assign) ts faults mid)
    (htail : Reads .enumeratorsTail nothing mid faults' rest) :
    Reads .enumerators nothing ts (faults ++ faults') rest := by
  refine (hfirst.seq htail ?_).congr fun after => spans_enumerators.trans ?_
  · intro mid after hspans _
    simp only [Phrase.enumeratorsTail, spans_alt, spans_seq, spans_mark] at hspans
    rcases hspans with rfl | ⟨_, rfl, -⟩
    all_goals simp
  · have hne : ts ≠ .mark .rbrace :: after := by
      rintro rfl
      exact hts rfl
    simp [hne]

theorem reads_enumerators (ts : List Token) :
    Reads .enumerators nothing ts
      ((readEnumerators ts).1.flatMap EnumeratorTree.faults ++
        (readToken (.mark .rbrace) (readEnumerators ts).2).1.faults)
      (readToken (.mark .rbrace) (readEnumerators ts).2).2 := by
  fun_induction readEnumerators ts with
  | case1 ts hts =>
      obtain ⟨rest, rfl⟩ := List.head?_eq_some_iff.mp hts
      have hnone : ∀ after, ¬ Spans (.sym .enumerator) (.mark .rbrace :: rest) after := by
        intro after hspans
        obtain ⟨_, hname, -⟩ := spans_seq.mp (spans_sym.mp hspans)
        simp at hname
      refine (reads_token (.mark .rbrace) (.mark .rbrace :: rest)).congr fun after => ?_
      exact spans_enumerators.trans (by simp [hnone])
  | case2 ts hts member rest hmember hlt members after hmembers ih =>
      have hfirst := reads_enumerator ts
      rw [hmember] at hfirst
      rw [hmembers] at ih
      rw [List.flatMap_cons, List.append_assoc]
      exact .enumerators hts hfirst (ih.congr (by simp [Phrase.enumeratorsTail]))
  | case3 ts hts member rest hmember hlt =>
      have hrest := readEnumerator_rest ts
      simp [hmember] at hrest
      omega
  | case4 ts hts member rest hrest hmember =>
      have hfirst := reads_enumerator ts
      rw [hmember] at hfirst
      rw [List.flatMap_singleton]
      have hcomma : ∀ after, rest ≠ .mark .comma :: after := hrest
      refine .enumerators hts hfirst ((reads_token (.mark .rbrace) rest).congr ?_)
      simp [Phrase.enumeratorsTail, hcomma]

theorem spans_enum {ts rest : List Token} : Spans (.sym .enumDef) ts rest ↔
    ∃ mid, ts = .keyword .enumKw :: mid ∧
      Spans (.seq (.kind .name) (.seq (.mark .lbrace) (.seq .enumerators (.opt (.mark .semi)))))
        mid rest := by
  rw [spans_sym]
  simp only [Nonterminal.rule, Phrase.all, Phrase.enumerators, spans_seq, spans_word]
  grind

theorem reads_enum (ts : List Token) :
    Reads (.sym .enumDef) (· = .mark .semi) (.keyword .enumKw :: ts) (readEnum ts).1.faults
      (readEnum ts).2 := by
  have hmembers := (reads_enumerators (readToken (.mark .lbrace) (readName ts).2).2).andThen
    (reads_dropSemi _)
  have henum := (reads_name ts).andThen ((reads_token (.mark .lbrace) _).andThen hmembers)
  rw [List.append_nil, ← List.append_assoc, ← List.append_assoc] at henum
  exact henum.congr fun _ => spans_enum.trans (by simp)

/-! ## Units -/

theorem spans_item {ts rest : List Token} : Spans (.sym .item) ts rest ↔
    Spans (.sym .classDef) ts rest ∨ Spans (.sym .enumDef) ts rest ∨ Spans (.sym .func) ts rest ∨
      Spans (.sym .var) ts rest := by
  rw [spans_sym]
  simp [Nonterminal.rule]

theorem reads_item (ts : List Token) :
    Reads (.sym .item) (· = .mark .semi) ts (readItem ts).1.faults (readItem ts).2 := by
  fun_cases readItem ts with
  | case1 rest item after heq =>
      have hclass := reads_class rest
      rw [heq] at hclass
      exact hclass.congr (by simp [spans_item, spans_enum, spans_func, spans_var])
  | case2 rest item after heq =>
      have henum := reads_enum rest
      rw [heq] at henum
      exact henum.congr (by simp [spans_item, spans_class, spans_func, spans_var])
  | case3 rest item after heq =>
      have hfunc : Reads (.sym .func) (· = .mark .semi) _ _ _ := (reads_func rest).of_nothing
      rw [heq] at hfunc
      exact hfunc.congr (by simp [spans_item, spans_class, spans_enum, spans_var])
  | case4 rest item after heq =>
      have hvar : Reads (.sym .var) (· = .mark .semi) _ _ _ := (reads_var rest).of_nothing
      rw [heq] at hvar
      exact hvar.congr (by simp [spans_item, spans_class, spans_enum, spans_func])
  | case5 ts hclass henum hfunc hvar =>
      refine .fault (fun after => ?_) _
      simp only [spans_item, spans_class, spans_enum, spans_func, spans_var]
      grind

theorem ends_of_nextToken_eq_end {more : Token → Prop} {ts : List Token}
    (h : nextToken ts = .endOfInput) (hmore : ¬ more .endOfInput) : Ends more ts := by
  intro t ht
  cases ts with
  | nil => cases ht
  | cons u ts =>
      cases ht
      obtain rfl : t = .endOfInput := h
      exact hmore

theorem ends_of_spans_items {ts rest : List Token} (h : Spans (.many (.sym .item)) ts rest)
    (hend : nextToken rest = .endOfInput) : Ends (· = .mark .semi) ts := by
  have hrest : Ends (· = .mark .semi) rest := ends_of_nextToken_eq_end hend (by simp)
  refine hrest.of_many h (fun _ => id) fun rest hitem => ?_
  simp only [spans_item, spans_class, spans_enum, spans_func, spans_var] at hitem
  rcases hitem with ⟨_, rfl, -⟩ | ⟨_, rfl, -⟩ | ⟨_, rfl, -⟩ | ⟨_, rfl, -⟩
  all_goals simp

/-- Reading leaves no fault when items stand there, up to the end of the input. -/
theorem faults_readItems_iff_spans (ts : List Token) :
    (readItems ts).flatMap ItemTree.faults = [] ↔
      ∃ rest, Spans (.many (.sym .item)) ts rest ∧ nextToken rest = .endOfInput := by
  fun_induction readItems ts with
  | case1 => exact iff_of_true rfl ⟨[], spans_many.mpr (.inl rfl), rfl⟩
  | case2 ts => exact iff_of_true rfl ⟨_, spans_many.mpr (.inl rfl), rfl⟩
  | case3 t ts hend item mid heq hle ih =>
      have hitem := reads_item (t :: ts)
      rw [heq] at hitem
      rw [List.flatMap_cons, List.append_eq_nil_iff, ih]
      constructor
      · rintro ⟨hfaults, rest, hrest, hstop⟩
        exact ⟨rest, spans_many.mpr (.inr ⟨mid, hitem.sound hfaults, hrest⟩), hstop⟩
      · rintro ⟨rest, hspans, hstop⟩
        rcases spans_many.mp hspans with rfl | ⟨mid', hfirst, hrest⟩
        · exact (hend hstop).elim
        · obtain ⟨hfaults, rfl⟩ := hitem.complete hfirst (ends_of_spans_items hrest hstop)
          exact ⟨hfaults, rest, hrest, hstop⟩
  | case4 t ts hend item mid heq hle =>
      have hrest := readItem_rest (t :: ts)
      rw [heq] at hrest
      exact absurd hrest hle

theorem Token.exists_body_append (ts : List Token) :
    ∃ rest, ts = body ts ++ rest ∧ nextToken rest = .endOfInput := by
  induction ts with
  | nil => exact ⟨[], rfl, rfl⟩
  | cons t ts ih =>
      by_cases ht : t = .endOfInput
      · subst ht
        exact ⟨.endOfInput :: ts, rfl, rfl⟩
      · obtain ⟨rest, hts, hrest⟩ := ih
        refine ⟨rest, ?_, hrest⟩
        rw [body_cons ht, List.cons_append, ← hts]

theorem Token.body_of_nextToken {ts : List Token} (h : nextToken ts = .endOfInput) :
    body ts = [] := by
  cases ts with
  | nil => rfl
  | cons t ts =>
      obtain rfl : t = .endOfInput := h
      rfl

/-- A unit is grammatical when reading it leaves no fault. -/
theorem faults_readItems (ts : List Token) :
    (readItems ts).flatMap ItemTree.faults = [] ↔ Derives (.sym .unit) (Token.body ts) := by
  rw [faults_readItems_iff_spans]
  constructor
  · rintro ⟨rest, ⟨w, hw, rfl⟩, hend⟩
    have hunit : Derives (.sym .unit) w := .sym hw
    rwa [Token.body_append (hunit.end_not_mem trivial), Token.body_of_nextToken hend,
      List.append_nil]
  · intro h
    obtain ⟨rest, hts, hend⟩ := Token.exists_body_append ts
    cases h with
    | sym h => exact ⟨rest, ⟨_, h, hts⟩, hend⟩

/--
Only words of the grammar are accepted, and no word of the grammar is called
malformed, whatever else may be wrong with it.
-/
theorem analyze_respects_grammar (tokens : List Token) :
    (∀ arena, analyze tokens = .ok arena → Derives (.sym .unit) (Token.body tokens)) ∧
      (Derives (.sym .unit) (Token.body tokens) →
        ∀ what, analyze tokens ≠ .error (.malformed what)) := by
  have hfollows := follows_items (readItems tokens)
  rw [← faults_readItems]
  unfold analyze
  cases hrun : (analyzeItems (readItems tokens) : Action Unit).run .empty with
  | ok _ s => exact ⟨fun _ _ => hfollows.clean hrun, fun _ what => nofun⟩
  | error e s =>
      refine ⟨fun _ => nofun, fun hfaults what heq => ?_⟩
      cases heq
      have hblames := hfollows.blames hrun
      rw [hfaults] at hblames
      simp [Error.Blames, Error.ofMeaning] at hblames

/-- `enum E { A, };` is accepted, and `let vi8 x = y + 1;` is grammatical, though `y` is unknown. -/
theorem respects_grammar_undeclared_unit :
    (∃ a, analyze [.keyword .enumKw, .name "E", .mark .lbrace, .name "A", .mark .comma,
        .mark .rbrace, .mark .semi] = .ok a ∧
      Derives (.sym .unit) (Token.body [.keyword .enumKw, .name "E", .mark .lbrace, .name "A",
        .mark .comma, .mark .rbrace, .mark .semi])) ∧
    Derives (.sym .unit) (Token.body [.keyword .letKw, .builtin .vi8, .name "x", .operator .assign,
      .name "y", .operator .add, .int 1, .mark .semi]) ∧
    ∀ what, analyze [.keyword .letKw, .builtin .vi8, .name "x", .operator .assign, .name "y",
      .operator .add, .int 1, .mark .semi] ≠ .error (.malformed what) := by
  have hderives := (faults_readItems [.keyword .letKw, .builtin .vi8, .name "x",
    .operator .assign, .name "y", .operator .add, .int 1, .mark .semi]).mp (by decide +kernel)
  refine ⟨Check.exists_ok_and (by decide +kernel) ?_, hderives,
    (analyze_respects_grammar _).2 hderives⟩
  exact fun a h => (analyze_respects_grammar _).1 a h

end UnitAnalysis
