import UnitAnalysis.Proofs.Recognition

/-!
# Continuing a unit

Tokens that are added at the end of a unit do not change how its beginning is
read.  A reader that stops before the last token has seen all that it looks
at, and so has one that ends with a token which the grammar requires.  Only the
semicolon after a class or enum may be missing, and then belongs to it when it
comes first in the continuation.

Main statements: `readItems_append` and `begins_of_analyze_append`.
-/

namespace UnitAnalysis

/-- Whatever tokens follow, the reader gives the same and leaves them alone. -/
def ReadsOn {α : Type} (read : List Token → Reading α) (ts : List Token) : Prop :=
  ∀ more, read (ts ++ more) = ((read ts).1, (read ts).2 ++ more)

theorem ReadsOn.eq {α : Type} {read : List Token → Reading α} {ts rest : List Token} {a : α}
    (h : ReadsOn read ts) (heq : read ts = (a, rest)) (more : List Token) :
    read (ts ++ more) = (a, rest ++ more) := by
  rw [h more, heq]

theorem append_ne_cons {ts : List Token} (hts : ts ≠ []) {t : Token}
    (h : ∀ rest, ts = t :: rest → False) (more rest : List Token) :
    ts ++ more = t :: rest → False := by
  obtain ⟨u, tail, rfl⟩ := List.exists_cons_of_ne_nil hts
  intro heq
  obtain ⟨rfl, -⟩ := List.cons.inj heq
  exact h tail rfl

theorem ne_nil_of_rest {ts rest : List Token} (hle : rest.length ≤ ts.length) (h : rest ≠ []) :
    ts ≠ [] := by
  rintro rfl
  exact h (List.length_eq_zero_iff.mp (Nat.le_zero.mp hle))

/-! ## Tokens and paths -/

theorem faults_token_of_rest {t : Token} {ts : List Token} (h : (readToken t ts).2 ≠ []) :
    (readToken t ts).1.faults = [] := by
  unfold readToken at h ⊢
  split
  · rfl
  · rename_i hhead
    simp [hhead] at h

theorem ne_nil_of_token {t : Token} {ts : List Token} (h : (readToken t ts).1.faults = []) :
    ts ≠ [] := by
  rintro rfl
  simp [readToken] at h

theorem readsOn_token {t : Token} {ts : List Token} (h : (readToken t ts).1.faults = []) :
    ReadsOn (readToken t) ts := by
  have hts := ne_nil_of_token h
  intro more
  unfold readToken at h ⊢
  rw [List.head?_append_of_ne_nil _ hts]
  split
  · rw [List.tail_append_of_ne_nil hts]
  · rename_i hhead
    simp [hhead] at h

theorem readsOn_name (ts : List Token) (h : (readName ts).2 ≠ []) : ReadsOn readName ts := by
  intro more
  revert h
  fun_cases readName ts with
  | case1 text rest => exact fun _ => rfl
  | case2 ts hname => exact fun h => absurd rfl h

theorem readsOn_segments (ts : List Token) (h : (readSegments ts).2 ≠ []) :
    ReadsOn readSegments ts := by
  intro more
  fun_induction readSegments ts with
  | case1 text rest segments after heq ih =>
      rw [heq] at ih
      simp only [List.cons_append, readSegments, ih h]
  | case2 rest hname => exact absurd rfl h
  | case3 ts _ hcolons =>
      have hne := append_ne_cons h hcolons more
      rw [readSegments]
      · exact fun text rest => hne (.name text :: rest)
      · exact hne

/-! ## Types -/

theorem readsOn_qualifiers {quals : Qualifiers} (ts : List Token)
    (h : (readQualifiers quals ts).2 ≠ []) : ReadsOn (readQualifiers quals) ts := by
  intro more
  fun_induction readQualifiers quals ts with
  | case1 quals word rest ih => exact ih h
  | case2 quals ts hword =>
      rw [readQualifiers]
      exact fun word => append_ne_cons h (hword word) more

theorem readsOn_suffixes (ts : List Token) (h : (readSuffixes ts).2 ≠ []) :
    ReadsOn readSuffixes ts := by
  intro more
  fun_induction readSuffixes ts with
  | case1 word rest suffixes after heq ih | case2 rest suffixes after heq ih
  | case3 rest suffixes after heq ih =>
      rw [heq] at ih
      simp only [List.cons_append, readSuffixes, ih h]
  | case4 ts hword hmul hamp =>
      rw [readSuffixes]
      · exact fun word => append_ne_cons h (hword word) more
      · exact append_ne_cons h hmul more
      · exact append_ne_cons h hamp more

theorem readsOn_base (ts : List Token) (h : (readBase ts).2 ≠ []) : ReadsOn readBase ts := by
  intro more
  revert h
  fun_cases readBase ts with
  | case1 kind rest => exact fun _ => rfl
  | case2 text rest segments after heq =>
      intro h
      have hrest := readsOn_segments rest (by rw [heq]; exact h)
      simp only [List.cons_append, readBase, hrest.eq heq]
  | case3 ts => exact fun h => absurd rfl h

theorem readsOn_type (ts : List Token) (h : (readType ts).2 ≠ []) : ReadsOn readType ts := by
  have hsuffixes : (readSuffixes (readBase (readQualifiers .none ts).2).2).2 ≠ [] := h
  have hbase := ne_nil_of_rest (readSuffixes_rest _) hsuffixes
  have hquals := ne_nil_of_rest (Nat.le_trans (readBase_rest _) (Nat.sub_le _ 1)) hbase
  intro more
  simp only [readType, readsOn_qualifiers _ hquals more, readsOn_base _ hbase more,
    readsOn_suffixes _ hsuffixes more]

/-! ## Expressions -/

mutual

-- A path could go on with the next token, but something always follows an expression, so that
-- its readers are asked only where tokens are left.  Arguments end by themselves.
theorem readsOn_binary {least : Nat} (ts : List Token) (h : (readBinary least ts).2 ≠ []) :
    ReadsOn (readBinary least) ts := by
  have hrest := readBinary_rest_all.2.2.1 ts
  rw [readBinary_eq] at h
  have hprimary := ne_nil_of_rest (readBinary_rest_all.2.1 least _ _) h
  intro more
  rw [readBinary_eq, readBinary_eq, readsOn_primary ts hprimary more]
  exact readsOn_operators _ _ h more
termination_by 3 * ts.length + 2

theorem readsOn_operators {least : Nat} (lhs : ExprTree) (ts : List Token)
    (h : (readOperators least lhs ts).2 ≠ []) : ReadsOn (readOperators least lhs) ts := by
  intro more
  by_cases hop : ∃ op rest, ts = .operator op :: rest ∧ least ≤ op.precedence
  · obtain ⟨op, rest, hts, hop⟩ := hop
    have hlength : ts.length = rest.length + 1 := by rw [hts, List.length_cons]
    have hrest := readBinary_rest_all.1 op.rightPrecedence rest
    rw [hts, readOperators_operator hop] at h
    have hoperand := ne_nil_of_rest (readBinary_rest_all.2.1 least _ _) h
    rw [hts, List.cons_append, readOperators_operator hop, readOperators_operator hop,
      readsOn_binary rest hoperand more]
    exact readsOn_operators _ _ h more
  · have hstop : ∀ op rest, ts = .operator op :: rest → op.precedence < least := by
      intro op rest hts
      exact Nat.lt_of_not_le fun hle => hop ⟨op, rest, hts, hle⟩
    rw [readOperators_stop lhs hstop] at h ⊢
    rw [readOperators_stop]
    intro op rest happend
    refine Nat.lt_of_not_le fun hle => ?_
    exact append_ne_cons h (fun tail hts => hop ⟨op, tail, hts, hle⟩) more rest happend
termination_by 3 * ts.length + 1

theorem readsOn_primary (ts : List Token) (h : (readPrimary ts).2 ≠ []) :
    ReadsOn readPrimary ts := by
  intro more
  revert h
  fun_cases readPrimary ts with
  | case1 value rest | case2 value rest | case3 value rest =>
      intro _
      simp only [List.cons_append, readPrimary]
  | case4 rest inner atParen hinner after hparen =>
      intro _
      have hclosed : (readToken (.mark .rparen) atParen).1.faults = [] := by rw [hparen]; rfl
      have hexpr : ReadsOn (readBinary 1) rest :=
        readsOn_binary rest (by rw [hinner]; exact ne_nil_of_token hclosed)
      simp only [List.cons_append, readPrimary, hexpr.eq hinner, (readsOn_token hclosed).eq hparen]
  | case5 rest inner atParen hinner fault after hparen =>
      intro h
      have hok : (readToken (.mark .rparen) atParen).1.faults = [] :=
        faults_token_of_rest (by rw [hparen]; exact h)
      rw [hparen] at hok
      cases hok
  | case6 text rest fault after heq =>
      intro h
      have hsegments := readsOn_segments rest (by rw [heq]; exact h)
      simp only [List.cons_append, readPrimary, hsegments.eq heq]
  | case7 text rest segments after heq hlt args last hargs =>
      intro h
      have hsegments := readsOn_segments rest (by rw [heq]; exact List.cons_ne_nil _ _)
      have hcall := readsOn_args after (.inl (by rw [hargs]; exact h))
      have hlt' : (after ++ more).length < (rest ++ more).length := by simpa using hlt
      simp only [List.cons_append, readPrimary, hsegments.eq heq, hlt', if_true, hcall.eq hargs]
  | case8 text rest segments after heq hlt =>
      have hrest := readSegments_rest rest
      rw [heq] at hrest
      exact absurd hrest hlt
  | case9 text rest segments mid hmid heq =>
      intro h
      have hsegments := readsOn_segments rest (by rw [heq]; exact h)
      simp only [List.cons_append, readPrimary, hsegments.eq heq]
      split
      · cases (Prod.mk.inj ‹_›).1
      · exact (append_ne_cons h hmid more _ (Prod.mk.inj ‹_›).2).elim
      · rename_i hsame
        cases hsame
        rfl
  | case10 ts => exact fun h => absurd rfl h
termination_by 3 * ts.length
decreasing_by
  all_goals subst_vars
  all_goals simp only [List.length_cons]
  all_goals omega

theorem readsOn_args (ts : List Token)
    (h : (readArgs ts).2 ≠ [] ∨ ExprTree.faultsAll (readArgs ts).1 = []) : ReadsOn readArgs ts := by
  have hts : ts ≠ [] := by
    rintro rfl
    simp [readArgs, readArgsFrom, readBinary, readPrimary, readToken, ExprTree.faultsAll,
      ExprTree.faults] at h
  intro more
  rw [readArgs] at h ⊢
  rw [readArgs, List.head?_append_of_ne_nil _ hts]
  split
  · rw [List.tail_append_of_ne_nil hts]
  · rename_i hhead
    rw [if_neg hhead] at h
    exact readsOn_argsFrom ts h more
termination_by 3 * ts.length + 4

theorem readsOn_argsFrom (ts : List Token)
    (h : (readArgsFrom ts).2 ≠ [] ∨ ExprTree.faultsAll (readArgsFrom ts).1 = []) :
    ReadsOn readArgsFrom ts := by
  intro more
  revert h
  fun_cases readArgsFrom ts with
  | case1 arg after harg hlt args last hargs =>
      intro h
      have hexpr : ReadsOn (readBinary 1) ts :=
        readsOn_binary ts (by rw [harg]; exact List.cons_ne_nil _ _)
      have hmore := readsOn_argsFrom after (by
        rw [hargs]
        exact h.imp id fun hfaults => (List.append_eq_nil_iff.mp hfaults).2)
      have hlt' : (after ++ more).length < (ts ++ more).length := by simpa using hlt
      rw [readArgsFrom, hexpr.eq harg]
      simp only [List.cons_append, hmore.eq hargs, hlt', if_true]
  | case2 arg after harg hlt =>
      have hrest := readBinary_rest_all.1 1 ts
      simp [harg] at hrest
      omega
  | case3 arg after hafter harg last hclose =>
      intro _
      have hclosed : (readToken (.mark .rparen) after).1.faults = [] := by rw [hclose]; rfl
      have hne := ne_nil_of_token hclosed
      have hexpr : ReadsOn (readBinary 1) ts := readsOn_binary ts (by rw [harg]; exact hne)
      rw [readArgsFrom, hexpr.eq harg]
      split
      · exact (append_ne_cons hne hafter more _ (Prod.mk.inj ‹_›).2).elim
      · rename_i hsame
        cases hsame
        simp only [(readsOn_token hclosed).eq hclose]
  | case4 arg after hafter harg fault last hclose =>
      rintro (h | h)
      · have hok : (readToken (.mark .rparen) after).1.faults = [] :=
          faults_token_of_rest (by rw [hclose]; exact h)
        rw [hclose] at hok
        cases hok
      · simp [ExprTree.faultsAll, ExprTree.faults] at h
termination_by 3 * ts.length + 3

end

theorem readsOn_expr (ts : List Token) (h : (readExpr ts).2 ≠ []) : ReadsOn readExpr ts :=
  readsOn_binary ts h

/-! ## Variables and statements -/

theorem readsOn_init (ts : List Token) (h : (readInit ts).2 ≠ []) : ReadsOn readInit ts := by
  intro more
  revert h
  fun_cases readInit ts with
  | case1 rest init after heq =>
      intro h
      have hexpr := readsOn_expr rest (by rw [heq]; exact h)
      simp only [List.cons_append, readInit, hexpr.eq heq]
  | case2 ts hassign =>
      intro h
      rw [readInit]
      exact append_ne_cons h hassign more

theorem readsOn_var (ts : List Token) (h : (readVar ts).1.faults = []) : ReadsOn readVar ts := by
  have hsemi : (readToken (.mark .semi) (readInit (readName (readType ts).2).2).2).1.faults = [] :=
    (List.append_eq_nil_iff.mp h).2
  have hinit := ne_nil_of_token hsemi
  have hname := ne_nil_of_rest (readInit_rest _) hinit
  have htype := ne_nil_of_rest (Nat.le_trans (readName_rest _) (Nat.sub_le _ 1)) hname
  intro more
  simp only [readVar, readsOn_type _ htype more, readsOn_name _ hname more,
    readsOn_init _ hinit more, readsOn_token hsemi more]

theorem readsOn_returnValue (ts : List Token) (h : (readReturnValue ts).2 ≠ []) :
    ReadsOn readReturnValue ts := by
  have hts := ne_nil_of_rest (readReturnValue_rest ts) h
  intro more
  unfold readReturnValue at h ⊢
  rw [List.head?_append_of_ne_nil _ hts]
  split
  · rfl
  · rename_i hhead
    rw [if_neg hhead] at h
    simp only [readsOn_expr _ h more]

mutual

theorem readsOn_stmt (ts : List Token) (h : (readStmt ts).1.faults = []) :
    ReadsOn readStmt ts := by
  intro more
  revert h
  fun_cases readStmt ts with
  | case1 rest body after heq =>
      intro h
      have hblock := readsOn_block rest (by rw [heq]; exact h)
      simp only [List.cons_append, readStmt, hblock.eq heq]
  | case2 rest var after heq =>
      intro h
      have hvar := readsOn_var rest (by rw [heq]; exact h)
      simp only [List.cons_append, readStmt, hvar.eq heq]
  | case3 rest value mid heq semi after hsemi =>
      intro h
      have hclosed : (readToken (.mark .semi) mid).1.faults = [] := by
        rw [hsemi]
        exact (List.append_eq_nil_iff.mp h).2
      have hvalue := readsOn_returnValue rest (by rw [heq]; exact ne_nil_of_token hclosed)
      simp only [List.cons_append, readStmt, hvalue.eq heq, (readsOn_token hclosed).eq hsemi]
  | case4 ts value mid heq semi after hsemi hblock hvar hreturn =>
      change (StmtTree.expr (readExpr ts).1
          (readToken (.mark .semi) (readExpr ts).2).1).faults = [] →
        readStmt (ts ++ more) = (.expr (readExpr ts).1 (readToken (.mark .semi) (readExpr ts).2).1,
          (readToken (.mark .semi) (readExpr ts).2).2 ++ more)
      intro h
      have hclosed := (List.append_eq_nil_iff.mp h).2
      have hexpr := ne_nil_of_token hclosed
      have hts := ne_nil_of_rest (Nat.le_trans (readExpr_rest ts) (Nat.sub_le _ 1)) hexpr
      rw [readStmt, readsOn_expr _ hexpr more]
      · simp only [readsOn_token hclosed more]
      · exact append_ne_cons hts hblock more
      · exact append_ne_cons hts hvar more
      · exact append_ne_cons hts hreturn more
termination_by 2 * ts.length

theorem readsOn_block (ts : List Token) (h : StmtTree.faultsAll (readBlock ts).1 = []) :
    ReadsOn readBlock ts := by
  intro more
  revert h
  fun_cases readBlock ts with
  | case1 | case2 =>
      intro h
      cases h
  | case3 rest =>
      intro _
      simp only [List.cons_append, readBlock]
  | case4 t ts hend ht stmt mid hstmt hle stmts after hstmts =>
      intro h
      obtain ⟨hfirst, hrest⟩ := List.append_eq_nil_iff.mp h
      have hstmtOn := readsOn_stmt (t :: ts) (by rw [hstmt]; exact hfirst)
      have hblock := readsOn_block mid (by rw [hstmts]; exact hrest)
      have hle' : (mid ++ more).length ≤ (ts ++ more).length := by simpa using hle
      have hread := hstmtOn.eq hstmt more
      rw [List.cons_append] at hread ⊢
      rw [readBlock, hread]
      · simp only [hle', if_true, hblock.eq hstmts]
      · exact hend
      · exact ht
  | case5 t ts hend ht stmt mid hstmt hle =>
      have hrest := readStmt_rest (t :: ts)
      rw [hstmt] at hrest
      exact absurd hrest hle
termination_by 2 * ts.length + 1
decreasing_by
  all_goals subst_vars
  all_goals simp only [List.length_cons]
  all_goals omega

end

/-! ## Functions -/

theorem skipParens?_append {depth : Nat} {ts rest : List Token}
    (h : skipParens? depth ts = some rest) (more : List Token) :
    skipParens? depth (ts ++ more) = some (rest ++ more) := by
  fun_induction skipParens? depth ts with
  | case1 | case2 => cases h
  | case3 depth tail ih | case5 tail depth ih => exact ih h
  | case4 tail =>
      cases h
      rfl
  | case6 depth t tail hend hl hr ih =>
      rw [List.cons_append, skipParens?, ih h]
      · exact hend
      · exact hl
      · exact hr

theorem skipParams_append {ts rest : List Token} (h : skipParams ts = .ok rest)
    (more : List Token) : skipParams (ts ++ more) = .ok (rest ++ more) := by
  unfold skipParams at h
  split at h
  · rename_i tail
    split at h
    · rename_i after hskip
      cases h
      simp only [List.cons_append, skipParams, skipParens?_append hskip]
    · cases h
  · cases h

theorem readsOn_param (ts : List Token) (h : (readParam ts).2 ≠ []) : ReadsOn readParam ts := by
  have hname : (readName (readType ts).2).2 ≠ [] := h
  have htype := ne_nil_of_rest (Nat.le_trans (readName_rest _) (Nat.sub_le _ 1)) hname
  intro more
  simp only [readParam, readsOn_type _ htype more, readsOn_name _ hname more]

theorem readsOn_paramsFrom (ts : List Token) (h : (readParamsFrom ts).2 ≠ []) :
    ReadsOn readParamsFrom ts := by
  intro more
  fun_induction readParamsFrom ts with
  | case1 ts param rest hparam hlt params after hparams ih =>
      rw [hparams] at ih
      have hfirst := readsOn_param ts (by rw [hparam]; exact List.cons_ne_nil _ _)
      have hlt' : (rest ++ more).length < (ts ++ more).length := by simpa using hlt
      rw [readParamsFrom, hfirst.eq hparam]
      simp only [List.cons_append, hlt', if_true, ih h]
  | case2 ts param rest hparam hlt =>
      have hrest := readParam_rest ts
      simp [hparam] at hrest
      omega
  | case3 ts param rest hrest hparam =>
      have hfirst := readsOn_param ts (by rw [hparam]; exact h)
      rw [readParamsFrom, hfirst.eq hparam]
      split
      · exact (append_ne_cons h hrest more _ (Prod.mk.inj ‹_›).2).elim
      · rename_i hsame
        cases hsame
        rfl

theorem readParams_rest (ts : List Token) : (readParams ts).2.length ≤ ts.length := by
  have hfrom : (readParamsFrom ts).2.length ≤ ts.length := by
    fun_induction readParamsFrom ts <;> grind [readParam_rest]
  unfold readParams
  split
  · exact Nat.le_refl _
  · exact hfrom

theorem readsOn_params (ts : List Token) (h : (readParams ts).2 ≠ []) : ReadsOn readParams ts := by
  have hts := ne_nil_of_rest (readParams_rest ts) h
  intro more
  unfold readParams at h ⊢
  rw [List.head?_append_of_ne_nil _ hts]
  split
  · rfl
  · rename_i hhead
    rw [if_neg hhead] at h
    exact readsOn_paramsFrom _ h more

theorem readsOn_returnType (ts : List Token) (h : (readReturnType ts).2 ≠ []) :
    ReadsOn readReturnType ts := by
  intro more
  revert h
  fun_cases readReturnType ts with
  | case1 rest type after heq =>
      intro h
      have htype := readsOn_type rest (by rw [heq]; exact h)
      simp only [List.cons_append, readReturnType, htype.eq heq]
  | case2 ts harrow =>
      intro h
      rw [readReturnType]
      exact append_ne_cons h harrow more

theorem readsOn_body (ts : List Token) (h : (readBody ts).1.faults = []) :
    ReadsOn readBody ts := by
  intro more
  revert h
  fun_cases readBody ts with
  | case1 rest => exact fun _ => rfl
  | case2 rest body after heq =>
      intro h
      have hblock := readsOn_block rest (by rw [heq]; exact h)
      simp only [List.cons_append, readBody, hblock.eq heq]
  | case3 ts =>
      intro h
      cases h

theorem readsOn_func (ts : List Token) (h : (readFunc ts).1.faults = []) :
    ReadsOn readFunc ts := by
  intro more
  revert h
  cases hskip : skipParams (readName ts).2 with
  | error fault =>
      intro h
      simp [readFunc, hskip, FuncTree.faults] at h
  | ok rest =>
      have hname : (readName ts).2 ≠ [] := by
        intro hnil
        rw [hnil] at hskip
        cases hskip
      simp only [readFunc, hskip, FuncTree.faults, List.append_eq_nil_iff]
      rintro ⟨⟨-, hrparen⟩, hbody⟩
      have hparams := ne_nil_of_token hrparen
      have hreturn : (readReturnType rest).2 ≠ [] := by
        intro hnil
        rw [hnil] at hbody
        cases hbody
      simp only [readsOn_name _ hname more, skipParams_append hskip,
        readsOn_returnType _ hreturn more, List.tail_append_of_ne_nil hname,
        readsOn_params _ hparams more, readsOn_token hrparen more, readsOn_body _ hbody more]

/-! ## Classes and enums -/

theorem readsOn_field (ts : List Token) (h : (readField ts).1.faults = []) :
    ReadsOn readField ts := by
  have hsemi : (readToken (.mark .semi) (readName (readType ts).2).2).1.faults = [] :=
    (List.append_eq_nil_iff.mp h).2
  have hname := ne_nil_of_token hsemi
  have htype := ne_nil_of_rest (Nat.le_trans (readName_rest _) (Nat.sub_le _ 1)) hname
  intro more
  simp only [readField, readsOn_type _ htype more, readsOn_name _ hname more,
    readsOn_token hsemi more]

theorem readsOn_members (ts : List Token)
    (h : (readMembers ts).1.flatMap MemberTree.faults = []) : ReadsOn readMembers ts := by
  intro more
  fun_induction readMembers ts with
  | case1 rest => simp only [List.cons_append, readMembers]
  | case2 rest field mid hfield hle members after hmembers ih =>
      rw [List.flatMap_cons, List.append_eq_nil_iff] at h
      rw [hmembers] at ih
      have hfirst := readsOn_field rest (by rw [hfield]; exact h.1)
      have hle' : (mid ++ more).length ≤ (rest ++ more).length := by simpa using hle
      simp only [List.cons_append, readMembers, hfirst.eq hfield, hle', if_true, ih h.2]
  | case4 rest func mid hfunc hle members after hmembers ih =>
      rw [List.flatMap_cons, List.append_eq_nil_iff] at h
      rw [hmembers] at ih
      have hfirst := readsOn_func rest (by rw [hfunc]; exact h.1)
      have hle' : (mid ++ more).length ≤ (rest ++ more).length := by simpa using hle
      simp only [List.cons_append, readMembers, hfirst.eq hfunc, hle', if_true, ih h.2]
  | case3 rest field mid hfield hle =>
      have hrest := readField_rest rest
      rw [hfield] at hrest
      exact absurd (Nat.le_trans hrest (Nat.sub_le ..)) hle
  | case5 rest func mid hfunc hle =>
      have hrest := readFunc_rest rest
      rw [hfunc] at hrest
      exact absurd (Nat.le_trans hrest (Nat.sub_le ..)) hle
  | case6 ts => cases h

theorem readsOn_value (ts : List Token) (h : (readValue ts).2 ≠ []) : ReadsOn readValue ts := by
  intro more
  revert h
  fun_cases readValue ts with
  | case1 value rest => exact fun _ => rfl
  | case2 rest hint => exact fun h => absurd rfl h
  | case3 ts _ hassign =>
      intro h
      have hne := append_ne_cons h hassign more
      rw [readValue]
      · exact fun value rest => hne (.int value :: rest)
      · exact hne

theorem readsOn_enumerator (ts : List Token) (h : (readEnumerator ts).2 ≠ []) :
    ReadsOn readEnumerator ts := by
  have hvalue : (readValue (readName ts).2).2 ≠ [] := h
  have hname := ne_nil_of_rest (readValue_rest _) hvalue
  intro more
  simp only [readEnumerator, readsOn_name _ hname more, readsOn_value _ hvalue more]

theorem readsOn_enumerators (ts : List Token) (h : (readEnumerators ts).2 ≠ []) :
    ReadsOn readEnumerators ts := by
  intro more
  fun_induction readEnumerators ts with
  | case1 ts hts => rw [readEnumerators, List.head?_append_of_ne_nil _ h, if_pos hts]
  | case2 ts hts member rest hmember hlt members after hmembers ih =>
      rw [hmembers] at ih
      have hfirst := readsOn_enumerator ts (by rw [hmember]; exact List.cons_ne_nil _ _)
      have hne : ts ≠ [] := List.ne_nil_of_length_pos (Nat.zero_lt_of_lt hlt)
      have hlt' : (rest ++ more).length < (ts ++ more).length := by simpa using hlt
      rw [readEnumerators, List.head?_append_of_ne_nil _ hne, if_neg hts, hfirst.eq hmember]
      simp only [List.cons_append, hlt', if_true, ih h]
  | case3 ts hts member rest hmember hlt =>
      have hrest := readEnumerator_rest ts
      simp [hmember] at hrest
      omega
  | case4 ts hts member rest hrest hmember =>
      have hfirst := readsOn_enumerator ts (by rw [hmember]; exact h)
      have hne : ts ≠ [] := by
        have hle := readEnumerator_rest ts
        rw [hmember] at hle
        exact ne_nil_of_rest (Nat.le_trans hle (Nat.sub_le _ 1)) h
      rw [readEnumerators, List.head?_append_of_ne_nil _ hne, if_neg hts, hfirst.eq hmember]
      split
      · exact (append_ne_cons h hrest more _ (Prod.mk.inj ‹_›).2).elim
      · rename_i hsame
        cases hsame
        rfl

/-! ## Units -/

/--
Whatever tokens follow, the reader gives the same, and leaves them alone unless
it has read all tokens.
-/
def Continues {α : Type} (read : List Token → Reading α) (ts : List Token) : Prop :=
  ∀ more, (read (ts ++ more)).1 = (read ts).1 ∧
    ((read ts).2 ≠ [] → (read (ts ++ more)).2 = (read ts).2 ++ more)

theorem ReadsOn.continues {α : Type} {read : List Token → Reading α} {ts : List Token}
    (h : ReadsOn read ts) : Continues read ts := by
  intro more
  rw [h more]
  exact ⟨rfl, fun _ => rfl⟩

theorem dropToken_append {t : Token} {ts : List Token} (h : dropToken t ts ≠ [])
    (more : List Token) : dropToken t (ts ++ more) = dropToken t ts ++ more := by
  have hts := ne_nil_of_rest (dropToken_rest t ts) h
  unfold dropToken
  rw [List.head?_append_of_ne_nil _ hts]
  split
  · rw [List.tail_append_of_ne_nil hts]
  · rfl

theorem continues_class (ts : List Token) (h : (readClass ts).1.faults = []) :
    Continues readClass ts := by
  simp only [readClass, ClassTree.faults, List.append_eq_nil_iff] at h
  obtain ⟨⟨-, hlbrace⟩, hmembers⟩ := h
  have hname := ne_nil_of_token hlbrace
  intro more
  simp only [readClass, readsOn_name _ hname more, readsOn_token hlbrace more,
    readsOn_members _ hmembers more]
  exact ⟨trivial, fun h => dropToken_append h more⟩

theorem continues_enum (ts : List Token) (h : (readEnum ts).1.faults = []) :
    Continues readEnum ts := by
  simp only [readEnum, EnumTree.faults, List.append_eq_nil_iff] at h
  obtain ⟨⟨⟨-, hlbrace⟩, -⟩, hrbrace⟩ := h
  have hname := ne_nil_of_token hlbrace
  have hmembers := ne_nil_of_token hrbrace
  intro more
  simp only [readEnum, readsOn_name _ hname more, readsOn_token hlbrace more,
    readsOn_enumerators _ hmembers more, readsOn_token hrbrace more]
  exact ⟨trivial, fun h => dropToken_append h more⟩

theorem continues_item (ts : List Token) (h : (readItem ts).1.faults = []) :
    Continues readItem ts := by
  intro more
  revert h
  fun_cases readItem ts with
  | case1 rest item after heq =>
      intro h
      obtain ⟨hitem, hafter⟩ := continues_class rest (by rw [heq]; exact h) more
      rw [heq] at hitem hafter
      exact ⟨congrArg ItemTree.classItem hitem, hafter⟩
  | case2 rest item after heq =>
      intro h
      obtain ⟨hitem, hafter⟩ := continues_enum rest (by rw [heq]; exact h) more
      rw [heq] at hitem hafter
      exact ⟨congrArg ItemTree.enumItem hitem, hafter⟩
  | case3 rest item after heq =>
      intro h
      obtain ⟨hitem, hafter⟩ := (readsOn_func rest (by rw [heq]; exact h)).continues more
      rw [heq] at hitem hafter
      exact ⟨congrArg ItemTree.funcItem hitem, hafter⟩
  | case4 rest item after heq =>
      intro h
      obtain ⟨hitem, hafter⟩ := (readsOn_var rest (by rw [heq]; exact h)).continues more
      rw [heq] at hitem hafter
      exact ⟨congrArg ItemTree.varItem hitem, hafter⟩
  | case5 ts =>
      intro h
      cases h

theorem readItems_cons {t : Token} (ht : t ≠ .endOfInput) (ts : List Token) :
    readItems (t :: ts) = (readItem (t :: ts)).1 :: readItems (readItem (t :: ts)).2 := by
  rw [readItems]
  · exact if_pos (readItem_rest (t :: ts))
  · exact ht

/-- Added tokens give further items only, if the tokens before them have no fault. -/
theorem readItems_append {ts : List Token} (h : (readItems ts).flatMap ItemTree.faults = [])
    (more : List Token) : readItems ts <+: readItems (ts ++ more) := by
  fun_induction readItems ts with
  | case1 | case2 => exact List.nil_prefix
  | case3 t ts hend item rest heq hle ih =>
      rw [List.flatMap_cons, List.append_eq_nil_iff] at h
      obtain ⟨hitem, hrest⟩ := continues_item (t :: ts) (by rw [heq]; exact h.1) more
      rw [heq] at hitem hrest
      rw [List.cons_append] at hitem hrest ⊢
      rw [readItems_cons hend, hitem, List.cons_prefix_cons]
      refine ⟨rfl, ?_⟩
      -- With all tokens read, a semicolon of the continuation may still belong to the item.
      by_cases hnil : rest = []
      · rw [hnil, readItems]
        exact List.nil_prefix
      · rw [hrest hnil]
        exact ih h.2
  | case4 t ts hend item rest heq hle =>
      have hrest := readItem_rest (t :: ts)
      rw [heq] at hrest
      exact absurd hrest hle

open UnitAnalysis.Action

theorem gives_of_analyze {tokens : List Token} {a : Arena} (h : analyze tokens = .ok a) :
    ∃ s, Gives (analyzeItems (readItems tokens)) .empty () s ∧ s.arena = a := by
  unfold analyze at h
  split at h
  · rename_i s hrun
    exact ⟨s, hrun, Except.ok.inj h⟩
  · contradiction

theorem analyzeItems_append (items later : List ItemTree) :
    (analyzeItems (items ++ later) : Action Unit) =
      analyzeItems items >>= fun _ => analyzeItems later := by
  simp [analyzeItems]

/-- The second arena begins with the first one; only the list of the unit may be longer. -/
structure Arena.Begins (a b : Arena) : Prop where
  size_le : a.size ≤ b.size
  decl?_eq : ∀ id, 0 < id → id < a.size → b.decl? id = a.decl? id
  members : ∃ members later, a.members? root = some members ∧
    b.members? root = some (members ++ later)

/-- One pass, nothing is revised: what is declared stays as it is, whatever follows. -/
theorem begins_of_analyze_append {tokens more : List Token} {a b : Arena}
    (ha : analyze tokens = .ok a) (hb : analyze (tokens ++ more) = .ok b) : a.Begins b := by
  obtain ⟨s, hrun, rfl⟩ := gives_of_analyze ha
  obtain ⟨s', hrun', rfl⟩ := gives_of_analyze hb
  -- An accepted unit has no fault, so the continued one begins with the same items.
  have hclean := (follows_items _).clean hrun
  obtain ⟨later, hlater⟩ := readItems_append hclean more
  rw [← hlater, analyzeItems_append, gives_bind] at hrun'
  obtain ⟨_, s₁, hfirst, hrest⟩ := hrun'
  obtain rfl : s = s₁ := by
    cases hrun.symm.trans hfirst
    rfl
  obtain ⟨ids, hids⟩ := exists_runs_of_forM ItemTree.itemStep_of_analyze hrun
  obtain ⟨ids', hids'⟩ := exists_runs_of_forM ItemTree.itemStep_of_analyze hrest
  have hstart := hids.grows ItemStep.grows (by decide)
  have hgrows := hids'.grows ItemStep.grows hstart.scope_lt
  have hmembers : s.arena.members? Arena.root = some ([] ++ ids) :=
    hstart.arena.members?_context rfl
  exact {
    size_le := hgrows.arena.size_le
    decl?_eq := fun id hpos hid => hgrows.arena.decl?_eq_of_ne hid (Nat.ne_of_gt hpos)
    members := ⟨_, ids', hmembers, hgrows.arena.members?_context hmembers⟩ }

/-- `func f(); class P { }`, and then `; func f() { f(); }`. -/
theorem begins_prototype_unit : ∃ a, analyze
    [.keyword .funcKw, .name "f", .mark .lparen, .mark .rparen, .mark .semi, .keyword .classKw,
      .name "P", .mark .lbrace, .mark .rbrace] = .ok a ∧
    ∃ b, analyze
    [.keyword .funcKw, .name "f", .mark .lparen, .mark .rparen, .mark .semi, .keyword .classKw,
      .name "P", .mark .lbrace, .mark .rbrace, .mark .semi, .keyword .funcKw, .name "f",
      .mark .lparen, .mark .rparen, .mark .lbrace, .name "f", .mark .lparen, .mark .rparen,
      .mark .semi, .mark .rbrace] = .ok b ∧
    a.Begins b := by
  refine Check.exists_ok_and (by decide +kernel) fun a ha => ?_
  refine Check.exists_ok_and (by decide +kernel) fun b hb => ?_
  exact begins_of_analyze_append ha hb

end UnitAnalysis
