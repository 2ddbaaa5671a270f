import UnitAnalysis.Proofs.Recognition
import UnitAnalysis.Proofs.Renaming.Basic

/-!
# Reading alike tokens

Two lists of tokens are alike if they have the same tokens up to the end of the
input, except that names may be renamed.  What stands after the end, and whether
the end is marked or just the end of the list, makes no difference between them.
A reader that is given alike tokens gives alike trees and leaves alike tokens,
also where it finds a fault: it looks at no text of a name and at no token after
the end.  The relation goes from one reader to the next, so that it holds for the
two runs as a whole.

Main statements: `readItems_alike`, with its special case `readItems_rename`, and
`analyze_append_end`.
-/

namespace UnitAnalysis

/-- The second list has the tokens of the first one, renamed, up to the end of the input. -/
inductive Alike (ρ : String → String) : List Token → List Token → Prop where
  | ended {ts ts' : List Token} (h : nextToken ts = .endOfInput)
      (h' : nextToken ts' = .endOfInput) : Alike ρ ts ts'
  | cons (t : Token) {ts ts' : List Token} (h : Alike ρ ts ts') :
      Alike ρ (t :: ts) (t.rename ρ :: ts')

variable {ρ : String → String} {ts ts' : List Token}

namespace Alike

theorem nil : Alike ρ [] [] :=
  .ended rfl rfl

theorem of_cons {t : Token} (h : Alike ρ (t :: ts) ts') (ht : t ≠ .endOfInput := by simp) :
    ∃ rest, ts' = t.rename ρ :: rest ∧ Alike ρ ts rest := by
  cases h with
  | ended h => exact (ht h).elim
  | cons _ h => exact ⟨_, rfl, h⟩

theorem of_end (h : Alike ρ ts ts') (hts : nextToken ts = .endOfInput) :
    ts' = [] ∨ ∃ rest, ts' = .endOfInput :: rest := by
  cases h with
  | ended _ h' =>
      cases ts' with
      | nil => exact .inl rfl
      | cons t rest =>
          obtain rfl : t = .endOfInput := h'
          exact .inr ⟨rest, rfl⟩
  | cons t _ =>
      obtain rfl : t = .endOfInput := hts
      exact .inr ⟨_, rfl⟩

theorem nextToken_eq (h : Alike ρ ts ts') : nextToken ts' = (nextToken ts).rename ρ := by
  cases h with
  | ended h h' =>
      rw [h, h']
      rfl
  | cons t _ => rfl

theorem faultAt_eq (h : Alike ρ ts ts') (wanted : Expected) :
    faultAt wanted ts' = (faultAt wanted ts).rename ρ := by
  rw [faultAt, h.nextToken_eq]
  rfl

/-- A token other than a name and the end stands first in both lists or in neither. -/
theorem ne_cons {u : Token} (h : Alike ρ ts ts') (hne : ∀ rest, ts = u :: rest → False)
    (rest : List Token) (hu : ∀ text, u ≠ .name text := by simp)
    (hend : u ≠ .endOfInput := by simp) : ts' = u :: rest → False := by
  rintro rfl
  cases h with
  | ended _ h' => exact hend h'
  | cons t _ =>
      cases t with
      | name text => exact hu (ρ text) rfl
      | _ => exact hne _ rfl

theorem ne_name (h : Alike ρ ts ts') (hne : ∀ text rest, ts = .name text :: rest → False)
    (text : String) (rest : List Token) : ts' = .name text :: rest → False := by
  intro heq
  cases h with
  | ended _ h' =>
      rw [heq] at h'
      cases h'
  | cons t _ =>
      cases t with
      | name text => exact hne text _ rfl
      | _ => cases heq

theorem head?_eq_mark_iff (h : Alike ρ ts ts') (sign : Mark) :
    ts'.head? = some (.mark sign) ↔ ts.head? = some (.mark sign) := by
  cases h with
  | ended h h' => cases ts <;> cases ts' <;> simp_all [nextToken]
  | cons t _ => cases t <;> simp [Token.rename]

theorem tail_of_mark {sign : Mark} (h : Alike ρ ts ts') (hts : ts.head? = some (.mark sign)) :
    Alike ρ ts.tail ts'.tail := by
  obtain ⟨rest, rfl⟩ := List.head?_eq_some_iff.mp hts
  obtain ⟨rest', rfl, hrest⟩ := h.of_cons
  exact hrest

end Alike

/-- Two readings of alike tokens: the second tree is the first one renamed by `f`. -/
structure ReadsAlike (ρ : String → String) {α β : Type} (f : α → β) (r : Reading α)
    (r' : Reading β) : Prop where
  result : r'.1 = f r.1
  rest : Alike ρ r.2 r'.2

namespace ReadsAlike

variable {α β : Type} {f : α → β} {a : α} {rest : List Token} {r : Reading α} {r' : Reading β}

theorem exists_eq (h : ReadsAlike ρ f r r') (hr : r = (a, rest)) :
    ∃ rest', r' = (f a, rest') ∧ Alike ρ rest rest' := by
  subst hr
  exact ⟨r'.2, Prod.ext h.result rfl, h.rest⟩

theorem fault (h : Alike ρ ts ts') (f : α → β) (wanted : Expected) :
    ReadsAlike ρ (Required.rename ρ f) (.error (faultAt wanted ts), [])
      (.error (faultAt wanted ts'), []) :=
  ⟨congrArg Except.error (h.faultAt_eq wanted), .nil⟩

end ReadsAlike

/-! ## Tokens and paths -/

theorem readToken_alike (sign : Mark) (h : Alike ρ ts ts') :
    ReadsAlike ρ (Required.rename ρ id) (readToken (.mark sign) ts)
      (readToken (.mark sign) ts') := by
  unfold readToken
  simp only [h.head?_eq_mark_iff]
  split
  · rename_i hmark
    exact ⟨rfl, h.tail_of_mark hmark⟩
  · exact .fault h _ _

theorem dropToken_alike (sign : Mark) (h : Alike ρ ts ts') :
    Alike ρ (dropToken (.mark sign) ts) (dropToken (.mark sign) ts') := by
  unfold dropToken
  simp only [h.head?_eq_mark_iff]
  split
  · rename_i hmark
    exact h.tail_of_mark hmark
  · exact h

theorem readName_alike (h : Alike ρ ts ts') :
    ReadsAlike ρ (Required.rename ρ ρ) (readName ts) (readName ts') := by
  fun_cases readName ts with
  | case1 text rest =>
      obtain ⟨rest', rfl, hrest⟩ := h.of_cons
      exact ⟨rfl, hrest⟩
  | case2 ts hname =>
      rw [readName]
      · exact .fault h _ _
      · exact h.ne_name hname

theorem readSegments_alike (h : Alike ρ ts ts') :
    ReadsAlike ρ (Required.rename ρ (List.map ρ)) (readSegments ts) (readSegments ts') := by
  fun_induction readSegments ts generalizing ts' with
  | case1 text rest segments after heq ih =>
      obtain ⟨tail, rfl, htail⟩ := h.of_cons
      obtain ⟨rest', rfl, hrest⟩ := htail.of_cons
      obtain ⟨after', heq', hafter⟩ := (ih hrest).exists_eq heq
      simp only [Token.rename, readSegments, heq']
      refine ⟨?_, hafter⟩
      cases segments <;> rfl
  | case2 rest hname =>
      obtain ⟨rest', rfl, hrest⟩ := h.of_cons
      rw [Token.rename_mark, readSegments]
      · exact .fault hrest _ _
      · exact hrest.ne_name hname
  | case3 ts _ hcolons =>
      have hne := h.ne_cons hcolons
      rw [readSegments]
      · exact ⟨rfl, h⟩
      · exact fun text rest => hne (.name text :: rest)
      · exact hne

/-! ## Types -/

theorem readQualifiers_alike (quals : Qualifiers) (h : Alike ρ ts ts') :
    ReadsAlike ρ id (readQualifiers quals ts) (readQualifiers quals ts') := by
  fun_induction readQualifiers quals ts generalizing ts' with
  | case1 quals word rest ih =>
      obtain ⟨rest', rfl, hrest⟩ := h.of_cons
      exact ih hrest
  | case2 quals ts hword =>
      rw [readQualifiers]
      · exact ⟨rfl, h⟩
      · exact fun word => h.ne_cons (hword word)

theorem readSuffixes_alike (h : Alike ρ ts ts') :
    ReadsAlike ρ id (readSuffixes ts) (readSuffixes ts') := by
  fun_induction readSuffixes ts generalizing ts' with
  | case1 word rest suffixes after heq ih | case2 rest suffixes after heq ih
  | case3 rest suffixes after heq ih =>
      obtain ⟨rest', rfl, hrest⟩ := h.of_cons
      obtain ⟨after', heq', hafter⟩ := (ih hrest).exists_eq heq
      simp only [Token.rename, readSuffixes, heq']
      exact ⟨rfl, hafter⟩
  | case4 ts hword hmul hamp =>
      rw [readSuffixes]
      · exact ⟨rfl, h⟩
      · exact fun word => h.ne_cons (hword word)
      · exact h.ne_cons hmul
      · exact h.ne_cons hamp

theorem readBase_alike (h : Alike ρ ts ts') :
    ReadsAlike ρ (Required.rename ρ (TypeBase.rename ρ)) (readBase ts) (readBase ts') := by
  fun_cases readBase ts with
  | case1 kind rest =>
      obtain ⟨rest', rfl, hrest⟩ := h.of_cons
      exact ⟨rfl, hrest⟩
  | case2 text rest segments after heq =>
      obtain ⟨rest', rfl, hrest⟩ := h.of_cons
      obtain ⟨after', heq', hafter⟩ := (readSegments_alike hrest).exists_eq heq
      simp only [Token.rename, readBase, heq']
      refine ⟨?_, hafter⟩
      cases segments <;> rfl
  | case3 ts hbuiltin hname =>
      rw [readBase]
      · exact .fault h _ _
      · exact fun kind => h.ne_cons (hbuiltin kind)
      · exact h.ne_name hname

theorem readType_alike (h : Alike ρ ts ts') :
    ReadsAlike ρ (TypeTree.rename ρ) (readType ts) (readType ts') := by
  have hquals := readQualifiers_alike .none h
  have hbase := readBase_alike hquals.rest
  have hsuffixes := readSuffixes_alike hbase.rest
  refine ⟨?_, hsuffixes.rest⟩
  simp only [readType, hquals.result, hbase.result, hsuffixes.result]
  rfl

/-! ## Expressions -/

mutual

theorem readBinary_alike (least : Nat) {ts ts' : List Token} (h : Alike ρ ts ts') :
    ReadsAlike ρ (ExprTree.rename ρ) (readBinary least ts) (readBinary least ts') := by
  have hlength := readBinary_rest_all.2.2.1 ts
  have hprimary := readPrimary_alike h
  rw [readBinary_eq, readBinary_eq, hprimary.result]
  exact readOperators_alike least _ hprimary.rest
termination_by 3 * ts.length + 2

theorem readOperators_alike (least : Nat) (lhs : ExprTree) {ts ts' : List Token}
    (h : Alike ρ ts ts') :
    ReadsAlike ρ (ExprTree.rename ρ) (readOperators least lhs ts)
      (readOperators least (lhs.rename ρ) ts') := by
  by_cases hop : ∃ op rest, ts = .operator op :: rest ∧ least ≤ op.precedence
  · obtain ⟨op, rest, hts, hop⟩ := hop
    have hlength : ts.length = rest.length + 1 := by rw [hts, List.length_cons]
    have hoperand := readBinary_rest_all.1 op.rightPrecedence rest
    rw [hts] at h ⊢
    obtain ⟨rest', rfl, hrest⟩ := h.of_cons
    have hrhs := readBinary_alike op.rightPrecedence hrest
    rw [Token.rename_operator, readOperators_operator hop, readOperators_operator hop, hrhs.result]
    exact readOperators_alike least (.binary op lhs (readBinary op.rightPrecedence rest).1)
      hrhs.rest
  · have hstop : ∀ op rest, ts = .operator op :: rest → op.precedence < least := by
      intro op rest hts
      exact Nat.lt_of_not_le fun hle => hop ⟨op, rest, hts, hle⟩
    rw [readOperators_stop lhs hstop, readOperators_stop]
    · exact ⟨rfl, h⟩
    · intro op rest hts'
      refine Nat.lt_of_not_le fun hle => ?_
      exact h.ne_cons (fun tail hts => hop ⟨op, tail, hts, hle⟩) rest (by simp) (by simp) hts'
termination_by 3 * ts.length + 1

theorem readPrimary_alike {ts ts' : List Token} (h : Alike ρ ts ts') :
    ReadsAlike ρ (ExprTree.rename ρ) (readPrimary ts) (readPrimary ts') := by
  fun_cases readPrimary ts with
  | case1 value rest | case2 value rest | case3 value rest =>
      obtain ⟨rest', rfl, hrest⟩ := h.of_cons
      simp only [Token.rename, readPrimary]
      exact ⟨rfl, hrest⟩
  | case4 rest inner atParen hinner after hparen =>
      obtain ⟨rest', rfl, hrest⟩ := h.of_cons
      obtain ⟨mid', hinner', hmid⟩ := (readBinary_alike 1 hrest).exists_eq hinner
      obtain ⟨after', hparen', hafter⟩ := (readToken_alike .rparen hmid).exists_eq hparen
      simp only [Token.rename, readPrimary, hinner', hparen']
      exact ⟨rfl, hafter⟩
  | case5 rest inner atParen hinner fault after hparen =>
      obtain ⟨rest', rfl, hrest⟩ := h.of_cons
      obtain ⟨mid', hinner', hmid⟩ := (readBinary_alike 1 hrest).exists_eq hinner
      obtain ⟨after', hparen', hafter⟩ := (readToken_alike .rparen hmid).exists_eq hparen
      simp only [Token.rename, readPrimary, hinner', hparen']
      exact ⟨rfl, hafter⟩
  | case6 text rest fault after heq =>
      obtain ⟨rest', rfl, hrest⟩ := h.of_cons
      obtain ⟨after', heq', hafter⟩ := (readSegments_alike hrest).exists_eq heq
      simp only [Token.rename, readPrimary, heq']
      exact ⟨rfl, hafter⟩
  | case7 text rest segments after heq hlt args last hargs =>
      obtain ⟨rest', rfl, hrest⟩ := h.of_cons
      obtain ⟨mid', heq', hmid⟩ := (readSegments_alike hrest).exists_eq heq
      obtain ⟨after', rfl, hafter⟩ := hmid.of_cons
      obtain ⟨last', hargs', hlast⟩ := (readArgs_alike hafter).exists_eq hargs
      have hlt' := readSegments_rest rest'
      rw [heq', List.length_cons, Nat.add_one_le_iff] at hlt'
      simp only [Token.rename, readPrimary, heq', Required.rename, hargs', if_pos hlt']
      exact ⟨rfl, hlast⟩
  | case8 text rest segments after heq hlt =>
      have hrest := readSegments_rest rest
      rw [heq] at hrest
      exact absurd hrest hlt
  | case9 text rest segments mid hmid heq =>
      obtain ⟨rest', rfl, hrest⟩ := h.of_cons
      obtain ⟨mid', heq', hmid'⟩ := (readSegments_alike hrest).exists_eq heq
      simp only [Token.rename, readPrimary, heq', Required.rename]
      split
      · cases (Prod.mk.inj ‹_›).1
      · exact (hmid'.ne_cons hmid _ (by simp) (by simp) (Prod.mk.inj ‹_›).2).elim
      · rename_i hsame
        cases hsame
        exact ⟨rfl, hmid'⟩
  | case10 ts hint hfloat hbool hparen hname =>
      rw [readPrimary]
      · exact ⟨congrArg (ExprTree.broken []) (h.faultAt_eq _), .nil⟩
      · exact fun value => h.ne_cons (hint value)
      · exact fun value => h.ne_cons (hfloat value)
      · exact fun value => h.ne_cons (hbool value)
      · exact h.ne_cons hparen
      · exact h.ne_name hname
termination_by 3 * ts.length
decreasing_by
  all_goals subst_vars
  all_goals simp only [List.length_cons]
  all_goals omega

theorem readArgs_alike {ts ts' : List Token} (h : Alike ρ ts ts') :
    ReadsAlike ρ (ExprTree.renameAll ρ) (readArgs ts) (readArgs ts') := by
  rw [readArgs, readArgs]
  simp only [h.head?_eq_mark_iff]
  split
  · rename_i hparen
    exact ⟨rfl, h.tail_of_mark hparen⟩
  · exact readArgsFrom_alike h
termination_by 3 * ts.length + 4

theorem readArgsFrom_alike {ts ts' : List Token} (h : Alike ρ ts ts') :
    ReadsAlike ρ (ExprTree.renameAll ρ) (readArgsFrom ts) (readArgsFrom ts') := by
  have hexpr := readBinary_alike 1 h
  fun_cases readArgsFrom ts with
  | case1 arg after harg hlt args last hargs =>
      obtain ⟨mid', harg', hmid⟩ := hexpr.exists_eq harg
      obtain ⟨after', rfl, hafter⟩ := hmid.of_cons
      obtain ⟨last', hargs', hlast⟩ := (readArgsFrom_alike hafter).exists_eq hargs
      have hrest := readBinary_rest_all.1 1 ts'
      rw [harg', List.length_cons] at hrest
      have hlt' : after'.length < ts'.length := by omega
      rw [readArgsFrom, harg']
      simp only [Token.rename, if_pos hlt', hargs']
      exact ⟨rfl, hlast⟩
  | case2 arg after harg hlt =>
      have hrest := readBinary_rest_all.1 1 ts
      simp [harg] at hrest
      omega
  | case3 arg after hafter harg last hclose =>
      obtain ⟨mid', harg', hmid⟩ := hexpr.exists_eq harg
      obtain ⟨last', hclose', hlast⟩ := (readToken_alike .rparen hmid).exists_eq hclose
      rw [readArgsFrom, harg']
      split
      · exact (hmid.ne_cons hafter _ (by simp) (by simp) (Prod.mk.inj ‹_›).2).elim
      · rename_i hsame
        cases hsame
        simp only [hclose']
        exact ⟨rfl, hlast⟩
  | case4 arg after hafter harg fault last hclose =>
      obtain ⟨mid', harg', hmid⟩ := hexpr.exists_eq harg
      obtain ⟨last', hclose', hlast⟩ := (readToken_alike .rparen hmid).exists_eq hclose
      rw [readArgsFrom, harg']
      split
      · exact (hmid.ne_cons hafter _ (by simp) (by simp) (Prod.mk.inj ‹_›).2).elim
      · rename_i hsame
        cases hsame
        simp only [hclose']
        exact ⟨rfl, hlast⟩
termination_by 3 * ts.length + 3

end

theorem readExpr_alike (h : Alike ρ ts ts') :
    ReadsAlike ρ (ExprTree.rename ρ) (readExpr ts) (readExpr ts') :=
  readBinary_alike 1 h

/-! ## Variables and statements -/

theorem readInit_alike (h : Alike ρ ts ts') :
    ReadsAlike ρ (Option.map (ExprTree.rename ρ)) (readInit ts) (readInit ts') := by
  fun_cases readInit ts with
  | case1 rest init after heq =>
      obtain ⟨rest', rfl, hrest⟩ := h.of_cons
      obtain ⟨after', heq', hafter⟩ := (readExpr_alike hrest).exists_eq heq
      simp only [Token.rename, readInit, heq']
      exact ⟨rfl, hafter⟩
  | case2 ts hassign =>
      rw [readInit]
      · exact ⟨rfl, h⟩
      · exact h.ne_cons hassign

theorem readVar_alike (h : Alike ρ ts ts') :
    ReadsAlike ρ (VarTree.rename ρ) (readVar ts) (readVar ts') := by
  have htype := readType_alike h
  have hname := readName_alike htype.rest
  have hinit := readInit_alike hname.rest
  have hsemi := readToken_alike .semi hinit.rest
  refine ⟨?_, hsemi.rest⟩
  simp only [readVar, htype.result, hname.result, hinit.result, hsemi.result]
  rfl

theorem readReturnValue_alike (h : Alike ρ ts ts') :
    ReadsAlike ρ (Option.map (ExprTree.rename ρ)) (readReturnValue ts) (readReturnValue ts') := by
  have hexpr := readExpr_alike h
  unfold readReturnValue
  simp only [h.head?_eq_mark_iff]
  split
  · exact ⟨rfl, h⟩
  · exact ⟨congrArg some hexpr.result, hexpr.rest⟩

mutual

theorem readStmt_alike {ts ts' : List Token} (h : Alike ρ ts ts') :
    ReadsAlike ρ (StmtTree.rename ρ) (readStmt ts) (readStmt ts') := by
  fun_cases readStmt ts with
  | case1 rest body after heq =>
      obtain ⟨rest', rfl, hrest⟩ := h.of_cons
      obtain ⟨after', heq', hafter⟩ := (readBlock_alike hrest).exists_eq heq
      simp only [Token.rename, readStmt, heq']
      exact ⟨rfl, hafter⟩
  | case2 rest var after heq =>
      obtain ⟨rest', rfl, hrest⟩ := h.of_cons
      obtain ⟨after', heq', hafter⟩ := (readVar_alike hrest).exists_eq heq
      simp only [Token.rename, readStmt, heq']
      exact ⟨rfl, hafter⟩
  | case3 rest value mid heq semi after hsemi =>
      obtain ⟨rest', rfl, hrest⟩ := h.of_cons
      obtain ⟨mid', heq', hmid⟩ := (readReturnValue_alike hrest).exists_eq heq
      obtain ⟨after', hsemi', hafter⟩ := (readToken_alike .semi hmid).exists_eq hsemi
      simp only [Token.rename, readStmt, heq', hsemi']
      exact ⟨rfl, hafter⟩
  | case4 ts value mid heq semi after hsemi hblock hvar hreturn =>
      change ReadsAlike ρ (StmtTree.rename ρ)
        (.expr (readExpr ts).1 (readToken (.mark .semi) (readExpr ts).2).1,
          (readToken (.mark .semi) (readExpr ts).2).2) (readStmt ts')
      have hexpr := readExpr_alike h
      have hclose := readToken_alike .semi hexpr.rest
      rw [readStmt]
      · refine ⟨?_, hclose.rest⟩
        simp only [hexpr.result, hclose.result]
        rfl
      · exact h.ne_cons hblock
      · exact h.ne_cons hvar
      · exact h.ne_cons hreturn
termination_by 2 * ts.length

theorem readBlock_alike {ts ts' : List Token} (h : Alike ρ ts ts') :
    ReadsAlike ρ (StmtTree.renameAll ρ) (readBlock ts) (readBlock ts') := by
  fun_cases readBlock ts with
  | case1 | case2 rest =>
      rcases h.of_end rfl with rfl | ⟨rest', rfl⟩
      all_goals rw [readBlock]
      all_goals exact ⟨rfl, .nil⟩
  | case3 rest =>
      obtain ⟨rest', rfl, hrest⟩ := h.of_cons
      simp only [Token.rename, readBlock]
      exact ⟨rfl, hrest⟩
  | case4 t ts hend ht stmt mid hstmt hle stmts after hstmts =>
      obtain ⟨mid', hstmt', hmid⟩ := (readStmt_alike h).exists_eq hstmt
      obtain ⟨after', hstmts', hafter⟩ := (readBlock_alike hmid).exists_eq hstmts
      obtain ⟨rest', rfl, hrest⟩ := h.of_cons hend
      have hle' := readStmt_rest (t.rename ρ :: rest')
      rw [hstmt'] at hle'
      rw [readBlock, hstmt']
      · simp only [List.length_cons, Nat.add_one_sub_one] at hle'
        simp only [if_pos hle', hstmts']
        exact ⟨rfl, hafter⟩
      · cases t <;> simp_all [Token.rename]
      · cases t <;> simp_all [Token.rename]
  | case5 t ts hend ht stmt mid hstmt hle =>
      have hrest := readStmt_rest (t :: ts)
      rw [hstmt] at hrest
      exact absurd hrest hle
termination_by 2 * ts.length + 1
decreasing_by
  all_goals subst_vars
  all_goals simp only [List.length_cons]
  all_goals omega

end

/-! ## Functions -/

theorem skipParens?_alike (depth : Nat) (h : Alike ρ ts ts') :
    Option.Rel (Alike ρ) (skipParens? depth ts) (skipParens? depth ts') := by
  fun_induction skipParens? depth ts generalizing ts' with
  | case1 | case2 =>
      rcases h.of_end rfl with rfl | ⟨rest', rfl⟩
      all_goals rw [skipParens?]
      all_goals exact .none
  | case3 depth rest ih | case5 rest depth ih =>
      obtain ⟨rest', rfl, hrest⟩ := h.of_cons
      exact ih hrest
  | case4 rest =>
      obtain ⟨rest', rfl, hrest⟩ := h.of_cons
      exact .some hrest
  | case6 depth t rest hend hl hr ih =>
      obtain ⟨rest', rfl, hrest⟩ := h.of_cons hend
      rw [skipParens?]
      · exact ih hrest
      · cases t <;> simp_all [Token.rename]
      · cases t <;> simp_all [Token.rename]
      · cases t <;> simp_all [Token.rename]

/-- What is left after skipping parameters, or the fault of not finding their end. -/
inductive SkipsAlike (ρ : String → String) :
    Required (List Token) → Required (List Token) → Prop where
  | ok {rest rest' : List Token} (h : Alike ρ rest rest') : SkipsAlike ρ (.ok rest) (.ok rest')
  | error (fault : Fault) : SkipsAlike ρ (.error fault) (.error (fault.rename ρ))

theorem skipParams_alike (h : Alike ρ ts ts') :
    SkipsAlike ρ (skipParams ts) (skipParams ts') := by
  fun_cases skipParams ts with
  | case1 rest after heq =>
      obtain ⟨rest', rfl, hrest⟩ := h.of_cons
      have hskip := skipParens?_alike 0 hrest
      generalize hskipped : skipParens? 0 rest' = skipped at hskip
      rw [heq] at hskip
      simp only [Token.rename, skipParams, hskipped]
      cases hskip with
      | some hafter => exact .ok hafter
  | case2 rest heq =>
      obtain ⟨rest', rfl, hrest⟩ := h.of_cons
      have hskip := skipParens?_alike 0 hrest
      generalize hskipped : skipParens? 0 rest' = skipped at hskip
      rw [heq] at hskip
      simp only [Token.rename, skipParams, hskipped]
      cases hskip with
      | none => exact .error .openParams
  | case3 ts hlparen =>
      rw [skipParams, h.faultAt_eq]
      · exact .error _
      · exact h.ne_cons hlparen

theorem readParam_alike (h : Alike ρ ts ts') :
    ReadsAlike ρ (ParamTree.rename ρ) (readParam ts) (readParam ts') := by
  have htype := readType_alike h
  have hname := readName_alike htype.rest
  refine ⟨?_, hname.rest⟩
  simp only [readParam, htype.result, hname.result]
  rfl

theorem readParamsFrom_alike (h : Alike ρ ts ts') :
    ReadsAlike ρ (List.map (ParamTree.rename ρ)) (readParamsFrom ts) (readParamsFrom ts') := by
  have hfirst := readParam_alike h
  fun_induction readParamsFrom ts generalizing ts' with
  | case1 ts param rest hparam hlt params after hparams ih =>
      obtain ⟨mid', hparam', hmid⟩ := hfirst.exists_eq hparam
      obtain ⟨rest', rfl, hrest⟩ := hmid.of_cons
      obtain ⟨after', hparams', hafter⟩ := (ih hrest (readParam_alike hrest)).exists_eq hparams
      have hlength := readParam_rest ts'
      rw [hparam', List.length_cons] at hlength
      have hlt' : rest'.length < ts'.length := by omega
      rw [readParamsFrom, hparam']
      simp only [Token.rename, if_pos hlt', hparams']
      exact ⟨rfl, hafter⟩
  | case2 ts param rest hparam hlt =>
      have hrest := readParam_rest ts
      simp [hparam] at hrest
      omega
  | case3 ts param rest hrest hparam =>
      obtain ⟨rest', hparam', hrest'⟩ := hfirst.exists_eq hparam
      rw [readParamsFrom, hparam']
      split
      · exact (hrest'.ne_cons hrest _ (by simp) (by simp) (Prod.mk.inj ‹_›).2).elim
      · rename_i hsame
        cases hsame
        exact ⟨rfl, hrest'⟩

theorem readParams_alike (h : Alike ρ ts ts') :
    ReadsAlike ρ (List.map (ParamTree.rename ρ)) (readParams ts) (readParams ts') := by
  unfold readParams
  simp only [h.head?_eq_mark_iff]
  split
  · exact ⟨rfl, h⟩
  · exact readParamsFrom_alike h

theorem readReturnType_alike (h : Alike ρ ts ts') :
    ReadsAlike ρ (Option.map (TypeTree.rename ρ)) (readReturnType ts) (readReturnType ts') := by
  fun_cases readReturnType ts with
  | case1 rest type after heq =>
      obtain ⟨rest', rfl, hrest⟩ := h.of_cons
      obtain ⟨after', heq', hafter⟩ := (readType_alike hrest).exists_eq heq
      simp only [Token.rename, readReturnType, heq']
      exact ⟨rfl, hafter⟩
  | case2 ts harrow =>
      rw [readReturnType]
      · exact ⟨rfl, h⟩
      · exact h.ne_cons harrow

theorem readBody_alike (h : Alike ρ ts ts') :
    ReadsAlike ρ (BodyTree.rename ρ) (readBody ts) (readBody ts') := by
  fun_cases readBody ts with
  | case1 rest =>
      obtain ⟨rest', rfl, hrest⟩ := h.of_cons
      exact ⟨rfl, hrest⟩
  | case2 rest body after heq =>
      obtain ⟨rest', rfl, hrest⟩ := h.of_cons
      obtain ⟨after', heq', hafter⟩ := (readBlock_alike hrest).exists_eq heq
      simp only [Token.rename, readBody, heq']
      exact ⟨rfl, hafter⟩
  | case3 ts hsemi hlbrace =>
      rw [readBody]
      · exact ⟨congrArg BodyTree.broken (h.faultAt_eq _), .nil⟩
      · exact h.ne_cons hsemi
      · exact h.ne_cons hlbrace

theorem head?_of_skipParams {rest : List Token} (h : skipParams ts = .ok rest) :
    ts.head? = some (.mark .lparen) := by
  unfold skipParams at h
  split at h
  · rfl
  · cases h

-- The reader comes back to the parameters, so that the lists there must be alike as well.
theorem readFunc_alike (h : Alike ρ ts ts') :
    ReadsAlike ρ (FuncTree.rename ρ) (readFunc ts) (readFunc ts') := by
  have hname := readName_alike h
  have hskip := skipParams_alike hname.rest
  unfold readFunc
  cases hstop : skipParams (readName ts).2 with
  | error fault =>
      rw [hstop] at hskip
      generalize hstop' : skipParams (readName ts').2 = stop' at hskip
      cases hskip
      simp only [hstop, hstop', hname.result]
      exact ⟨rfl, .nil⟩
  | ok stop =>
      rw [hstop] at hskip
      generalize hstop' : skipParams (readName ts').2 = stop' at hskip
      cases hskip with
      | ok hrest =>
          have htail := hname.rest.tail_of_mark (head?_of_skipParams hstop)
          have hreturn := readReturnType_alike hrest
          have hparams := readParams_alike htail
          have hbody := readBody_alike hreturn.rest
          have hrparen := readToken_alike .rparen hparams.rest
          simp only [hstop, hstop', hname.result, hreturn.result, hparams.result, hbody.result,
            hrparen.result]
          exact ⟨rfl, hbody.rest⟩

/-! ## Classes and enums -/

theorem readField_alike (h : Alike ρ ts ts') :
    ReadsAlike ρ (FieldTree.rename ρ) (readField ts) (readField ts') := by
  have htype := readType_alike h
  have hname := readName_alike htype.rest
  have hsemi := readToken_alike .semi hname.rest
  refine ⟨?_, hsemi.rest⟩
  simp only [readField, htype.result, hname.result, hsemi.result]
  rfl

theorem readMembers_alike (h : Alike ρ ts ts') :
    ReadsAlike ρ (List.map (MemberTree.rename ρ)) (readMembers ts) (readMembers ts') := by
  fun_induction readMembers ts generalizing ts' with
  | case1 rest =>
      obtain ⟨rest', rfl, hrest⟩ := h.of_cons
      simp only [Token.rename, readMembers]
      exact ⟨rfl, hrest⟩
  | case2 rest field mid hfield hle members after hmembers ih =>
      obtain ⟨rest', rfl, hrest⟩ := h.of_cons
      obtain ⟨mid', hfield', hmid⟩ := (readField_alike hrest).exists_eq hfield
      obtain ⟨after', hmembers', hafter⟩ := (ih hmid).exists_eq hmembers
      have hle' := Nat.le_trans (readField_rest rest') (Nat.sub_le ..)
      rw [hfield'] at hle'
      simp only [Token.rename, readMembers, hfield', if_pos hle', hmembers']
      exact ⟨rfl, hafter⟩
  | case4 rest func mid hfunc hle members after hmembers ih =>
      obtain ⟨rest', rfl, hrest⟩ := h.of_cons
      obtain ⟨mid', hfunc', hmid⟩ := (readFunc_alike hrest).exists_eq hfunc
      obtain ⟨after', hmembers', hafter⟩ := (ih hmid).exists_eq hmembers
      have hle' := Nat.le_trans (readFunc_rest rest') (Nat.sub_le ..)
      rw [hfunc'] at hle'
      simp only [Token.rename, readMembers, hfunc', if_pos hle', hmembers']
      exact ⟨rfl, hafter⟩
  | case3 rest field mid hfield hle =>
      have hrest := readField_rest rest
      rw [hfield] at hrest
      exact absurd (Nat.le_trans hrest (Nat.sub_le ..)) hle
  | case5 rest func mid hfunc hle =>
      have hrest := readFunc_rest rest
      rw [hfunc] at hrest
      exact absurd (Nat.le_trans hrest (Nat.sub_le ..)) hle
  | case6 ts hrbrace hlet hfunc =>
      rw [readMembers, h.faultAt_eq]
      · exact ⟨rfl, .nil⟩
      · exact h.ne_cons hrbrace
      · exact h.ne_cons hlet
      · exact h.ne_cons hfunc

theorem readClass_alike (h : Alike ρ ts ts') :
    ReadsAlike ρ (ClassTree.rename ρ) (readClass ts) (readClass ts') := by
  have hname := readName_alike h
  have hlbrace := readToken_alike .lbrace hname.rest
  have hmembers := readMembers_alike hlbrace.rest
  refine ⟨?_, dropToken_alike .semi hmembers.rest⟩
  simp only [readClass, hname.result, hlbrace.result, hmembers.result]
  rfl

theorem readValue_alike (h : Alike ρ ts ts') :
    ReadsAlike ρ (Option.map (Required.rename ρ id)) (readValue ts) (readValue ts') := by
  fun_cases readValue ts with
  | case1 value rest =>
      obtain ⟨tail, rfl, htail⟩ := h.of_cons
      obtain ⟨rest', rfl, hrest⟩ := htail.of_cons
      exact ⟨rfl, hrest⟩
  | case2 rest hint =>
      obtain ⟨rest', rfl, hrest⟩ := h.of_cons
      rw [Token.rename_operator, readValue]
      · exact ⟨rfl, .nil⟩
      · exact fun value => hrest.ne_cons (hint value)
  | case3 ts _ hassign =>
      have hne := h.ne_cons hassign
      rw [readValue]
      · exact ⟨rfl, h⟩
      · exact fun value rest => hne (.int value :: rest)
      · exact hne

theorem readEnumerator_alike (h : Alike ρ ts ts') :
    ReadsAlike ρ (EnumeratorTree.rename ρ) (readEnumerator ts) (readEnumerator ts') := by
  have hname := readName_alike h
  have hvalue := readValue_alike hname.rest
  refine ⟨?_, hvalue.rest⟩
  simp only [readEnumerator, hname.result, hvalue.result]
  rfl

theorem readEnumerators_alike (h : Alike ρ ts ts') :
    ReadsAlike ρ (List.map (EnumeratorTree.rename ρ)) (readEnumerators ts)
      (readEnumerators ts') := by
  have hfirst := readEnumerator_alike h
  fun_induction readEnumerators ts generalizing ts' with
  | case1 ts hts =>
      rw [readEnumerators, if_pos ((h.head?_eq_mark_iff _).mpr hts)]
      exact ⟨rfl, h⟩
  | case2 ts hts member rest hmember hlt members after hmembers ih =>
      obtain ⟨mid', hmember', hmid⟩ := hfirst.exists_eq hmember
      obtain ⟨rest', rfl, hrest⟩ := hmid.of_cons
      obtain ⟨after', hmembers', hafter⟩ :=
        (ih hrest (readEnumerator_alike hrest)).exists_eq hmembers
      have hlength := readEnumerator_rest ts'
      rw [hmember', List.length_cons] at hlength
      have hlt' : rest'.length < ts'.length := by omega
      rw [readEnumerators, if_neg (mt (h.head?_eq_mark_iff _).mp hts), hmember']
      simp only [Token.rename, if_pos hlt', hmembers']
      exact ⟨rfl, hafter⟩
  | case3 ts hts member rest hmember hlt =>
      have hrest := readEnumerator_rest ts
      simp [hmember] at hrest
      omega
  | case4 ts hts member rest hrest hmember =>
      obtain ⟨rest', hmember', hrest'⟩ := hfirst.exists_eq hmember
      rw [readEnumerators, if_neg (mt (h.head?_eq_mark_iff _).mp hts), hmember']
      split
      · exact (hrest'.ne_cons hrest _ (by simp) (by simp) (Prod.mk.inj ‹_›).2).elim
      · rename_i hsame
        cases hsame
        exact ⟨rfl, hrest'⟩

theorem readEnum_alike (h : Alike ρ ts ts') :
    ReadsAlike ρ (EnumTree.rename ρ) (readEnum ts) (readEnum ts') := by
  have hname := readName_alike h
  have hlbrace := readToken_alike .lbrace hname.rest
  have hmembers := readEnumerators_alike hlbrace.rest
  have hrbrace := readToken_alike .rbrace hmembers.rest
  refine ⟨?_, dropToken_alike .semi hrbrace.rest⟩
  simp only [readEnum, hname.result, hlbrace.result, hmembers.result, hrbrace.result]
  rfl

/-! ## Units -/

theorem readItem_alike (h : Alike ρ ts ts') :
    ReadsAlike ρ (ItemTree.rename ρ) (readItem ts) (readItem ts') := by
  fun_cases readItem ts with
  | case1 rest item after heq =>
      obtain ⟨rest', rfl, hrest⟩ := h.of_cons
      obtain ⟨after', heq', hafter⟩ := (readClass_alike hrest).exists_eq heq
      simp only [Token.rename, readItem, heq']
      exact ⟨rfl, hafter⟩
  | case2 rest item after heq =>
      obtain ⟨rest', rfl, hrest⟩ := h.of_cons
      obtain ⟨after', heq', hafter⟩ := (readEnum_alike hrest).exists_eq heq
      simp only [Token.rename, readItem, heq']
      exact ⟨rfl, hafter⟩
  | case3 rest item after heq =>
      obtain ⟨rest', rfl, hrest⟩ := h.of_cons
      obtain ⟨after', heq', hafter⟩ := (readFunc_alike hrest).exists_eq heq
      simp only [Token.rename, readItem, heq']
      exact ⟨rfl, hafter⟩
  | case4 rest item after heq =>
      obtain ⟨rest', rfl, hrest⟩ := h.of_cons
      obtain ⟨after', heq', hafter⟩ := (readVar_alike hrest).exists_eq heq
      simp only [Token.rename, readItem, heq']
      exact ⟨rfl, hafter⟩
  | case5 ts hclass henum hfunc hvar =>
      rw [readItem, h.faultAt_eq]
      · exact ⟨rfl, .nil⟩
      · exact h.ne_cons hclass
      · exact h.ne_cons henum
      · exact h.ne_cons hfunc
      · exact h.ne_cons hvar

theorem readItems_alike (h : Alike ρ ts ts') :
    readItems ts' = (readItems ts).map (ItemTree.rename ρ) := by
  fun_induction readItems ts generalizing ts' with
  | case1 | case2 =>
      rcases h.of_end rfl with rfl | ⟨rest', rfl⟩
      all_goals rw [readItems]
      all_goals rfl
  | case3 t ts hend item rest heq hle ih =>
      obtain ⟨rest', heq', hrest⟩ := (readItem_alike h).exists_eq heq
      obtain ⟨tail, rfl, -⟩ := h.of_cons hend
      have hle' := readItem_rest (t.rename ρ :: tail)
      rw [heq'] at hle'
      simp only [List.length_cons, Nat.add_one_sub_one] at hle'
      rw [readItems, heq']
      · simp only [if_pos hle', ih hrest, List.map_cons]
      · cases t <;> simp_all [Token.rename]
  | case4 t ts hend item rest heq hle =>
      have hrest := readItem_rest (t :: ts)
      rw [heq] at hrest
      exact absurd hrest hle

theorem Alike.map_rename (ρ : String → String) (ts : List Token) :
    Alike ρ ts (ts.map (Token.rename ρ)) := by
  induction ts with
  | nil => exact .nil
  | cons t ts ih => exact .cons t ih

/-- No reader looks at the text of a name. -/
theorem readItems_rename (ρ : String → String) (ts : List Token) :
    readItems (ts.map (Token.rename ρ)) = (readItems ts).map (ItemTree.rename ρ) :=
  readItems_alike (.map_rename ρ ts)

/-! ## The end of the input -/

theorem Token.rename_id (t : Token) : t.rename id = t := by
  cases t <;> rfl

theorem Alike.cons_id (t : Token) {ts ts' : List Token} (h : Alike id ts ts') :
    Alike id (t :: ts) (t :: ts') := by
  have hcons := Alike.cons t h
  rwa [Token.rename_id] at hcons

theorem Alike.append {ts ts' : List Token} (h : Alike id ts ts') (before : List Token) :
    Alike id (before ++ ts) (before ++ ts') := by
  induction before with
  | nil => exact h
  | cons t before ih => exact .cons_id t ih

theorem Alike.body (ts : List Token) : Alike id ts (Token.body ts) := by
  induction ts with
  | nil => exact .nil
  | cons t ts ih =>
      by_cases ht : t = .endOfInput
      · exact .ended ht (by rw [ht]; rfl)
      · rw [Token.body_cons ht]
        exact .cons_id t ih

theorem Token.findIdx_of_nextToken {ts : List Token} (h : nextToken ts = .endOfInput) :
    ts.findIdx isEnd = 0 := by
  cases ts with
  | nil => rfl
  | cons t ts =>
      obtain rfl : t = .endOfInput := h
      rfl

theorem Alike.findIdx_eq {ts ts' : List Token} (h : Alike id ts ts') :
    ts'.findIdx Token.isEnd = ts.findIdx Token.isEnd := by
  induction h with
  | ended h h' => rw [Token.findIdx_of_nextToken h, Token.findIdx_of_nextToken h']
  | cons t _ ih => rw [Token.rename_id, List.findIdx_cons, List.findIdx_cons, ih]

/-- What a reader takes, it takes from the tokens before the end of the input. -/
theorem findIdx_rest {α : Type} {f : α → α} {read : List Token → Reading α}
    (halike : ∀ {ts ts'}, Alike id ts ts' → ReadsAlike id f (read ts) (read ts'))
    (hrest : ∀ ts, (read ts).2.length ≤ ts.length - 1) (ts : List Token) :
    (read ts).2.findIdx Token.isEnd ≤ ts.findIdx Token.isEnd - 1 :=
  calc (read ts).2.findIdx Token.isEnd
      = (read (Token.body ts)).2.findIdx Token.isEnd := (halike (.body ts)).rest.findIdx_eq.symm
    _ ≤ (read (Token.body ts)).2.length := List.findIdx_le_length
    _ ≤ (Token.body ts).length - 1 := hrest _
    _ = ts.findIdx Token.isEnd - 1 := by rw [Token.length_body]

/-- Tokens that are alike without any renaming give the same items. -/
theorem readItems_eq_of_alike {ts ts' : List Token} (h : Alike id ts ts') :
    readItems ts' = readItems ts := by
  have hself : Alike id ts ts := by simpa using Alike.append .nil ts
  rw [readItems_alike h, ← readItems_alike hself]

/-- No reader goes past the end of the input, and the end of the list is one. -/
theorem readItems_append_end (before rest : List Token) :
    readItems (before ++ .endOfInput :: rest) = readItems before := by
  have hend : Alike id [] (.endOfInput :: rest) := .ended rfl rfl
  simpa using readItems_eq_of_alike (hend.append before)

/-- Nothing counts after the end of the input, and without one the end of the tokens is it. -/
theorem analyze_append_end (tokens rest : List Token) :
    analyze (tokens ++ .endOfInput :: rest) = analyze tokens := by
  rw [analyze, readItems_append_end, analyze]

end UnitAnalysis
