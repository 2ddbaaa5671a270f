import UnitAnalysis.Proofs.Alike
import UnitAnalysis.Proofs.Continuation

/-!
# The loops of reading

Wherever a reader repeats itself, it first makes sure that tokens were consumed.
The loops of this module do without that care: a round looks at what is left and
goes on or stops, and only what it has consumed can keep it from going on for
ever.  They stop all the same, at any tokens, grammatical or not, and what is done
with a tree as soon as it is read can only make them stop sooner.

Main statements: each loop stops within as many rounds as there are tokens before
the end of the input, with what the reader gives (`loopsStop`), and so does the loop
that analyses each item as soon as it is read, with what the analysis gives
(`stopsWithin_unitRound`).
-/

namespace UnitAnalysis

/-! ## Loops -/

/-- What a round of a loop comes to. -/
inductive Round (σ ρ : Type) where
  | next (state : σ)
  | stop (result : ρ)

section Loop

variable {σ ρ : Type} {round : σ → Round σ ρ} {size : σ → Nat} {solve : σ → ρ}

/-- The loop stops after some rounds that went on. -/
inductive Stops (round : σ → Round σ ρ) : Nat → σ → ρ → Prop where
  | now {state : σ} {result : ρ} (h : round state = .stop result) : Stops round 0 state result
  | later {rounds : Nat} {state state' : σ} {result : ρ} (h : round state = .next state')
      (hrest : Stops round rounds state' result) : Stops round (rounds + 1) state result

def StopsWithin (round : σ → Round σ ρ) (bound : Nat) (start : σ) (result : ρ) : Prop :=
  ∃ rounds ≤ bound, Stops round rounds start result

/-- A round that goes on leaves less to do and the same to be found; the last one finds it. -/
inductive Approaches (size : σ → Nat) (solve : σ → ρ) (state : σ) : Round σ ρ → Prop where
  | next {state' : σ} (hlt : size state' < size state) (heq : solve state = solve state') :
      Approaches size solve state (.next state')
  | stop {result : ρ} (heq : solve state = result) : Approaches size solve state (.stop result)

theorem stopsWithin_of_approaches (h : ∀ state, Approaches size solve state (round state))
    (state : σ) : StopsWithin round (size state) state (solve state) := by
  have hround := h state
  cases heq : round state with
  | stop result =>
      rw [heq] at hround
      cases hround with
      | stop hsolve =>
          rw [hsolve]
          exact ⟨0, Nat.zero_le _, .now heq⟩
  | next state' =>
      rw [heq] at hround
      cases hround with
      | next hlt hsolve =>
          obtain ⟨rounds, hle, hstops⟩ := stopsWithin_of_approaches h state'
          rw [hsolve]
          exact ⟨rounds + 1, by omega, .later heq hstops⟩
termination_by size state

end Loop

/-! ## Loops over trees -/

section Interleave

variable {α τ : Type} {pass : List Token → Round (α × List Token) (Reading (List α))}
  {read : List Token → Reading (List α)}

/-- The loop that acts on each tree as soon as it is read, and breaks off where that fails. -/
def interleave (act : τ → α → Except Error τ)
    (pass : List Token → Round (α × List Token) (Reading (List α))) (state : τ × List Token) :
    Round (τ × List Token) (Except Error (τ × List Token)) :=
  match pass state.2 with
  | .next (a, rest) =>
      match act state.1 a with
      | .ok t => .next (t, rest)
      | .error e => .stop (.error e)
  | .stop (last, rest) => .stop ((last.foldlM act state.1).map (·, rest))

/-- A pass does the beginning of what a reader of lists does, and leaves the rest to it. -/
inductive Unrolls (read : List Token → Reading (List α)) (ts : List Token) :
    Round (α × List Token) (Reading (List α)) → Prop where
  | next {a : α} {rest : List Token}
      (hlt : rest.findIdx Token.isEnd < ts.findIdx Token.isEnd)
      (heq : read ts = (a :: (read rest).1, (read rest).2)) : Unrolls read ts (.next (a, rest))
  | stop {result : Reading (List α)} (heq : read ts = result) : Unrolls read ts (.stop result)

/--
Reading with passes stops, whatever is done between them, and comes to the same
as reading everything first.
-/
def PassesStop (read : List Token → Reading (List α))
    (pass : List Token → Round (α × List Token) (Reading (List α))) (ts : List Token) : Prop :=
  ∀ {τ : Type} (act : τ → α → Except Error τ) (start : τ),
    StopsWithin (interleave act pass) (ts.findIdx Token.isEnd) (start, ts)
      (((read ts).1.foldlM act start).map (·, (read ts).2))

theorem passesStop_of_unrolls (h : ∀ ts, Unrolls read ts (pass ts)) (ts : List Token) :
    PassesStop read pass ts := by
  intro τ act start
  have happroaches : ∀ state : τ × List Token,
      Approaches (fun state => state.2.findIdx Token.isEnd)
        (fun state => ((read state.2).1.foldlM act state.1).map (·, (read state.2).2)) state
        (interleave act pass state) := by
    rintro ⟨t, ts⟩
    have hpass := h ts
    simp only [interleave]
    cases hround : pass ts with
    | stop result =>
        rw [hround] at hpass
        cases hpass with
        | stop heq => exact .stop (by rw [heq])
    | next piece =>
        obtain ⟨a, rest⟩ := piece
        rw [hround] at hpass
        cases hpass with
        | next hlt heq =>
            simp only
            cases hact : act t a with
            | error e =>
                apply Approaches.stop
                simp only [heq, List.foldlM_cons, hact]
                rfl
            | ok t' =>
                refine .next hlt ?_
                simp only [heq, List.foldlM_cons, hact]
                rfl
  exact stopsWithin_of_approaches happroaches (start, ts)

end Interleave

/-! ## Types and paths -/

def segmentRound : List String × List Token →
    Round (List String × List Token) (Reading (Required (List String)))
  | (done, .mark .colons :: .name text :: rest) => .next (done ++ [text], rest)
  | (_, .mark .colons :: rest) => .stop (.error (faultAt .name rest), [])
  | (done, ts) => .stop (.ok done, ts)

theorem stopsWithin_segments (ts : List Token) :
    StopsWithin segmentRound (ts.findIdx Token.isEnd) ([], ts) (readSegments ts) := by
  have happroaches : ∀ state : List String × List Token,
      Approaches (fun state => state.2.findIdx Token.isEnd)
        (fun state => ((readSegments state.2).1.map (state.1 ++ ·), (readSegments state.2).2))
        state (segmentRound state) := by
    intro state
    fun_cases segmentRound state with
    | case1 done text rest =>
        have hlt : rest.findIdx Token.isEnd <
            (Token.mark .colons :: .name text :: rest).findIdx Token.isEnd := by
          rw [Token.findIdx_isEnd_cons (by simp), Token.findIdx_isEnd_cons (by simp)]
          omega
        refine .next hlt ?_
        rcases hrest : readSegments rest with ⟨_ | segments, after⟩
        · simp [readSegments, hrest, Except.map]
        · simp [readSegments, hrest, Except.map]
    | case2 done rest hname =>
        apply Approaches.stop
        simp only [readSegments]
        rfl
    | case3 done ts hsegment hcolons =>
        apply Approaches.stop
        simp only [readSegments]
        simp [Except.map]
  have hdone : (readSegments ts).1.map ([] ++ ·) = (readSegments ts).1 := by
    cases (readSegments ts).1 <;> rfl
  have hstops := stopsWithin_of_approaches happroaches ([], ts)
  rwa [hdone] at hstops

def qualifierRound : Qualifiers × List Token →
    Round (Qualifiers × List Token) (Reading Qualifiers)
  | (quals, .qualifier word :: rest) => .next (quals.insert word, rest)
  | (quals, ts) => .stop (quals, ts)

theorem stopsWithin_qualifiers (quals : Qualifiers) (ts : List Token) :
    StopsWithin qualifierRound (ts.findIdx Token.isEnd) (quals, ts) (readQualifiers quals ts) := by
  have happroaches : ∀ state : Qualifiers × List Token,
      Approaches (fun state => state.2.findIdx Token.isEnd)
        (fun state => readQualifiers state.1 state.2) state (qualifierRound state) := by
    intro state
    fun_cases qualifierRound state with
    | case1 quals word rest => exact .next (by simp) rfl
    | case2 quals ts hword =>
        apply Approaches.stop
        simp only [readQualifiers]
  exact stopsWithin_of_approaches happroaches (quals, ts)

def suffixPass : List Token → Round (TypeSuffix × List Token) (Reading (List TypeSuffix))
  | .qualifier word :: rest => .next (.qualifier word, rest)
  | .operator .mul :: rest => .next (.pointer, rest)
  | .mark .amp :: rest => .next (.reference, rest)
  | ts => .stop ([], ts)

theorem unrolls_suffixes (ts : List Token) : Unrolls readSuffixes ts (suffixPass ts) := by
  fun_cases suffixPass ts with
  | case1 word rest | case2 rest | case3 rest => exact .next (by simp) rfl
  | case4 ts hword hmul hamp =>
      apply Unrolls.stop
      simp only [readSuffixes]

/-! ## Expressions -/

/-- Joins operands to the left operand in the state, from the tokens after it. -/
def operatorRound (least : Nat) : ExprTree × List Token →
    Round (ExprTree × List Token) (Reading ExprTree)
  | (lhs, .operator op :: rest) =>
      if op.precedence < least then .stop (lhs, .operator op :: rest)
      else
        match readBinary op.rightPrecedence rest with
        | (rhs, after) => .next (.binary op lhs rhs, after)
  | (lhs, ts) => .stop (lhs, ts)

theorem stopsWithin_operators (least : Nat) (lhs : ExprTree) (ts : List Token) :
    StopsWithin (operatorRound least) (ts.findIdx Token.isEnd) (lhs, ts)
      (readOperators least lhs ts) := by
  have happroaches : ∀ state : ExprTree × List Token,
      Approaches (fun state => state.2.findIdx Token.isEnd)
        (fun state => readOperators least state.1 state.2) state (operatorRound least state) := by
    intro state
    fun_cases operatorRound least state with
    | case1 lhs op rest hloose =>
        apply Approaches.stop
        exact readOperators_stop lhs (by rintro _ _ ⟨⟩; exact hloose)
    | case2 lhs op rest htight rhs after heq =>
        have hrest := findIdx_rest (readBinary_alike op.rightPrecedence)
          (readBinary_rest_all.1 op.rightPrecedence) rest
        rw [heq] at hrest
        apply Approaches.next
        · simp at hrest ⊢
          omega
        · rw [readOperators_operator (Nat.not_lt.mp htight), heq]
    | case3 lhs ts hop =>
        apply Approaches.stop
        exact readOperators_stop lhs fun op rest hts => (hop op rest hts).elim
  exact stopsWithin_of_approaches happroaches (lhs, ts)

def argPass (ts : List Token) : Round (ExprTree × List Token) (Reading (List ExprTree)) :=
  match readExpr ts with
  | (arg, .mark .comma :: after) => .next (arg, after)
  | (arg, after) =>
      match readToken (.mark .rparen) after with
      | (.ok (), after) => .stop ([arg], after)
      | (.error fault, after) => .stop ([arg, .broken [] fault], after)

theorem unrolls_args (ts : List Token) : Unrolls readArgsFrom ts (argPass ts) := by
  have hrest := readExpr_rest ts
  have hahead := findIdx_rest readExpr_alike readExpr_rest ts
  fun_cases argPass ts with
  | case1 arg after heq =>
      rw [heq, List.length_cons] at hrest
      simp only [heq, Token.findIdx_isEnd_cons, ne_eq, reduceCtorEq, not_false_eq_true] at hahead
      have hlt : after.length < ts.length := by omega
      apply Unrolls.next (by omega)
      rw [readArgsFrom, show readBinary 1 ts = _ from heq]
      exact if_pos hlt
  | case2 arg after hafter heq last hclose =>
      apply Unrolls.stop
      rw [readArgsFrom, show readBinary 1 ts = _ from heq]
      simp only [hclose]
  | case3 arg after hafter heq fault last hclose =>
      apply Unrolls.stop
      rw [readArgsFrom, show readBinary 1 ts = _ from heq]
      simp only [hclose]

/-! ## Statements -/

def stmtPass : List Token → Round (StmtTree × List Token) (Reading (List StmtTree))
  | [] | .endOfInput :: _ => .stop ([.broken (faultAt (.token (.mark .rbrace)) [])], [])
  | .mark .rbrace :: rest => .stop ([], rest)
  | ts => .next (readStmt ts)

theorem unrolls_block (ts : List Token) : Unrolls readBlock ts (stmtPass ts) := by
  fun_cases stmtPass ts with
  | case1 | case2 | case3 =>
      apply Unrolls.stop
      rw [readBlock]
  | case4 ts hnil hend hbrace =>
      obtain ⟨t, tail, rfl⟩ := List.exists_cons_of_ne_nil hnil
      have ht : t ≠ .endOfInput := by simpa using hend
      have hahead := findIdx_rest readStmt_alike readStmt_rest (t :: tail)
      apply Unrolls.next
      · simp only [Token.findIdx_isEnd_cons ht] at hahead ⊢
        omega
      · rw [readBlock]
        · exact if_pos (readStmt_rest (t :: tail))
        · exact ht
        · simpa using hbrace

/-! ## Functions -/

def skipRound : Nat × List Token → Round (Nat × List Token) (Option (List Token))
  | (_, []) | (_, .endOfInput :: _) => .stop none
  | (depth, .mark .lparen :: rest) => .next (depth + 1, rest)
  | (0, .mark .rparen :: rest) => .stop (some rest)
  | (depth + 1, .mark .rparen :: rest) => .next (depth, rest)
  | (depth, _ :: rest) => .next (depth, rest)

theorem stopsWithin_skip (depth : Nat) (ts : List Token) :
    StopsWithin skipRound (ts.findIdx Token.isEnd) (depth, ts) (skipParens? depth ts) := by
  have happroaches : ∀ state : Nat × List Token,
      Approaches (fun state => state.2.findIdx Token.isEnd)
        (fun state => skipParens? state.1 state.2) state (skipRound state) := by
    intro state
    fun_cases skipRound state with
    | case1 | case2 | case4 => exact .stop rfl
    | case3 | case5 => exact .next (by simp) rfl
    | case6 depth t rest hend hlparen hzero hsucc =>
        have ht : t ≠ .endOfInput := hend
        apply Approaches.next (by simp [ht])
        have hrparen : t ≠ .mark .rparen := by
          rintro rfl
          cases depth with
          | zero => exact hzero rfl rfl
          | succ depth => exact hsucc depth rfl rfl
        simp only
        rw [skipParens?]
        · exact ht
        · exact hlparen
        · exact hrparen
  exact stopsWithin_of_approaches happroaches (depth, ts)

def paramPass (ts : List Token) : Round (ParamTree × List Token) (Reading (List ParamTree)) :=
  match readParam ts with
  | (param, .mark .comma :: rest) => .next (param, rest)
  | (param, rest) => .stop ([param], rest)

theorem unrolls_params (ts : List Token) : Unrolls readParamsFrom ts (paramPass ts) := by
  have hrest := readParam_rest ts
  have hahead := findIdx_rest readParam_alike readParam_rest ts
  fun_cases paramPass ts with
  | case1 param rest heq =>
      rw [heq, List.length_cons] at hrest
      simp only [heq, Token.findIdx_isEnd_cons, ne_eq, reduceCtorEq, not_false_eq_true] at hahead
      have hlt : rest.length < ts.length := by omega
      apply Unrolls.next (by omega)
      rw [readParamsFrom, heq]
      exact if_pos hlt
  | case2 param rest hcomma heq =>
      apply Unrolls.stop
      simp only [readParamsFrom, heq]

/-! ## Classes and enums -/

def memberPass (ts : List Token) : Round (MemberTree × List Token) (Reading (List MemberTree)) :=
  match ts with
  | .mark .rbrace :: rest => .stop ([], rest)
  | .keyword .letKw :: rest =>
      match readField rest with
      | (field, after) => .next (.field field, after)
  | .keyword .funcKw :: rest =>
      match readFunc rest with
      | (func, after) => .next (.func func, after)
  | _ => .stop ([.broken (faultAt .member ts)], [])

theorem unrolls_members (ts : List Token) : Unrolls readMembers ts (memberPass ts) := by
  fun_cases memberPass ts with
  | case1 rest =>
      apply Unrolls.stop
      rw [readMembers]
  | case2 rest field after heq =>
      have hrest : after.length ≤ rest.length - 1 := by
        simpa only [heq] using readField_rest rest
      have hahead := findIdx_rest readField_alike readField_rest rest
      rw [heq] at hahead
      have hle : after.length ≤ rest.length := by omega
      apply Unrolls.next (by simp at hahead ⊢; omega)
      rw [readMembers, heq]
      exact if_pos hle
  | case3 rest func after heq =>
      have hrest : after.length ≤ rest.length - 1 := by
        simpa only [heq] using readFunc_rest rest
      have hahead := findIdx_rest readFunc_alike readFunc_rest rest
      rw [heq] at hahead
      have hle : after.length ≤ rest.length := by omega
      apply Unrolls.next (by simp at hahead ⊢; omega)
      rw [readMembers, heq]
      exact if_pos hle
  | case4 ts hbrace hlet hfunc =>
      apply Unrolls.stop
      rw [readMembers]
      · exact hbrace
      · exact hlet
      · exact hfunc

def enumeratorPass (ts : List Token) :
    Round (EnumeratorTree × List Token) (Reading (List EnumeratorTree)) :=
  if ts.head? = some (.mark .rbrace) then .stop ([], ts)
  else
    match readEnumerator ts with
    | (member, .mark .comma :: rest) => .next (member, rest)
    | (member, rest) => .stop ([member], rest)

theorem unrolls_enumerators (ts : List Token) :
    Unrolls readEnumerators ts (enumeratorPass ts) := by
  have hrest := readEnumerator_rest ts
  have hahead := findIdx_rest readEnumerator_alike readEnumerator_rest ts
  fun_cases enumeratorPass ts with
  | case1 hbrace =>
      apply Unrolls.stop
      rw [readEnumerators, if_pos hbrace]
  | case2 hbrace member rest heq =>
      rw [heq, List.length_cons] at hrest
      simp only [heq, Token.findIdx_isEnd_cons, ne_eq, reduceCtorEq, not_false_eq_true] at hahead
      have hlt : rest.length < ts.length := by omega
      apply Unrolls.next (by omega)
      rw [readEnumerators, if_neg hbrace, heq]
      exact if_pos hlt
  | case3 hbrace member rest hcomma heq =>
      apply Unrolls.stop
      rw [readEnumerators, if_neg hbrace]
      simp only [heq]

/-! ## All loops -/

/-- The loops of reading stop at the tokens, whatever they have done before. -/
structure LoopsStop (ts : List Token) : Prop where
  segments : StopsWithin segmentRound (ts.findIdx Token.isEnd) ([], ts) (readSegments ts)
  qualifiers : ∀ quals,
    StopsWithin qualifierRound (ts.findIdx Token.isEnd) (quals, ts) (readQualifiers quals ts)
  suffixes : PassesStop readSuffixes suffixPass ts
  operators : ∀ least lhs,
    StopsWithin (operatorRound least) (ts.findIdx Token.isEnd) (lhs, ts)
      (readOperators least lhs ts)
  args : PassesStop readArgsFrom argPass ts
  stmts : PassesStop readBlock stmtPass ts
  parens : ∀ depth,
    StopsWithin skipRound (ts.findIdx Token.isEnd) (depth, ts) (skipParens? depth ts)
  params : PassesStop readParamsFrom paramPass ts
  members : PassesStop readMembers memberPass ts
  enumerators : PassesStop readEnumerators enumeratorPass ts

theorem loopsStop (ts : List Token) : LoopsStop ts where
  segments := stopsWithin_segments ts
  qualifiers := fun quals => stopsWithin_qualifiers quals ts
  suffixes := passesStop_of_unrolls unrolls_suffixes ts
  operators := fun least lhs => stopsWithin_operators least lhs ts
  args := passesStop_of_unrolls unrolls_args ts
  stmts := passesStop_of_unrolls unrolls_block ts
  parens := fun depth => stopsWithin_skip depth ts
  params := passesStop_of_unrolls unrolls_params ts
  members := passesStop_of_unrolls unrolls_members ts
  enumerators := passesStop_of_unrolls unrolls_enumerators ts

/-! ## Units -/

/-- Reads an item and analyses it at once. -/
def unitRound : Store × List Token → Round (Store × List Token) (Except Error Arena)
  | (s, []) | (s, .endOfInput :: _) => .stop (.ok s.arena)
  | (s, ts) =>
      match readItem ts with
      | (item, rest) =>
          match (item.analyze .top : Action Unit).run s with
          | .ok () s' => .next (s', rest)
          | .error e _ => .stop (.error e)

/-- The arena that the analysis of some items leads to from a store. -/
def analyzeFrom (s : Store) (items : List ItemTree) : Except Error Arena :=
  match (analyzeItems items : Action Unit).run s with
  | .ok () s => .ok s.arena
  | .error e _ => .error e

theorem analyzeFrom_cons (s : Store) (item : ItemTree) (items : List ItemTree) :
    analyzeFrom s (item :: items) =
      match (item.analyze .top : Action Unit).run s with
      | .ok () s' => analyzeFrom s' items
      | .error e _ => .error e := by
  simp only [analyzeFrom, analyzeItems, List.forM_eq_forM, List.forM_cons, EStateM.run_bind]
  cases (item.analyze .top : Action Unit).run s <;> rfl

theorem stopsWithin_unitRound (tokens : List Token) :
    StopsWithin unitRound (tokens.findIdx Token.isEnd) (.empty, tokens) (analyze tokens) := by
  have happroaches : ∀ state : Store × List Token,
      Approaches (fun state => state.2.findIdx Token.isEnd)
        (fun state => analyzeFrom state.1 (readItems state.2)) state (unitRound state) := by
    intro state
    fun_cases unitRound state with
    | case1 s | case2 s =>
        apply Approaches.stop
        rw [readItems]
        rfl
    | case3 s ts hnil hend item rest heq s' hrun =>
        obtain ⟨t, tail, rfl⟩ := List.exists_cons_of_ne_nil hnil
        have ht : t ≠ .endOfInput := by simpa using hend
        have hahead := findIdx_rest readItem_alike readItem_rest (t :: tail)
        apply Approaches.next
        · simp only [heq, Token.findIdx_isEnd_cons ht] at hahead ⊢
          omega
        · simp only [readItems_cons ht, analyzeFrom_cons, heq, hrun]
    | case4 s ts hnil hend item rest heq e s' hrun =>
        obtain ⟨t, tail, rfl⟩ := List.exists_cons_of_ne_nil hnil
        have ht : t ≠ .endOfInput := by simpa using hend
        apply Approaches.stop
        simp only [readItems_cons ht, analyzeFrom_cons, heq, hrun]
  exact stopsWithin_of_approaches happroaches (.empty, tokens)

end UnitAnalysis
