import UnitAnalysis.Proofs.Fault
import UnitAnalysis.Proofs.Grammar

/-!
# Readers and the grammar

A reader and a phrase are compared by one judgement, `Reads`: where the reader
finds no fault, what it has consumed is a word of the phrase, and where a word
of the phrase stands, followed by a token that cannot continue it, the reader
finds no fault and consumes that word.

The grammar has no precedences.  The reader that takes only operators of some
precedence and above is therefore compared with operands after such operators,
and the one for all operators with the rule of expressions (`spans_expr`).

Main statements: `reads_type`, `reads_expr`.
-/

namespace UnitAnalysis

/-- What follows does not begin with a token that would continue the phrase before it. -/
def Ends (more : Token → Prop) (rest : List Token) : Prop :=
  ∀ t ∈ rest.head?, ¬ more t

@[simp] theorem ends_nil {more : Token → Prop} : Ends more [] := by
  simp [Ends]

@[simp] theorem ends_cons {more : Token → Prop} {t : Token} {ts : List Token} :
    Ends more (t :: ts) ↔ ¬ more t := by
  simp [Ends]

/-- What continues a phrase that ends by itself. -/
def nothing (_ : Token) : Prop :=
  False

@[simp] theorem ends_nothing {ts : List Token} : Ends nothing ts := by
  simp [Ends, nothing]

theorem Ends.mono {more more' : Token → Prop} {ts : List Token} (h : Ends more ts)
    (hsub : ∀ t, more' t → more t) : Ends more' ts :=
  fun t ht hmore => h t ht (hsub t hmore)

theorem Ends.of_opt {p : Phrase} {more more' : Token → Prop} {ts rest : List Token}
    (h : Ends more rest) (hspans : Spans p.opt ts rest) (hsub : ∀ t, more' t → more t)
    (hstart : Spans p ts rest → Ends more' ts) : Ends more' ts := by
  rcases spans_opt.mp hspans with hspans | rfl
  · exact hstart hspans
  · exact h.mono hsub

theorem Ends.of_many {p : Phrase} {more more' : Token → Prop} {ts rest : List Token}
    (h : Ends more rest) (hspans : Spans (.many p) ts rest) (hsub : ∀ t, more' t → more t)
    (hstart : ∀ rest, Spans p ts rest → Ends more' ts) : Ends more' ts := by
  rcases spans_many.mp hspans with rfl | ⟨mid, hspans, -⟩
  · exact h.mono hsub
  · exact hstart mid hspans

/--
The result of a reader at some tokens, judged by a phrase.  The tokens in
`more` are those that would continue the phrase.
-/
structure Reads (p : Phrase) (more : Token → Prop) (ts : List Token) (faults : List Fault)
    (rest : List Token) : Prop where
  sound : faults = [] → Spans p ts rest
  complete : ∀ {after}, Spans p ts after → Ends more after → faults = [] ∧ rest = after

namespace Reads

variable {p q : Phrase} {more : Token → Prop} {ts ts' mid rest : List Token}
  {faults faults' : List Fault}

theorem congr (h : Reads p more ts faults rest)
    (hiff : ∀ after, Spans q ts' after ↔ Spans p ts after) : Reads q more ts' faults rest :=
  ⟨fun hf => (hiff _).mpr (h.sound hf), fun hspans => h.complete ((hiff _).mp hspans)⟩

theorem mono {more' : Token → Prop} (h : Reads p more ts faults rest)
    (hsub : ∀ t, more t → more' t) : Reads p more' ts faults rest :=
  ⟨h.sound, fun hspans hends => h.complete hspans (hends.mono hsub)⟩

theorem of_nothing (h : Reads p nothing ts faults rest) : Reads p more ts faults rest :=
  h.mono fun _ => False.elim

/-- Only whether there are faults matters, not their order. -/
theorem of_faults_iff (h : Reads p more ts faults rest) (hiff : faults' = [] ↔ faults = []) :
    Reads p more ts faults' rest :=
  ⟨fun hf => h.sound (hiff.mp hf), fun hspans hends =>
    ⟨hiff.mpr (h.complete hspans hends).1, (h.complete hspans hends).2⟩⟩

theorem sym {symbol : Nonterminal} (h : Reads symbol.rule more ts faults rest) :
    Reads (.sym symbol) more ts faults rest :=
  h.congr fun _ => spans_sym

theorem seq {more₁ : Token → Prop} (hp : Reads p more₁ ts faults mid)
    (hq : Reads q more mid faults' rest)
    (hfollow : ∀ {mid after}, Spans q mid after → Ends more after → Ends more₁ mid) :
    Reads (.seq p q) more ts (faults ++ faults') rest := by
  constructor
  · intro h
    obtain ⟨rfl, rfl⟩ := List.append_eq_nil_iff.mp h
    exact spans_seq.mpr ⟨mid, hp.sound rfl, hq.sound rfl⟩
  · intro after hspans hends
    obtain ⟨mid', hspans₁, hspans₂⟩ := spans_seq.mp hspans
    obtain ⟨rfl, rfl⟩ := hp.complete hspans₁ (hfollow hspans₂ hends)
    exact hq.complete hspans₂ hends

/-- A phrase that ends by itself, and any phrase after it. -/
theorem andThen (hp : Reads p nothing ts faults mid) (hq : Reads q more mid faults' rest) :
    Reads (.seq p q) more ts (faults ++ faults') rest :=
  hp.seq hq fun _ _ => ends_nothing

/-- Where the phrase has one word only. -/
theorem single (h : ∀ after, Spans p ts after ↔ rest = after) : Reads p more ts [] rest :=
  ⟨fun _ => (h rest).mpr rfl, fun hspans _ => ⟨rfl, (h _).mp hspans⟩⟩

/-- A fault in the first part of a sequence leaves the second part unread. -/
theorem seq_fault {more₁ : Token → Prop} {fault : Fault} (hp : Reads p more₁ ts [fault] mid)
    (hfollow : ∀ {mid after}, Spans q mid after → Ends more after → Ends more₁ mid) :
    Reads (.seq p q) more ts [fault] rest := by
  refine ⟨fun h => absurd h (by simp), ?_⟩
  intro after hspans hends
  obtain ⟨mid', hspans₁, hspans₂⟩ := spans_seq.mp hspans
  exact absurd (hp.complete hspans₁ (hfollow hspans₂ hends)).1 (by simp)

/-- Where nothing of the phrase can stand, a fault is right. -/
theorem fault (hnone : ∀ after, ¬ Spans p ts after) (fault : Fault) :
    Reads p more ts [fault] rest :=
  ⟨fun h => absurd h (by simp), fun hspans => absurd hspans (hnone _)⟩

theorem opt_some (h : Reads p more ts faults rest) (hts : ¬ Ends more ts) :
    Reads p.opt more ts faults rest := by
  refine ⟨fun hf => spans_opt.mpr (.inl (h.sound hf)), ?_⟩
  intro after hspans hends
  rcases spans_opt.mp hspans with hspans | rfl
  · exact h.complete hspans hends
  · exact absurd hends hts

theorem opt_none (hnone : ∀ after, ¬ Spans p ts after) : Reads p.opt more ts [] ts := by
  refine ⟨fun _ => spans_opt.mpr (.inr rfl), ?_⟩
  intro after hspans _
  rcases spans_opt.mp hspans with hspans | rfl
  · exact absurd hspans (hnone after)
  · exact ⟨rfl, rfl⟩

theorem opt_fault (hnone : ∀ after, ¬ Spans p ts after) (hts : ¬ Ends more ts) (fault : Fault) :
    Reads p.opt more ts [fault] rest := by
  refine ⟨fun h => absurd h (by simp), ?_⟩
  intro after hspans hends
  rcases spans_opt.mp hspans with hspans | rfl
  · exact absurd hspans (hnone after)
  · exact absurd hends hts

/-- An optional phrase before a mark that it cannot begin with. -/
theorem closed_some {sign : Mark} (h : Reads (.seq p (.mark sign)) more ts faults rest)
    (hts : ts.head? ≠ some (.mark sign)) : Reads (.seq p.opt (.mark sign)) more ts faults rest := by
  refine h.congr fun after => ?_
  have hne : ts ≠ .mark sign :: after := by
    rintro rfl
    exact hts rfl
  simp [hne]

theorem closed_none {sign : Mark} (hnone : ∀ after, ¬ Spans p (.mark sign :: rest) after) :
    Reads (.seq p.opt (.mark sign)) more (.mark sign :: rest) [] rest :=
  single (by simp [hnone])

theorem many_nil (hnone : ∀ after, ¬ Spans p ts after) : Reads (.many p) more ts [] ts := by
  refine ⟨fun _ => spans_many.mpr (.inl rfl), ?_⟩
  intro after hspans _
  rcases spans_many.mp hspans with rfl | ⟨mid, hspans, -⟩
  · exact ⟨rfl, rfl⟩
  · exact absurd hspans (hnone mid)

theorem many_fault (hnone : ∀ after, ¬ Spans p ts after) (hts : ¬ Ends more ts) (fault : Fault) :
    Reads (.many p) more ts [fault] rest := by
  refine ⟨fun h => absurd h (by simp), ?_⟩
  intro after hspans hends
  rcases spans_many.mp hspans with rfl | ⟨mid, hspans, -⟩
  · exact absurd hends hts
  · exact absurd hspans (hnone mid)

/-- A repetition goes on after a phrase that has one word only. -/
theorem many_step (h : ∀ after, Spans p ts after ↔ mid = after)
    (hrest : Reads (.many p) more mid faults rest) (hts : ¬ Ends more ts) :
    Reads (.many p) more ts faults rest := by
  constructor
  · intro hf
    exact spans_many.mpr (.inr ⟨mid, (h mid).mpr rfl, hrest.sound hf⟩)
  · intro after hspans hends
    rcases spans_many.mp hspans with rfl | ⟨mid', hfirst, hspans⟩
    · exact absurd hends hts
    · obtain rfl := (h mid').mp hfirst
      exact hrest.complete hspans hends

theorem loop_done (hq : Reads q more ts faults rest) (hnone : ∀ after, ¬ Spans p ts after) :
    Reads (.seq (.many p) q) more ts faults rest :=
  hq.congr fun after => spans_loop.trans (by simp [hnone])

theorem loop_more (hp : Reads p nothing ts faults mid)
    (hrest : Reads (.seq (.many p) q) more mid faults' rest) (hnone : ∀ after, ¬ Spans q ts after) :
    Reads (.seq (.many p) q) more ts (faults ++ faults') rest :=
  (hp.andThen hrest).congr fun after => spans_loop.trans (by simp [hnone])

end Reads

/-! ## Tokens and paths -/

@[simp] theorem Required.faults_ok {α : Type} (a : α) : Required.faults (.ok a) = [] :=
  rfl

@[simp] theorem Required.faults_error {α : Type} (fault : Fault) :
    Required.faults (.error fault : Required α) = [fault] :=
  rfl

@[simp] theorem Required.faults_map {α β : Type} (f : α → β) (piece : Required α) :
    Required.faults (piece.map f) = piece.faults := by
  cases piece <;> rfl

theorem reads_token (t : Token) {more : Token → Prop} (ts : List Token) :
    Reads (.token t) more ts (readToken t ts).1.faults (readToken t ts).2 := by
  unfold readToken
  split
  · rename_i h
    obtain ⟨rest, rfl⟩ := List.head?_eq_some_iff.mp h
    exact .single (by simp)
  · rename_i h
    exact .fault (by rintro after hspans; simp_all) _

theorem reads_name {more : Token → Prop} (ts : List Token) :
    Reads (.kind .name) more ts (readName ts).1.faults (readName ts).2 := by
  fun_cases readName ts with
  | case1 text rest => exact .single (by simp)
  | case2 ts hname => exact .fault (by simpa using fun after text => hname text after) _

theorem reads_segments (ts : List Token) :
    Reads (.many (.seq (.mark .colons) (.kind .name))) (· = .mark .colons) ts
      (readSegments ts).1.faults (readSegments ts).2 := by
  fun_induction readSegments ts with
  | case1 text rest segments after heq ih =>
      rw [heq] at ih
      rw [Required.faults_map]
      exact .many_step (by simp) ih (by simp)
  | case2 rest hname =>
      exact .many_fault (by simpa using fun after text => hname text after) (by simp) _
  | case3 ts _ hcolons =>
      refine .many_nil fun after hspans => ?_
      obtain ⟨mid, hcolon, -⟩ := spans_seq.mp hspans
      exact hcolons mid (spans_mark.mp hcolon)

theorem Reads.seq_mark {p : Phrase} {more more₁ : Token → Prop} {ts mid : List Token}
    {faults : List Fault} {sign : Mark} (hp : Reads p more₁ ts faults mid)
    (hsign : ¬ more₁ (.mark sign)) :
    Reads (.seq p (.mark sign)) more ts (faults ++ (readToken (.mark sign) mid).1.faults)
      (readToken (.mark sign) mid).2 := by
  refine hp.seq (reads_token (.mark sign) mid) ?_
  intro mid after hspans _
  obtain rfl := spans_mark.mp hspans
  exact ends_cons.mpr hsign

theorem Reads.seq_name {p q : Phrase} {more more₁ : Token → Prop} {ts mid rest : List Token}
    {faults faults' : List Fault} (hp : Reads p more₁ ts faults mid)
    (hq : Reads (.seq (.kind .name) q) more mid faults' rest)
    (hname : ∀ text, ¬ more₁ (.name text)) :
    Reads (.seq p (.seq (.kind .name) q)) more ts (faults ++ faults') rest := by
  refine hp.seq hq ?_
  intro mid after hspans _
  obtain ⟨_, hstart, -⟩ := spans_seq.mp hspans
  obtain ⟨text, rfl⟩ := spans_kind.mp hstart
  exact ends_cons.mpr (hname text)

/-! ## Types -/

theorem reads_qualifiers (quals : Qualifiers) (ts : List Token) :
    Reads (.many (.kind .qualifier)) (∃ word, · = .qualifier word) ts []
      (readQualifiers quals ts).2 := by
  fun_induction readQualifiers quals ts with
  | case1 quals word rest ih => exact .many_step (by simp) ih (by simp)
  | case2 quals ts hword => exact .many_nil (by simpa using fun after word => hword word after)

/-- What may stand after the name of a type. -/
def Token.continuesType (t : Token) : Prop :=
  t = .mark .colons ∨ (∃ word, t = .qualifier word) ∨ t = .operator .mul ∨ t = .mark .amp

@[simp] theorem Token.not_continuesType_name (text : String) :
    ¬ (Token.name text).continuesType := by
  simp [continuesType]

theorem reads_suffixes (ts : List Token) :
    Reads (.many (.any [.kind .qualifier, .op .mul, .mark .amp])) Token.continuesType ts []
      (readSuffixes ts).2 := by
  fun_induction readSuffixes ts with
  | case1 word rest suffixes after heq ih | case2 rest suffixes after heq ih
  | case3 rest suffixes after heq ih =>
      rw [heq] at ih
      exact .many_step (by simp) ih (by simp [Token.continuesType])
  | case4 ts hword hmul hamp =>
      refine .many_nil fun after => ?_
      simp only [spans_any_cons, spans_any_single, spans_kind, spans_op, spans_mark]
      grind

theorem spans_path {ts rest : List Token} : Spans (.sym .path) ts rest ↔
    ∃ mid, (∃ text, ts = .name text :: mid) ∧
      Spans (.many (.seq (.mark .colons) (.kind .name))) mid rest := by
  rw [spans_sym]
  simp [Nonterminal.rule, Phrase.all]

theorem reads_base (ts : List Token) :
    Reads (.any [.kind .builtin, .sym .path]) (· = .mark .colons) ts (readBase ts).1.faults
      (readBase ts).2 := by
  fun_cases readBase ts with
  | case1 kind rest => exact .single (by simp [spans_path])
  | case2 text rest segments after heq =>
      have hsegments := reads_segments rest
      rw [heq] at hsegments
      rw [Required.faults_map]
      exact hsegments.congr (by simp [spans_path])
  | case3 ts hbuiltin hname =>
      refine .fault (fun after => ?_) _
      simp only [spans_any_cons, spans_any_single, spans_kind, spans_path]
      grind

theorem reads_type (ts : List Token) :
    Reads (.sym .type) Token.continuesType ts (readType ts).1.faults (readType ts).2 := by
  have hquals := reads_qualifiers .none ts
  have hbase := reads_base (readQualifiers .none ts).2
  have hsuffixes := reads_suffixes (readBase (readQualifiers .none ts).2).2
  have htype := hquals.seq (hbase.seq hsuffixes ?_) ?_
  · rw [List.nil_append, List.append_nil] at htype
    exact .sym htype
  · intro mid after hspans hends
    refine hends.of_many hspans (fun _ => .inl) fun rest hsuffix => ?_
    simp only [spans_any_cons, spans_any_single, spans_kind, spans_op, spans_mark] at hsuffix
    rcases hsuffix with ⟨_, rfl⟩ | rfl | rfl
    all_goals simp
  · intro mid after hspans _
    obtain ⟨_, hstart, -⟩ := spans_seq.mp hspans
    simp only [spans_any_cons, spans_any_single, spans_kind, spans_path] at hstart
    rcases hstart with ⟨_, rfl⟩ | ⟨_, ⟨_, rfl⟩, -⟩
    all_goals simp

/-! ## Expressions -/

/-- The readers of expressions always make progress, so that their guards can be left out. -/
theorem readBinary_eq (least : Nat) (ts : List Token) :
    readBinary least ts = readOperators least (readPrimary ts).1 (readPrimary ts).2 := by
  have hrest := readBinary_rest_all.2.2.1 ts
  rw [readBinary]
  by_cases h : (readPrimary ts).2.length < ts.length
  · exact if_pos h
  · obtain rfl : ts = [] := List.length_eq_zero_iff.mp (by omega)
    simp [readPrimary, readOperators]

theorem readOperators_operator {least : Nat} {op : BinaryOp} (h : least ≤ op.precedence)
    (lhs : ExprTree) (rest : List Token) :
    readOperators least lhs (.operator op :: rest) =
      readOperators least (.binary op lhs (readBinary op.rightPrecedence rest).1)
        (readBinary op.rightPrecedence rest).2 := by
  have hrest := readBinary_rest_all.1 op.rightPrecedence rest
  rw [readOperators, if_neg (Nat.not_lt.mpr h)]
  exact if_pos (by omega)

theorem readOperators_stop {least : Nat} {ts : List Token} (lhs : ExprTree)
    (h : ∀ op rest, ts = .operator op :: rest → op.precedence < least) :
    readOperators least lhs ts = (lhs, ts) := by
  rw [readOperators.eq_def]
  split
  · rw [if_pos (h _ _ rfl)]
  · rfl

/-- One phrase or more with commas between them, up to a closing parenthesis. -/
def Phrase.list (p : Phrase) : Phrase :=
  .seq (.commas p) (.mark .rparen)

/-- What follows one phrase of a list. -/
def Phrase.listTail (p : Phrase) : Phrase :=
  .alt (.mark .rparen) (.seq (.mark .comma) p.list)

theorem spans_list {p : Phrase} {ts rest : List Token} :
    Spans p.list ts rest ↔ Spans (.seq p p.listTail) ts rest := by
  simp only [Phrase.list, Phrase.listTail, spans_seq, spans_alt, spans_mark, exists_eq_right]
  exact spans_commas

namespace Reads

variable {p : Phrase} {more more₁ : Token → Prop} {ts mid rest : List Token}
  {faults faults' : List Fault}

theorem list (hp : Reads p more₁ ts faults mid) (htail : Reads p.listTail more mid faults' rest)
    (hcomma : ¬ more₁ (.mark .comma)) (hrparen : ¬ more₁ (.mark .rparen)) :
    Reads p.list more ts (faults ++ faults') rest := by
  refine (hp.seq htail ?_).congr fun _ => spans_list
  intro mid after hspans _
  simp only [Phrase.listTail, spans_alt, spans_mark, spans_seq] at hspans
  rcases hspans with rfl | ⟨_, rfl, -⟩
  · exact ends_cons.mpr hrparen
  · exact ends_cons.mpr hcomma

theorem listTail_comma (h : Reads p.list more ts faults rest) :
    Reads p.listTail more (.mark .comma :: ts) faults rest :=
  h.congr (by simp [Phrase.listTail])

theorem listTail_rparen (hts : ∀ ts', ts ≠ .mark .comma :: ts') :
    Reads p.listTail more ts (readToken (.mark .rparen) ts).1.faults
      (readToken (.mark .rparen) ts).2 :=
  (reads_token (.mark .rparen) ts).congr (by simp [Phrase.listTail, hts])

end Reads

def Token.continuesPrimary (t : Token) : Prop :=
  t = .mark .lparen ∨ t = .mark .colons

def Token.continuesExpr (least : Nat) (t : Token) : Prop :=
  t.continuesPrimary ∨ ∃ op, t = .operator op ∧ least ≤ op.precedence

@[simp] theorem Token.continuesPrimary_mark {sign : Mark} :
    (Token.mark sign).continuesPrimary ↔ sign = .lparen ∨ sign = .colons := by
  simp [continuesPrimary]

@[simp] theorem Token.continuesPrimary_operator {op : BinaryOp} :
    ¬ (Token.operator op).continuesPrimary := by
  simp [continuesPrimary]

@[simp] theorem Token.continuesExpr_mark {least : Nat} {sign : Mark} :
    (Token.mark sign).continuesExpr least ↔ sign = .lparen ∨ sign = .colons := by
  simp [continuesExpr]

@[simp] theorem Token.continuesExpr_operator {least : Nat} {op : BinaryOp} :
    (Token.operator op).continuesExpr least ↔ least ≤ op.precedence := by
  simp [continuesExpr]

/-- An operator of at least the given precedence and its right operand. -/
def Phrase.operand (least : Nat) : Phrase :=
  .seq (.one fun t => ∃ op, t = .operator op ∧ least ≤ op.precedence) (.sym .primary)

theorem spans_operand {least : Nat} {ts rest : List Token} :
    Spans (.operand least) ts rest ↔ ∃ op mid, least ≤ op.precedence ∧
      ts = .operator op :: mid ∧ Spans (.sym .primary) mid rest := by
  simp only [Phrase.operand, spans_seq, spans_one]
  grind

theorem spans_operand_mono {least bound : Nat} (h : least ≤ bound) {ts rest : List Token}
    (hspans : Spans (.operand bound) ts rest) : Spans (.operand least) ts rest := by
  obtain ⟨op, mid, hop, hts, hprimary⟩ := spans_operand.mp hspans
  exact spans_operand.mpr ⟨op, mid, Nat.le_trans h hop, hts, hprimary⟩

theorem BinaryOp.one_le_precedence (op : BinaryOp) : 1 ≤ op.precedence := by
  cases op <;> decide

theorem spans_expr {ts rest : List Token} : Spans (.sym .expr) ts rest ↔
    Spans (.seq (.sym .primary) (.many (.operand 1))) ts rest := by
  rw [spans_sym]
  simp only [Nonterminal.rule, Phrase.operand, BinaryOp.one_le_precedence, and_true, Phrase.kind,
    Phrase.all]

/-- Where the operators stop that bind as tight as a bound. -/
theorem exists_spans_bound {least bound : Nat} (hle : least ≤ bound) {ts rest : List Token}
    (hspans : Spans (.many (.operand least)) ts rest)
    (hends : Ends (Token.continuesExpr least) rest) :
    ∃ mid, Spans (.many (.operand bound)) ts mid ∧ Ends (Token.continuesExpr bound) mid ∧
      Spans (.many (.operand least)) mid rest := by
  simp only [spans_many_iff] at hspans ⊢
  induction hspans using Relation.ReflTransGen.head_induction_on with
  | refl =>
      refine ⟨rest, .refl, hends.mono ?_, .refl⟩
      rintro t (ht | ⟨op, rfl, hop⟩)
      · exact .inl ht
      · exact .inr ⟨op, rfl, Nat.le_trans hle hop⟩
  | @head ts mid hoperand hrest ih =>
      obtain ⟨op, after, hop, rfl, hprimary⟩ := spans_operand.mp hoperand
      by_cases hbound : bound ≤ op.precedence
      · obtain ⟨last, hbefore, hlast, hafter⟩ := ih
        have htight := spans_operand.mpr ⟨op, after, hbound, rfl, hprimary⟩
        exact ⟨last, .head htight hbefore, hlast, hafter⟩
      · refine ⟨_, .refl, ?_, .head hoperand hrest⟩
        simpa using hbound

theorem BinaryOp.precedence_le_rightPrecedence (op : BinaryOp) :
    op.precedence ≤ op.rightPrecedence := by
  unfold rightPrecedence
  split <;> omega

/-- A right operand takes the operators that bind tighter, and the others follow. -/
theorem Reads.operator {least : Nat} {op : BinaryOp} {rest mid after : List Token}
    {faults faults' : List Fault} (hop : least ≤ op.precedence)
    (hrhs : Reads (.seq (.sym .primary) (.many (.operand op.rightPrecedence)))
      (Token.continuesExpr op.rightPrecedence) rest faults mid)
    (hrest : Reads (.many (.operand least)) (Token.continuesExpr least) mid faults' after) :
    Reads (.many (.operand least)) (Token.continuesExpr least) (.operator op :: rest)
      (faults ++ faults') after := by
  have hle : least ≤ op.rightPrecedence := Nat.le_trans hop op.precedence_le_rightPrecedence
  constructor
  · intro h
    obtain ⟨rfl, rfl⟩ := List.append_eq_nil_iff.mp h
    obtain ⟨mid', hprimary, htight⟩ := spans_seq.mp (hrhs.sound rfl)
    have hloose := spans_many_iff.mp (hrest.sound rfl)
    have htight' := Relation.ReflTransGen.mono (fun _ _ => spans_operand_mono hle) _ _
      (spans_many_iff.mp htight)
    exact spans_many_iff.mpr (.head (spans_operand.mpr ⟨op, rest, hop, rfl, hprimary⟩)
      (htight'.trans hloose))
  · intro last hspans hends
    -- The word does not say which operators belong to the right operand; the reader gives it all
    -- up to the first that binds too loosely.
    rcases spans_many.mp hspans with rfl | ⟨mid₁, hoperand, hmany⟩
    · exact absurd hends (by simpa using hop)
    · obtain ⟨_, _, -, ⟨⟩, hprimary⟩ := spans_operand.mp hoperand
      obtain ⟨mid₂, htight, hends₂, hloose⟩ := exists_spans_bound hle hmany hends
      obtain ⟨rfl, rfl⟩ := hrhs.complete (spans_seq.mpr ⟨mid₁, hprimary, htight⟩) hends₂
      exact hrest.complete hloose hends

/-- What makes a call of a path. -/
def Phrase.call : Phrase :=
  .seq (.mark .lparen) (.seq (.sym .args) (.mark .rparen))

theorem spans_primary {ts rest : List Token} : Spans (.sym .primary) ts rest ↔
    (∃ value, ts = .int value :: rest) ∨ (∃ value, ts = .float value :: rest) ∨
    (∃ value, ts = .bool value :: rest) ∨
    (∃ mid, ts = .mark .lparen :: mid ∧ Spans (.seq (.sym .expr) (.mark .rparen)) mid rest) ∨
    ∃ mid, Spans (.sym .path) ts mid ∧ Spans (.opt .call) mid rest := by
  rw [spans_sym]
  simp [Nonterminal.rule, Phrase.all, Phrase.call]

def Token.startsExpr : Token → Bool
  | .int _ | .float _ | .bool _ | .name _ | .mark .lparen => true
  | _ => false

theorem exists_startsExpr {ts rest : List Token} (h : Spans (.sym .expr) ts rest) :
    ∃ t tail, ts = t :: tail ∧ t.startsExpr = true := by
  obtain ⟨mid, hprimary, -⟩ := spans_seq.mp (spans_expr.mp h)
  simp only [spans_primary, spans_path] at hprimary
  rcases hprimary with ⟨_, rfl⟩ | ⟨_, rfl⟩ | ⟨_, rfl⟩ | ⟨_, rfl, -⟩ | ⟨_, ⟨_, ⟨_, rfl⟩, -⟩, -⟩
  all_goals exact ⟨_, _, rfl, rfl⟩

theorem not_spans_expr {t : Token} (ht : t.startsExpr = false) (ts rest : List Token) :
    ¬ Spans (.sym .expr) (t :: ts) rest := by
  intro h
  obtain ⟨_, _, ⟨⟩, hstarts⟩ := exists_startsExpr h
  rw [ht] at hstarts
  contradiction

theorem spans_args {ts rest : List Token} :
    Spans (.sym .args) ts rest ↔ Spans (.opt (.commas (.sym .expr))) ts rest :=
  spans_sym

theorem Reads.parens {more : Token → Prop} {rest mid : List Token} {faults : List Fault}
    (hexpr : Reads (.sym .expr) (Token.continuesExpr 1) rest faults mid) :
    Reads (.sym .primary) more (.mark .lparen :: rest)
      (faults ++ (readToken (.mark .rparen) mid).1.faults) (readToken (.mark .rparen) mid).2 :=
  (hexpr.seq_mark (by simp)).congr (by simp [spans_primary, spans_path])

theorem spans_primary_name {text : String} {ts rest : List Token} :
    Spans (.sym .primary) (.name text :: ts) rest ↔
      Spans (.seq (.many (.seq (.mark .colons) (.kind .name))) (.opt .call)) ts rest := by
  simp [spans_primary, spans_path]

theorem ends_of_spans_call {ts rest : List Token} (hspans : Spans (.opt .call) ts rest)
    (hends : Ends Token.continuesPrimary rest) : Ends (· = .mark .colons) ts := by
  refine hends.of_opt hspans (fun _ => .inr) fun hcall => ?_
  obtain ⟨mid, hlparen, -⟩ := spans_seq.mp hcall
  obtain rfl := spans_mark.mp hlparen
  simp

mutual

theorem reads_binary (least : Nat) (ts : List Token) :
    Reads (.seq (.sym .primary) (.many (.operand least))) (Token.continuesExpr least) ts
      (readBinary least ts).1.faults (readBinary least ts).2 := by
  have hrest := readBinary_rest_all.2.2.1 ts
  obtain ⟨more, hmore, hoperators⟩ :=
    reads_operators least (readPrimary ts).1 (readPrimary ts).2
  rw [readBinary_eq, hmore]
  refine (reads_primary ts).seq hoperators ?_
  intro mid after hspans hends
  refine hends.of_many hspans (fun _ => .inl) ?_
  intro rest hoperand
  obtain ⟨op, mid, -, rfl, -⟩ := spans_operand.mp hoperand
  simp
termination_by 3 * ts.length + 2

/-- What further operands add to the faults of the left operand. -/
theorem reads_operators (least : Nat) (lhs : ExprTree) (ts : List Token) :
    ∃ more, (readOperators least lhs ts).1.faults = lhs.faults ++ more ∧
      Reads (.many (.operand least)) (Token.continuesExpr least) ts more
        (readOperators least lhs ts).2 := by
  by_cases h : ∃ op rest, ts = .operator op :: rest ∧ least ≤ op.precedence
  · obtain ⟨op, rest, hts, hop⟩ := h
    have hlength : ts.length = rest.length + 1 := by rw [hts, List.length_cons]
    have hrest := readBinary_rest_all.1 op.rightPrecedence rest
    have hrhs := reads_binary op.rightPrecedence rest
    obtain ⟨more, hmore, hoperators⟩ := reads_operators least
      (.binary op lhs (readBinary op.rightPrecedence rest).1) (readBinary op.rightPrecedence rest).2
    rw [hts, readOperators_operator hop]
    refine ⟨(readBinary op.rightPrecedence rest).1.faults ++ more, ?_, hrhs.operator hop hoperators⟩
    rw [hmore, ExprTree.faults, List.append_assoc]
  · have hstop : ∀ op rest, ts = .operator op :: rest → op.precedence < least := by
      intro op rest hts
      exact Nat.lt_of_not_le fun hop => h ⟨op, rest, hts, hop⟩
    rw [readOperators_stop lhs hstop]
    refine ⟨[], (List.append_nil _).symm, .many_nil fun after hoperand => ?_⟩
    obtain ⟨op, mid, hop, hts, -⟩ := spans_operand.mp hoperand
    exact h ⟨op, mid, hts, hop⟩
termination_by 3 * ts.length + 1

theorem reads_primary (ts : List Token) :
    Reads (.sym .primary) Token.continuesPrimary ts (readPrimary ts).1.faults
      (readPrimary ts).2 := by
  fun_cases readPrimary ts with
  | case1 value rest | case2 value rest | case3 value rest =>
      exact .single (by simp [spans_primary, spans_path])
  | case4 rest inner atParen hinner after hparen =>
      have hexpr := (reads_binary 1 rest).congr fun _ => spans_expr
      rw [hinner] at hexpr
      simpa [hparen] using hexpr.parens
  | case5 rest inner atParen hinner fault after hparen =>
      have hexpr := (reads_binary 1 rest).congr fun _ => spans_expr
      rw [hinner] at hexpr
      simpa [hparen, ExprTree.faults, ExprTree.faultsAll] using hexpr.parens
  | case6 text rest fault after heq =>
      have hsegments := reads_segments rest
      rw [heq] at hsegments
      exact (hsegments.seq_fault ends_of_spans_call).congr fun _ => spans_primary_name
  | case7 text rest segments after heq hlt args last hargs =>
      have hsegments := reads_segments rest
      have hcall := reads_args after
      rw [heq] at hsegments
      rw [hargs] at hcall
      have hopt : Reads (.opt .call) Token.continuesPrimary (.mark .lparen :: after)
          (ExprTree.faultsAll args) last :=
        .opt_some (hcall.congr (by simp [Phrase.call])) (by simp)
      exact (hsegments.seq hopt ends_of_spans_call).congr fun _ => spans_primary_name
  | case8 text rest segments after heq hlt =>
      have hrest := readSegments_rest rest
      rw [heq] at hrest
      exact absurd hrest hlt
  | case9 text rest segments mid hmid heq =>
      have hsegments := reads_segments rest
      rw [heq] at hsegments
      have hnone : ∀ after, ¬ Spans .call mid after := by
        intro after hcall
        obtain ⟨rest, hlparen, -⟩ := spans_seq.mp hcall
        exact hmid rest (spans_mark.mp hlparen)
      have hopt : Reads (.opt .call) Token.continuesPrimary mid [] mid := .opt_none hnone
      exact (hsegments.seq hopt ends_of_spans_call).congr fun _ => spans_primary_name
  | case10 ts hint hfloat hbool hparen hname =>
      refine .fault (fun after => ?_) _
      simp only [spans_primary, spans_path]
      grind
termination_by 3 * ts.length
decreasing_by
  all_goals subst_vars
  all_goals simp only [List.length_cons]
  all_goals omega

theorem reads_args (ts : List Token) :
    Reads (.seq (.sym .args) (.mark .rparen)) Token.continuesPrimary ts
      (ExprTree.faultsAll (readArgs ts).1) (readArgs ts).2 := by
  suffices hargs : Reads (.seq (.opt (.commas (.sym .expr))) (.mark .rparen))
      Token.continuesPrimary ts (ExprTree.faultsAll (readArgs ts).1) (readArgs ts).2 from
    hargs.congr fun _ => by simp only [spans_seq, spans_args]
  rw [readArgs]
  split
  · rename_i h
    obtain ⟨rest, rfl⟩ := List.head?_eq_some_iff.mp h
    exact .closed_none (not_spans_commas (not_spans_expr rfl rest))
  · rename_i h
    exact .closed_some (reads_argsFrom ts) h
termination_by 3 * ts.length + 4

theorem reads_argsFrom (ts : List Token) :
    Reads (.list (.sym .expr)) Token.continuesPrimary ts
      (ExprTree.faultsAll (readArgsFrom ts).1) (readArgsFrom ts).2 := by
  have hexpr := (reads_binary 1 ts).congr fun _ => spans_expr
  fun_cases readArgsFrom ts with
  | case1 arg after harg hlt args last hargs =>
      have hmore := reads_argsFrom after
      rw [harg] at hexpr
      rw [hargs] at hmore
      exact hexpr.list (.listTail_comma hmore) (by simp) (by simp)
  | case2 arg after harg hlt =>
      have hrest := readBinary_rest_all.1 1 ts
      simp [harg] at hrest
      omega
  | case3 arg after hafter harg last hclose =>
      rw [harg] at hexpr
      have hlist : Reads (.list (.sym .expr)) Token.continuesPrimary _ _ _ :=
        hexpr.list (.listTail_rparen hafter) (by simp) (by simp)
      simpa [hclose, ExprTree.faultsAll] using hlist
  | case4 arg after hafter harg fault last hclose =>
      rw [harg] at hexpr
      have hlist : Reads (.list (.sym .expr)) Token.continuesPrimary _ _ _ :=
        hexpr.list (.listTail_rparen hafter) (by simp) (by simp)
      simpa [hclose, ExprTree.faultsAll, ExprTree.faults] using hlist
termination_by 3 * ts.length + 3

end

theorem reads_expr (ts : List Token) :
    Reads (.sym .expr) (Token.continuesExpr 1) ts (readExpr ts).1.faults (readExpr ts).2 :=
  (reads_binary 1 ts).congr fun _ => spans_expr

end UnitAnalysis
