import Mathlib.Logic.Relation
import UnitAnalysis.Token

/-!
# The grammar of units

The grammar is written in extended form: a phrase is a token, a nonterminal, a
sequence, a choice or a repetition, and `Nonterminal.rule` gives the phrase of
each nonterminal.  `Derives` is its language.  The end of the input is no token
of it: a unit is the word that stands before the end.

Readers leave the tokens after what they read, so that the proofs about them
use `Spans`, by which a phrase covers the tokens from one point to another.
Main statements: one equation of `Spans` for each form of phrase.
-/

namespace UnitAnalysis

inductive Nonterminal where
  | unit
  | item
  | classDef
  | field
  | enumDef
  | enumerator
  | func
  | param
  | var
  | type
  | block
  | stmt
  | expr
  | primary
  | path
  | args
  deriving DecidableEq, Repr

inductive Phrase where
  | empty
  | one (wanted : Token → Prop)
  | sym (symbol : Nonterminal)
  | seq (first second : Phrase)
  | alt (left right : Phrase)
  | many (body : Phrase)

namespace Phrase

def token (t : Token) : Phrase :=
  .one (· = t)

def word (word : Keyword) : Phrase :=
  token (.keyword word)

def mark (sign : Mark) : Phrase :=
  token (.mark sign)

def op (op : BinaryOp) : Phrase :=
  token (.operator op)

/-- A token of one kind, whatever it carries. -/
def kind {α : Type} (make : α → Token) : Phrase :=
  .one fun t => ∃ a, t = make a

def all : List Phrase → Phrase
  | [] => .empty
  | [p] => p
  | p :: ps => .seq p (all ps)

def any : List Phrase → Phrase
  | [] => .one fun _ => False
  | [p] => p
  | p :: ps => .alt p (any ps)

def opt (p : Phrase) : Phrase :=
  .alt p .empty

/-- One phrase or more of a sort, with commas between them. -/
def commas (p : Phrase) : Phrase :=
  .seq p (.many (.seq (.mark .comma) p))

end Phrase

open Phrase in
def Nonterminal.rule : Nonterminal → Phrase
  | .unit => many (sym .item)
  | .item => any [sym .classDef, sym .enumDef, sym .func, sym .var]
  | .classDef =>
      all [word .classKw, kind .name, mark .lbrace, many (any [sym .field, sym .func]),
        mark .rbrace, opt (mark .semi)]
  | .field => all [word .letKw, sym .type, kind .name, mark .semi]
  | .enumDef =>
      all [word .enumKw, kind .name, mark .lbrace,
        opt (all [commas (sym .enumerator), opt (mark .comma)]), mark .rbrace, opt (mark .semi)]
  | .enumerator => all [kind .name, opt (all [op .assign, kind .int])]
  | .func =>
      all [word .funcKw, kind .name, mark .lparen, opt (commas (sym .param)), mark .rparen,
        opt (all [mark .arrow, sym .type]), any [mark .semi, sym .block]]
  | .param => all [sym .type, kind .name]
  | .var => all [word .letKw, sym .type, kind .name, opt (all [op .assign, sym .expr]), mark .semi]
  | .type =>
      all [many (kind .qualifier), any [kind .builtin, sym .path],
        many (any [kind .qualifier, op .mul, mark .amp])]
  | .block => all [mark .lbrace, many (sym .stmt), mark .rbrace]
  | .stmt =>
      any [sym .block, sym .var, all [word .returnKw, opt (sym .expr), mark .semi],
        all [sym .expr, mark .semi]]
  | .expr => all [sym .primary, many (all [kind .operator, sym .primary])]
  | .primary =>
      any [kind .int, kind .float, kind .bool, all [mark .lparen, sym .expr, mark .rparen],
        all [sym .path, opt (all [mark .lparen, sym .args, mark .rparen])]]
  | .path => all [kind .name, many (all [mark .colons, kind .name])]
  | .args => opt (commas (sym .expr))

/-- The words of a phrase. -/
inductive Derives : Phrase → List Token → Prop where
  | empty : Derives .empty []
  | one {wanted : Token → Prop} {t : Token} (h : wanted t) : Derives (.one wanted) [t]
  | sym {symbol : Nonterminal} {w : List Token} (h : Derives symbol.rule w) :
      Derives (.sym symbol) w
  | seq {p q : Phrase} {u v : List Token} (hp : Derives p u) (hq : Derives q v) :
      Derives (.seq p q) (u ++ v)
  | left {p q : Phrase} {w : List Token} (h : Derives p w) : Derives (.alt p q) w
  | right {p q : Phrase} {w : List Token} (h : Derives q w) : Derives (.alt p q) w
  | done {p : Phrase} : Derives (.many p) []
  | more {p : Phrase} {u v : List Token} (hp : Derives p u) (hrest : Derives (.many p) v) :
      Derives (.many p) (u ++ v)

/-! ## The end of the input -/

/-- The end of the input is no token that the phrase asks for by itself. -/
def Phrase.Endless : Phrase → Prop
  | .empty | .sym _ => True
  | .one wanted => ¬ wanted .endOfInput
  | .seq p q | .alt p q => p.Endless ∧ q.Endless
  | .many p => p.Endless

theorem Nonterminal.endless_rule (symbol : Nonterminal) : symbol.rule.Endless := by
  cases symbol <;> simp [rule, Phrase.Endless, Phrase.all, Phrase.any, Phrase.opt, Phrase.commas,
    Phrase.word, Phrase.mark, Phrase.op, Phrase.token, Phrase.kind]

theorem Derives.end_not_mem {p : Phrase} {w : List Token} (h : Derives p w) (hp : p.Endless) :
    .endOfInput ∉ w := by
  induction h with
  | empty | done => exact List.not_mem_nil
  | one hwanted =>
      intro hmem
      obtain rfl := List.mem_singleton.mp hmem
      exact hp hwanted
  | @sym symbol _ _ ih => exact ih symbol.endless_rule
  | left _ ih => exact ih hp.1
  | right _ ih => exact ih hp.2
  | seq _ _ ihp ihq =>
      rw [List.mem_append, not_or]
      exact ⟨ihp hp.1, ihq hp.2⟩
  | more _ _ ihp ihrest =>
      rw [List.mem_append, not_or]
      exact ⟨ihp hp, ihrest hp⟩

namespace Token

def isEnd (t : Token) : Bool :=
  t == .endOfInput

/-- The tokens of a unit, up to the first end of input. -/
def body (tokens : List Token) : List Token :=
  tokens.takeWhile (!·.isEnd)

@[simp] theorem body_nil : body [] = [] :=
  rfl

@[simp] theorem body_end (ts : List Token) : body (.endOfInput :: ts) = [] :=
  rfl

@[simp] theorem body_cons {t : Token} (ht : t ≠ .endOfInput) (ts : List Token) :
    body (t :: ts) = t :: body ts := by
  simp [body, isEnd, ht]

theorem body_append {w : List Token} (hw : .endOfInput ∉ w) (ts : List Token) :
    body (w ++ ts) = w ++ body ts := by
  induction w with
  | nil => rfl
  | cons t w ih =>
      rw [List.mem_cons, not_or] at hw
      rw [List.cons_append, body_cons (Ne.symm hw.1), ih hw.2, List.cons_append]

@[simp] theorem findIdx_isEnd_cons {t : Token} (ht : t ≠ .endOfInput) (ts : List Token) :
    (t :: ts).findIdx isEnd = ts.findIdx isEnd + 1 := by
  have hend : t.isEnd = false := beq_eq_false_iff_ne.mpr ht
  rw [List.findIdx_cons, hend, cond_false]

/-- A unit has the tokens at the positions before the first end of the input. -/
theorem length_body (ts : List Token) : (body ts).length = ts.findIdx isEnd := by
  induction ts with
  | nil => rfl
  | cons t ts ih =>
      by_cases ht : t = .endOfInput
      · rw [ht]
        rfl
      · simp [ht, ih]

end Token

/-! ## Spans -/

/-- The tokens from one point to a later one are a word of the phrase. -/
def Spans (p : Phrase) (ts rest : List Token) : Prop :=
  ∃ w, Derives p w ∧ ts = w ++ rest

section Spans

variable {p q : Phrase} {ts rest : List Token}

theorem spans_nil_iff : Spans p ts [] ↔ Derives p ts := by
  simp [Spans]

@[simp] theorem spans_empty : Spans .empty ts rest ↔ ts = rest := by
  constructor
  · rintro ⟨w, ⟨⟩, rfl⟩
    rfl
  · rintro rfl
    exact ⟨[], .empty, rfl⟩

@[simp] theorem spans_one {wanted : Token → Prop} :
    Spans (.one wanted) ts rest ↔ ∃ t, wanted t ∧ ts = t :: rest := by
  constructor
  · rintro ⟨w, h, rfl⟩
    cases h with
    | one h => exact ⟨_, h, rfl⟩
  · rintro ⟨t, h, rfl⟩
    exact ⟨[t], .one h, rfl⟩

theorem spans_sym {symbol : Nonterminal} :
    Spans (.sym symbol) ts rest ↔ Spans symbol.rule ts rest := by
  constructor
  · rintro ⟨w, h, rfl⟩
    cases h with
    | sym h => exact ⟨w, h, rfl⟩
  · rintro ⟨w, h, rfl⟩
    exact ⟨w, .sym h, rfl⟩

@[simp] theorem spans_seq :
    Spans (.seq p q) ts rest ↔ ∃ mid, Spans p ts mid ∧ Spans q mid rest := by
  constructor
  · rintro ⟨w, h, rfl⟩
    cases h with
    | seq hp hq => exact ⟨_, ⟨_, hp, List.append_assoc ..⟩, ⟨_, hq, rfl⟩⟩
  · rintro ⟨mid, ⟨u, hp, rfl⟩, ⟨v, hq, rfl⟩⟩
    exact ⟨u ++ v, .seq hp hq, (List.append_assoc ..).symm⟩

@[simp] theorem spans_alt : Spans (.alt p q) ts rest ↔ Spans p ts rest ∨ Spans q ts rest := by
  constructor
  · rintro ⟨w, h, rfl⟩
    cases h with
    | left h => exact .inl ⟨w, h, rfl⟩
    | right h => exact .inr ⟨w, h, rfl⟩
  · rintro (⟨w, h, rfl⟩ | ⟨w, h, rfl⟩)
    · exact ⟨w, .left h, rfl⟩
    · exact ⟨w, .right h, rfl⟩

theorem spans_many_iff :
    Spans (.many p) ts rest ↔ Relation.ReflTransGen (Spans p) ts rest := by
  constructor
  · rintro ⟨w, h, rfl⟩
    generalize hmany : Phrase.many p = m at h
    induction h with
    | done => exact .refl
    | @more p' u v hp _ _ ih =>
        cases hmany
        rw [List.append_assoc]
        exact .head ⟨u, hp, rfl⟩ (ih rfl)
    | _ => cases hmany
  · intro h
    induction h using Relation.ReflTransGen.head_induction_on with
    | refl => exact ⟨[], .done, rfl⟩
    | head hp _ ih =>
        obtain ⟨u, hp, rfl⟩ := hp
        obtain ⟨v, hrest, rfl⟩ := ih
        exact ⟨u ++ v, .more hp hrest, (List.append_assoc ..).symm⟩

/-- A repetition, unrolled once. -/
theorem spans_many :
    Spans (.many p) ts rest ↔ ts = rest ∨ ∃ mid, Spans p ts mid ∧ Spans (.many p) mid rest := by
  simp only [spans_many_iff]
  exact Relation.ReflTransGen.cases_head_iff

/-- A repetition and what follows it, unrolled once. -/
theorem spans_loop :
    Spans (.seq (.many p) q) ts rest ↔
      Spans q ts rest ∨ Spans (.seq p (.seq (.many p) q)) ts rest := by
  simp only [spans_seq]
  constructor
  · rintro ⟨mid, hmany, hq⟩
    rcases spans_many.mp hmany with rfl | ⟨mid', hp, hmany⟩
    · exact .inl hq
    · exact .inr ⟨mid', hp, mid, hmany, hq⟩
  · rintro (hq | ⟨mid', hp, mid, hmany, hq⟩)
    · exact ⟨ts, spans_many.mpr (.inl rfl), hq⟩
    · exact ⟨mid, spans_many.mpr (.inr ⟨mid', hp, hmany⟩), hq⟩

@[simp] theorem spans_all_single : Spans (.all [p]) ts rest ↔ Spans p ts rest :=
  .rfl

@[simp] theorem spans_all_cons {ps : List Phrase} :
    Spans (.all (p :: q :: ps)) ts rest ↔ ∃ mid, Spans p ts mid ∧ Spans (.all (q :: ps)) mid rest :=
  spans_seq

@[simp] theorem spans_any_single : Spans (.any [p]) ts rest ↔ Spans p ts rest :=
  .rfl

@[simp] theorem spans_any_cons {ps : List Phrase} :
    Spans (.any (p :: q :: ps)) ts rest ↔ Spans p ts rest ∨ Spans (.any (q :: ps)) ts rest :=
  spans_alt

@[simp] theorem spans_opt : Spans p.opt ts rest ↔ Spans p ts rest ∨ ts = rest := by
  simp [Phrase.opt]

@[simp] theorem spans_token {t : Token} : Spans (.token t) ts rest ↔ ts = t :: rest := by
  simp [Phrase.token]

@[simp] theorem spans_word {word : Keyword} :
    Spans (.word word) ts rest ↔ ts = .keyword word :: rest :=
  spans_token

@[simp] theorem spans_mark {sign : Mark} : Spans (.mark sign) ts rest ↔ ts = .mark sign :: rest :=
  spans_token

@[simp] theorem spans_op {op : BinaryOp} : Spans (.op op) ts rest ↔ ts = .operator op :: rest :=
  spans_token

@[simp] theorem spans_kind {α : Type} {make : α → Token} :
    Spans (.kind make) ts rest ↔ ∃ a, ts = make a :: rest := by
  simp only [Phrase.kind, spans_one]
  constructor
  · rintro ⟨_, ⟨a, rfl⟩, h⟩
    exact ⟨a, h⟩
  · rintro ⟨a, h⟩
    exact ⟨_, ⟨a, rfl⟩, h⟩

/-- A list with commas, unrolled once. -/
theorem spans_commas : Spans p.commas ts rest ↔
    ∃ mid, Spans p ts mid ∧
      (mid = rest ∨ ∃ mid', mid = .mark .comma :: mid' ∧ Spans p.commas mid' rest) := by
  have hmany : ∀ mid, Spans (.many (.seq (.mark .comma) p)) mid rest ↔
      mid = rest ∨ ∃ mid', mid = .mark .comma :: mid' ∧ Spans p.commas mid' rest := by
    intro mid
    rw [spans_many]
    simp only [Phrase.commas, spans_seq, spans_mark]
    grind
  exact spans_seq.trans (exists_congr fun mid => and_congr_right fun _ => hmany mid)

theorem not_spans_commas (h : ∀ mid, ¬ Spans p ts mid) (rest : List Token) :
    ¬ Spans p.commas ts rest := by
  intro hspans
  obtain ⟨mid, hp, -⟩ := spans_commas.mp hspans
  exact h mid hp

end Spans

end UnitAnalysis
