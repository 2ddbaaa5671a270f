import UnitAnalysis.Proofs.Continuation

/-!
# How operators group

Operands with operators between them can be grouped in many ways.  The
operators stand on a ladder of levels, and this leaves one: an operand goes to
the neighbour that binds tighter, and between equals to the left one, except
that assignments group to the right.  The reader of expressions knows no tree;
it climbs with a least precedence, which each operator raises for the operand
on its right.

Main statement: climbing gives the result that the tokens would give with all
parentheses of the grouping written out (`parseExpr_groups`).
-/

namespace UnitAnalysis

open Check

/-! ## Single operands -/

/-- A token that may continue a primary expression to a longer one. -/
def Extends (w : List Token) (t : Token) : Prop :=
  ∃ more, Derives (.sym .primary) (w ++ t :: more)

section Primary

variable {w rest : List Token}

theorem Spans.append {p : Phrase} {ts rest : List Token} (h : Spans p ts rest)
    (more : List Token) : Spans p (ts ++ more) (rest ++ more) := by
  obtain ⟨w, hw, rfl⟩ := h
  exact ⟨w, hw, List.append_assoc ..⟩

theorem derives_primary_iff : Derives (.sym .primary) w ↔
    (readPrimary w).1.faults = [] ∧ (readPrimary w).2 = [] := by
  constructor
  · intro hw
    exact (reads_primary w).complete (spans_nil_iff.mpr hw) ends_nil
  · rintro ⟨hfaults, hrest⟩
    have hspans := (reads_primary w).sound hfaults
    rw [hrest] at hspans
    exact spans_nil_iff.mp hspans

instance : Decidable (Derives (.sym .primary) w) :=
  decidable_of_iff' _ derives_primary_iff

/-- A primary expression goes on only with a parenthesis or a colon. -/
theorem not_extends (hw : Derives (.sym .primary) w) {t : Token} (ht : ¬ t.continuesPrimary) :
    ¬ Extends w t := by
  rintro ⟨more, hlong⟩
  have hspans : Spans (.sym .primary) (w ++ t :: more) (t :: more) := ⟨w, hw, rfl⟩
  have hshort := (reads_primary _).complete hspans (ends_cons.mpr ht)
  have hwhole := derives_primary_iff.mp hlong
  rw [hwhole.2] at hshort
  cases hshort.2

theorem readSegments_append {ts rest : List Token} {segments : List String}
    (h : readSegments ts = (.ok segments, [])) (hends : Ends (· = .mark .colons) rest) :
    readSegments (ts ++ rest) = (.ok segments, rest) := by
  fun_induction readSegments ts generalizing segments with
  | case1 text tail found after heq ih =>
      cases found with
      | error fault => cases h
      | ok found =>
          cases h
          rw [heq] at ih
          simp only [List.cons_append, readSegments, ih rfl]
          rfl
  | case2 tail hname => cases h
  | case3 ts _ hcolons =>
      cases h
      rw [List.nil_append, readSegments]
      · rintro text tail rfl
        simp at hends
      · rintro tail rfl
        simp at hends

/-- A path goes on with a further segment, and it can be called. -/
theorem extends_path {text : String} {ts : List Token}
    (h : Spans (.many (.seq (.mark .colons) (.kind .name))) ts []) {t : Token}
    (ht : t.continuesPrimary) : Extends (.name text :: ts) t := by
  rcases ht with rfl | rfl
  · refine ⟨[.mark .rparen], ?_⟩
    rw [List.cons_append, ← spans_nil_iff, spans_primary_name, spans_seq]
    refine ⟨_, h.append _, spans_opt.mpr (.inl ?_)⟩
    simp [Phrase.call, spans_args]
  · refine ⟨[.name text], ?_⟩
    rw [List.cons_append, ← spans_nil_iff, spans_primary_name, spans_seq]
    refine ⟨[], ?_, spans_opt.mpr (.inr rfl)⟩
    rw [spans_many_iff]
    refine (spans_many_iff.mp (h.append _)).tail ?_
    simp

/-- An operand is read alike whatever follows it, if that does not extend it. -/
theorem readPrimary_append (hw : Derives (.sym .primary) w) (hends : Ends (Extends w) rest) :
    readPrimary (w ++ rest) = ((readPrimary w).1, rest) := by
  obtain ⟨hfaults, hnil⟩ := derives_primary_iff.mp hw
  revert hfaults hnil
  fun_cases readPrimary w with
  | case1 value tail | case2 value tail | case3 value tail =>
      rintro - rfl
      simp only [List.cons_append, List.nil_append, readPrimary]
  | case4 tail inner atParen hinner after hparen =>
      rintro - rfl
      have hclosed : (readToken (.mark .rparen) atParen).1.faults = [] := by rw [hparen]; rfl
      have hexpr : ReadsOn (readBinary 1) tail :=
        readsOn_binary tail (by rw [hinner]; exact ne_nil_of_token hclosed)
      simp only [List.cons_append, readPrimary, hexpr.eq hinner, (readsOn_token hclosed).eq hparen,
        List.nil_append]
  | case5 tail inner atParen hinner fault after hparen =>
      intro hfaults
      simp [ExprTree.faults] at hfaults
  | case6 text tail fault after heq =>
      intro hfaults
      simp [ExprTree.faults] at hfaults
  | case7 text tail segments after heq hlt args last hargs =>
      rintro hfaults rfl
      have hsegments := readsOn_segments tail (by rw [heq]; exact List.cons_ne_nil _ _)
      have hcall := readsOn_args after (.inr (by rw [hargs]; exact hfaults))
      have hlt' : (after ++ rest).length < (tail ++ rest).length := by simpa using hlt
      simp only [List.cons_append, readPrimary, hsegments.eq heq, hlt', if_true, hcall.eq hargs,
        List.nil_append]
  | case8 text tail segments after heq hlt =>
      have hrest := readSegments_rest tail
      rw [heq] at hrest
      exact absurd hrest hlt
  | case9 text tail segments mid hmid heq =>
      rintro - rfl
      -- Of all operands only a path does not end by itself; what it could go on with extends it.
      have hpath := (reads_segments tail).sound (by rw [heq]; rfl)
      rw [heq] at hpath
      have hstop : Ends Token.continuesPrimary rest := hends.mono fun t => extends_path hpath
      have hsegments := readSegments_append heq (hstop.mono fun _ => .inr)
      simp only [List.cons_append, readPrimary, hsegments]
      split
      · cases (Prod.mk.inj ‹_›).1
      · obtain ⟨-, rfl⟩ := Prod.mk.inj ‹_›
        simp at hstop
      · rename_i hsame
        cases hsame
        rfl
  | case10 ts =>
      intro hfaults
      simp [ExprTree.faults] at hfaults

end Primary

/-! ## Levels of operators -/

namespace BinaryOp

/-- The operators by how tight they bind, from the loosest on. -/
def ladder : List (List BinaryOp) :=
  [[.assign], [.or], [.and], [.eq, .ne], [.lt, .gt, .le, .ge], [.add, .sub], [.mul, .div]]

/-- The rung of the ladder on which an operator stands. -/
def level (op : BinaryOp) : Nat :=
  ladder.findIdx (·.contains op)

/-- The left operand of an operator may be made by one that binds tighter, or as tight
where operators group to the left. -/
def AllowsLeft (op inner : BinaryOp) : Prop :=
  op.level < inner.level ∨ op.level = inner.level ∧ op ≠ .assign

/-- The right operand may be made by one that binds tighter, or as tight where they group to
the right. -/
def AllowsRight (op inner : BinaryOp) : Prop :=
  op.level < inner.level ∨ op.level = inner.level ∧ op = .assign

instance (op inner : BinaryOp) : Decidable (op.AllowsLeft inner) :=
  inferInstanceAs (Decidable (_ ∨ _))

instance (op inner : BinaryOp) : Decidable (op.AllowsRight inner) :=
  inferInstanceAs (Decidable (_ ∨ _))

variable {op inner outer : BinaryOp}

theorem eq_assign_iff : op = .assign ↔ op.level = 0 := by
  cases op <;> decide

theorem precedence_eq (op : BinaryOp) : op.precedence = op.level + 1 := by
  cases op <;> rfl

theorem rightPrecedence_eq (op : BinaryOp) :
    op.rightPrecedence = if op.level = 0 then op.level + 1 else op.level + 2 := by
  cases op <;> rfl

theorem allowsLeft_iff : op.AllowsLeft inner ↔ op.precedence < inner.rightPrecedence := by
  rw [AllowsLeft, Ne, eq_assign_iff, precedence_eq, rightPrecedence_eq]
  split <;> omega

theorem allowsRight_iff : op.AllowsRight inner ↔ op.rightPrecedence ≤ inner.precedence := by
  rw [AllowsRight, eq_assign_iff, precedence_eq, rightPrecedence_eq]
  split <;> omega

/-- Of two operators in a row, the left one takes the operand between them or the right one does. -/
theorem not_allowsLeft_iff : ¬ op.AllowsLeft outer ↔ outer.AllowsRight op := by
  rw [allowsLeft_iff, allowsRight_iff, Nat.not_lt]

theorem AllowsLeft.level_le (h : op.AllowsLeft inner) : op.level ≤ inner.level := by
  rcases h with h | ⟨h, -⟩ <;> omega

theorem AllowsRight.level_le (h : op.AllowsRight inner) : op.level ≤ inner.level := by
  rcases h with h | ⟨h, -⟩ <;> omega

theorem AllowsRight.mono (h : outer.AllowsRight op) (hle : op.level ≤ inner.level) :
    outer.AllowsRight inner := by
  rw [allowsRight_iff, precedence_eq] at *
  omega

end BinaryOp

/-! ## Operands and trees over them -/

/-- Operands with operators between them: the first one, and each further one with its operator. -/
structure Operands where
  first : List Token
  more : List (BinaryOp × List Token)

namespace Operands

def tokens (q : Operands) : List Token :=
  q.first ++ q.more.flatMap fun (op, w) => .operator op :: w

def words (q : Operands) : List (List Token) :=
  q.first :: q.more.map (·.2)

def last (q : Operands) : List Token :=
  q.words.getLast (List.cons_ne_nil _ _)

def Grammatical (q : Operands) : Prop :=
  ∀ w ∈ q.words, Derives (.sym .primary) w

instance (q : Operands) : Decidable q.Grammatical :=
  inferInstanceAs (Decidable (∀ w ∈ q.words, Derives (.sym .primary) w))

/-- What follows neither begins with an operator nor extends the last operand. -/
def EndsBefore (q : Operands) (rest : List Token) : Prop :=
  Ends (fun t => (∃ op, t = .operator op) ∨ Extends q.last t) rest

/-- Two sequences with an operator between them. -/
def join (op : BinaryOp) (q r : Operands) : Operands :=
  ⟨q.first, q.more ++ (op, r.first) :: r.more⟩

variable (op : BinaryOp) (q r : Operands)

@[simp] theorem tokens_join : (q.join op r).tokens = q.tokens ++ .operator op :: r.tokens := by
  simp [tokens, join]

@[simp] theorem words_join : (q.join op r).words = q.words ++ r.words := by
  simp [words, join]

@[simp] theorem last_join : (q.join op r).last = r.last := by
  simp only [last, words_join]
  exact List.getLast_append_of_ne_nil _ _

@[simp] theorem grammatical_join :
    (q.join op r).Grammatical ↔ q.Grammatical ∧ r.Grammatical := by
  simp only [Grammatical, words_join, List.forall_mem_append]

end Operands

/-- Operands joined by operators, two at a time. -/
inductive OpTree where
  | operand (word : List Token)
  | join (op : BinaryOp) (lhs rhs : OpTree)

namespace OpTree

def root? : OpTree → Option BinaryOp
  | .operand _ => none
  | .join op _ _ => some op

/-- The operands from left to right. -/
def operands : OpTree → Operands
  | .operand word => ⟨word, []⟩
  | .join op lhs rhs => lhs.operands.join op rhs.operands

/-- Every operator allows those that make its operands. -/
def Grouped : OpTree → Prop
  | .operand _ => True
  | .join op lhs rhs => lhs.Grouped ∧ rhs.Grouped ∧ (∀ inner ∈ lhs.root?, op.AllowsLeft inner) ∧
      ∀ inner ∈ rhs.root?, op.AllowsRight inner

instance Grouped.decidable : (t : OpTree) → Decidable t.Grouped
  | .operand _ => isTrue trivial
  | .join op lhs rhs =>
      have := Grouped.decidable lhs
      have := Grouped.decidable rhs
      inferInstanceAs (Decidable (lhs.Grouped ∧ rhs.Grouped ∧
        (∀ inner ∈ lhs.root?, op.AllowsLeft inner) ∧ ∀ inner ∈ rhs.root?, op.AllowsRight inner))

/-- The tokens with parentheses around every operator and its operands. -/
def parenthesized : OpTree → List Token
  | .operand word => word
  | .join op lhs rhs =>
      .mark .lparen ::
        (lhs.parenthesized ++ .operator op :: (rhs.parenthesized ++ [.mark .rparen]))

/-- The tree of the whole, given how each operand is read by itself. -/
def tree : OpTree → ExprTree
  | .operand word => (readPrimary word).1
  | .join op lhs rhs => .binary op lhs.tree rhs.tree

/-! ## There is one grouping -/

/-- Adds an operand at the right end, below all operators that the new one does not allow on
its left. -/
def snoc : OpTree → BinaryOp → List Token → OpTree
  | .operand word, op, w => .join op (.operand word) (.operand w)
  | .join outer lhs rhs, op, w =>
      if op.AllowsLeft outer then .join op (.join outer lhs rhs) (.operand w)
      else .join outer lhs (rhs.snoc op w)

variable {t lhs rhs : OpTree} {op outer : BinaryOp}

theorem snoc_of_allowsLeft (h : ∀ inner ∈ t.root?, op.AllowsLeft inner) (w : List Token) :
    t.snoc op w = .join op t (.operand w) := by
  cases t with
  | operand word => rfl
  | join outer lhs rhs => exact if_pos (h outer rfl)

theorem snoc_of_allowsRight (h : outer.AllowsRight op) (lhs rhs : OpTree) (w : List Token) :
    (join outer lhs rhs).snoc op w = .join outer lhs (rhs.snoc op w) :=
  if_neg (BinaryOp.not_allowsLeft_iff.mpr h)

theorem operands_snoc (t : OpTree) (op : BinaryOp) (w : List Token) :
    (t.snoc op w).operands = t.operands.join op ⟨w, []⟩ := by
  induction t with
  | operand word => rfl
  | join outer lhs rhs _ ih =>
      rw [snoc]
      split
      · rfl
      · simp [operands, ih, Operands.join]

theorem root?_snoc (t : OpTree) (op : BinaryOp) (w : List Token) :
    (t.snoc op w).root? = some op ∨ (t.snoc op w).root? = t.root? := by
  cases t with
  | operand word => exact .inl rfl
  | join outer lhs rhs =>
      rw [snoc]
      split
      · exact .inl rfl
      · exact .inr rfl

theorem Grouped.snoc (h : t.Grouped) (op : BinaryOp) (w : List Token) : (t.snoc op w).Grouped := by
  induction t with
  | operand word => simp [OpTree.snoc, Grouped, root?]
  | join outer lhs rhs _ ih =>
      by_cases hallows : op.AllowsLeft outer
      · rw [snoc_of_allowsLeft (by simpa [root?] using hallows)]
        refine ⟨h, trivial, ?_, ?_⟩
        · simpa [root?] using hallows
        · simp [root?]
      · rw [BinaryOp.not_allowsLeft_iff] at hallows
        rw [snoc_of_allowsRight hallows]
        obtain ⟨hlhs, hrhs, hleft, hright⟩ := h
        refine ⟨hlhs, ih hrhs, hleft, ?_⟩
        rcases root?_snoc rhs op w with hroot | hroot
        · rw [hroot]
          simpa using hallows
        · rw [hroot]
          exact hright

/-- Adds operands at the right end, one after another. -/
def extend (t : OpTree) (more : List (BinaryOp × List Token)) : OpTree :=
  more.foldl (fun t pair => t.snoc pair.1 pair.2) t

theorem Grouped.extend (h : t.Grouped) (more : List (BinaryOp × List Token)) :
    (t.extend more).Grouped := by
  induction more generalizing t with
  | nil => exact h
  | cons pair more ih => exact ih (h.snoc pair.1 pair.2)

theorem operands_extend (t : OpTree) (more : List (BinaryOp × List Token)) :
    (t.extend more).operands = ⟨t.operands.first, t.operands.more ++ more⟩ := by
  induction more generalizing t with
  | nil => simp [OpTree.extend]
  | cons pair more ih =>
      refine (ih (t.snoc pair.1 pair.2)).trans ?_
      rw [operands_snoc]
      simp [Operands.join]

theorem extend_join {more : List (BinaryOp × List Token)}
    (h : ∀ pair ∈ more, outer.AllowsRight pair.1) (lhs rhs : OpTree) :
    (join outer lhs rhs).extend more = .join outer lhs (rhs.extend more) := by
  induction more generalizing rhs with
  | nil => rfl
  | cons pair more ih =>
      obtain ⟨hpair, hmore⟩ := List.forall_mem_cons.mp h
      change ((join outer lhs rhs).snoc pair.1 pair.2).extend more = _
      rw [snoc_of_allowsRight hpair]
      exact ih hmore _

/-- Below a right operand all operators are allowed there, not only that at its root. -/
theorem Grouped.allowsRight (h : t.Grouped) (hroot : ∀ inner ∈ t.root?, outer.AllowsRight inner) :
    ∀ pair ∈ t.operands.more, outer.AllowsRight pair.1 := by
  induction t with
  | operand word => simp [operands]
  | join op lhs rhs ihlhs ihrhs =>
      obtain ⟨hlhs, hrhs, hleft, hright⟩ := h
      have hop : outer.AllowsRight op := hroot op rfl
      have hlhs' := ihlhs hlhs fun inner hinner => hop.mono (hleft inner hinner).level_le
      have hrhs' := ihrhs hrhs fun inner hinner => hop.mono (hright inner hinner).level_le
      intro pair hpair
      rcases List.mem_append.mp hpair with hpair | hpair
      · exact hlhs' pair hpair
      · rcases List.mem_cons.mp hpair with rfl | hpair
        · exact hop
        · exact hrhs' pair hpair

/-- The tree of a sequence. -/
def ofOperands (q : Operands) : OpTree :=
  (operand q.first).extend q.more

/-- A grouped tree is the one that its operands give. -/
theorem Grouped.ofOperands_eq (h : t.Grouped) : ofOperands t.operands = t := by
  induction t with
  | operand word => rfl
  | join op lhs rhs ihlhs ihrhs =>
      obtain ⟨hlhs, hrhs, hleft, hright⟩ := h
      -- The left operand is complete when `op` comes, and all that comes later goes below `op`.
      calc
        ofOperands (lhs.operands.join op rhs.operands)
          = ((ofOperands lhs.operands).snoc op rhs.operands.first).extend rhs.operands.more := by
            simp [ofOperands, OpTree.extend, Operands.join]
        _ = (join op lhs (.operand rhs.operands.first)).extend rhs.operands.more := by
            rw [ihlhs hlhs, snoc_of_allowsLeft hleft]
        _ = .join op lhs (ofOperands rhs.operands) := extend_join (hrhs.allowsRight hright) _ _
        _ = .join op lhs rhs := by rw [ihrhs hrhs]

/-- The tree over some operands in which they are grouped as the operators say. -/
def Groups (t : OpTree) (q : Operands) : Prop :=
  t.operands = q ∧ t.Grouped

theorem existsUnique_groups (q : Operands) : ∃! t : OpTree, t.Groups q := by
  have hleaf : (operand q.first).Grouped := trivial
  refine ⟨ofOperands q, ⟨operands_extend _ _, hleaf.extend _⟩, ?_⟩
  rintro t ⟨rfl, hgrouped⟩
  exact hgrouped.ofOperands_eq.symm

end OpTree

/-! ## Climbing -/

theorem Operands.Grammatical.ends {q : Operands} (h : q.Grammatical) (t : Token)
    (ht : ¬ t.continuesPrimary) (rest : List Token) : Ends (Extends q.last) (t :: rest) :=
  ends_cons.mpr (not_extends (h _ (List.getLast_mem _)) ht)

theorem readPrimary_operand {w rest : List Token}
    (hw : (OpTree.operand w).operands.Grammatical) (hrest : Ends (Extends w) rest) :
    readPrimary (w ++ rest) = ((OpTree.operand w).tree, rest) :=
  readPrimary_append (hw w (List.mem_singleton_self w)) hrest

/-- In parentheses an operator reads its operands, and then finds the closing parenthesis. -/
theorem readPrimary_parenthesized {t : OpTree} (ht : t.operands.Grammatical) {rest : List Token}
    (hrest : Ends (Extends t.operands.last) rest) :
    readPrimary (t.parenthesized ++ rest) = (t.tree, rest) := by
  induction t generalizing rest with
  | operand word => exact readPrimary_operand ht hrest
  | join op lhs rhs ihlhs ihrhs =>
      obtain ⟨hlhs, hrhs⟩ := (Operands.grammatical_join ..).mp ht
      have hleft := ihlhs hlhs
        (hlhs.ends (.operator op) (by simp) (rhs.parenthesized ++ .mark .rparen :: rest))
      have hright := ihrhs hrhs (hrhs.ends (.mark .rparen) (by simp) rest)
      have hparen (least : Nat) (tree : ExprTree) :
          readOperators least tree (.mark .rparen :: rest) = (tree, .mark .rparen :: rest) :=
        readOperators_stop tree (by simp)
      have hbinary : readBinary 1 (lhs.parenthesized ++ .operator op ::
          (rhs.parenthesized ++ .mark .rparen :: rest)) =
          (.binary op lhs.tree rhs.tree, .mark .rparen :: rest) := by
        rw [readBinary_eq, hleft, readOperators_operator op.one_le_precedence, readBinary_eq,
          hright, hparen, hparen]
      simp [OpTree.parenthesized, readPrimary, hbinary, readToken, OpTree.tree]

/-- Climbing reads a grouped tree as a whole, and goes on after it at the level it began with. -/
theorem readBinary_grouped {t : OpTree} (hgrouped : t.Grouped) (ht : t.operands.Grammatical)
    {least : Nat} (hleast : ∀ root ∈ t.root?, least ≤ root.precedence) {rest : List Token}
    (hrest : Ends (Extends t.operands.last) rest)
    (hnext : ∀ op tail, rest = .operator op :: tail → ∀ root ∈ t.root?, op.AllowsLeft root) :
    readBinary least (t.operands.tokens ++ rest) = readOperators least t.tree rest := by
  induction t generalizing least rest with
  | operand word =>
      have htokens : (OpTree.operand word).operands.tokens = word := List.append_nil word
      rw [htokens, readBinary_eq, readPrimary_operand ht hrest]
  | join op lhs rhs ihlhs ihrhs =>
      obtain ⟨hlhsGrouped, hrhsGrouped, hleft, hright⟩ := hgrouped
      obtain ⟨hlhs, hrhs⟩ := (Operands.grammatical_join ..).mp ht
      have hop : least ≤ op.precedence := hleast op rfl
      have hnextOp : ∀ next tail, rest = .operator next :: tail →
          next.precedence < op.rightPrecedence :=
        fun next tail heq => BinaryOp.allowsLeft_iff.mp (hnext next tail heq op rfl)
      -- Operators of the left operand bind at least as tight as `op`, so they pass `least` too.
      have hlhsRead : readBinary least (lhs.operands.tokens ++ .operator op ::
          (rhs.operands.tokens ++ rest)) =
          readOperators least lhs.tree (.operator op :: (rhs.operands.tokens ++ rest)) := by
        apply ihlhs hlhsGrouped hlhs
        · intro root hroot
          have hlevel := (hleft root hroot).level_le
          rw [BinaryOp.precedence_eq] at hop ⊢
          omega
        · exact hlhs.ends (.operator op) (by simp) _
        · rintro next tail ⟨⟩
          exact hleft
      -- What follows is too loose for `op`, and so for all operators of its right operand.
      have hrhsRead : readBinary op.rightPrecedence (rhs.operands.tokens ++ rest) =
          (rhs.tree, rest) := by
        rw [ihrhs hrhsGrouped hrhs, readOperators_stop _ hnextOp]
        · exact fun root hroot => BinaryOp.allowsRight_iff.mp (hright root hroot)
        · simpa [OpTree.operands] using hrest
        · intro next tail heq root hroot
          have hnextLt := hnextOp next tail heq
          have hrootLe := BinaryOp.allowsRight_iff.mp (hright root hroot)
          rw [BinaryOp.allowsLeft_iff]
          exact Nat.lt_of_lt_of_le hnextLt (Nat.le_trans hrootLe root.precedence_le_rightPrecedence)
      rw [OpTree.operands, Operands.tokens_join, List.append_assoc, List.cons_append, hlhsRead,
        readOperators_operator hop, hrhsRead, OpTree.tree]

/-- Reads an expression and analyses it, and gives it with the tokens after it. -/
def parseExpr (s : Store) (p : Place) (ts : List Token) : Except Error (Expr × List Token) := do
  let (tree, rest) := readExpr ts
  pure (← tree.analyze s p, rest)

theorem readExpr_groups {t : OpTree} {q : Operands} (h : t.Groups q) (hq : q.Grammatical)
    {rest : List Token} (hrest : q.EndsBefore rest) :
    readExpr (q.tokens ++ rest) = (t.tree, rest) := by
  obtain ⟨rfl, hgrouped⟩ := h
  have hstop : ∀ op tail, rest = .operator op :: tail → False := by
    rintro op tail rfl
    exact ends_cons.mp hrest (.inl ⟨op, rfl⟩)
  rw [readExpr, readBinary_grouped hgrouped hq]
  · exact readOperators_stop _ fun op tail heq => (hstop op tail heq).elim
  · exact fun root _ => root.one_le_precedence
  · exact hrest.mono fun _ => .inr
  · exact fun op tail heq => (hstop op tail heq).elim

theorem readExpr_parenthesized {t : OpTree} (ht : t.operands.Grammatical) {rest : List Token}
    (hrest : t.operands.EndsBefore rest) :
    readExpr (t.parenthesized ++ rest) = (t.tree, rest) := by
  rw [readExpr, readBinary_eq, readPrimary_parenthesized ht (hrest.mono fun _ => .inr)]
  apply readOperators_stop
  rintro op tail rfl
  exact absurd (.inl ⟨op, rfl⟩) (ends_cons.mp hrest)

/--
There is one grouping of operands as the operators say.  The tokens are read as
its tree, with the expression or error that its parentheses would give, and
nothing that follows them is read.
-/
theorem parseExpr_groups (q : Operands) (hq : q.Grammatical) :
    (∃! t : OpTree, t.Groups q) ∧
    ∀ t : OpTree, t.Groups q → ∀ s p rest, q.EndsBefore rest →
      readExpr (q.tokens ++ rest) = (t.tree, rest) ∧
      parseExpr s p (q.tokens ++ rest) = parseExpr s p (t.parenthesized ++ rest) ∧
      ∀ e after, parseExpr s p (q.tokens ++ rest) = .ok (e, after) → after = rest := by
  refine ⟨OpTree.existsUnique_groups q, ?_⟩
  intro t ht s p rest hrest
  have hread := readExpr_groups ht hq hrest
  obtain ⟨rfl, -⟩ := ht
  have hparen := readExpr_parenthesized hq hrest
  refine ⟨hread, ?_, ?_⟩
  · rw [parseExpr, parseExpr, hread, hparen]
  · intro e after hok
    rw [parseExpr, hread] at hok
    obtain ⟨e', -, hpure⟩ := bind_eq_ok.mp hok
    cases hpure
    rfl

/-- `1 - 2 - (3) * 4;` is read like `((1 - 2) - ((3) * 4));`. -/
theorem parseExpr_groups_literals : ∃ result,
    parseExpr .empty .top
      [.int 1, .operator .sub, .int 2, .operator .sub, .mark .lparen, .int 3, .mark .rparen,
        .operator .mul, .int 4, .mark .semi] = .ok result ∧
    result.2 = [.mark .semi] ∧
    parseExpr .empty .top
      [.mark .lparen, .mark .lparen, .int 1, .operator .sub, .int 2, .mark .rparen,
        .operator .sub, .mark .lparen, .mark .lparen, .int 3, .mark .rparen, .operator .mul,
        .int 4, .mark .rparen, .mark .rparen, .mark .semi] = .ok result := by
  have hends : ¬ ((∃ op, Token.mark .semi = .operator op) ∨ Extends [.int 4] (.mark .semi)) := by
    rintro (⟨op, ⟨⟩⟩ | hextends)
    exact not_extends (by decide +kernel) (by simp) hextends
  obtain ⟨-, hsame, hrest⟩ := (parseExpr_groups
    ⟨[.int 1], [(.sub, [.int 2]), (.sub, [.mark .lparen, .int 3, .mark .rparen]),
      (.mul, [.int 4])]⟩ (by decide +kernel)).2
    (.join .sub (.join .sub (.operand [.int 1]) (.operand [.int 2]))
      (.join .mul (.operand [.mark .lparen, .int 3, .mark .rparen]) (.operand [.int 4])))
    ⟨rfl, by decide⟩ .empty .top [.mark .semi] (ends_cons.mpr hends)
  refine exists_ok_and (by decide +kernel) fun (e, after) hok => ?_
  exact ⟨hrest e after hok, hsame.symm.trans hok⟩

end UnitAnalysis
