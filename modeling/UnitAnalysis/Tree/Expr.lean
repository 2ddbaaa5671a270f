import UnitAnalysis.Tree.Basic

/-!
# Reading types and expressions

A reader takes the tokens of a unit from some point on and gives a tree and the
tokens that follow it.  No reader goes past an `endOfInput` token, and the end of
the list counts as one.  After a fault no tokens follow.  Where a reader goes on
after another one, it first makes sure that tokens were consumed, which fails only
at the end of the list.

Main statement: a reader that is given any token leaves fewer tokens
(`readExpr_rest`, `readType_rest`).
-/

namespace UnitAnalysis

/-- A reader's result and the tokens after it. -/
abbrev Reading (α : Type) := α × List Token

/-- The token that stands first, or the end of the input. -/
def nextToken (ts : List Token) : Token :=
  ts.headD .endOfInput

/-- The fault of not finding something at the front of the tokens. -/
def faultAt (wanted : Expected) (ts : List Token) : Fault :=
  .unexpected wanted (nextToken ts)

def readToken (t : Token) (ts : List Token) : Reading (Required Unit) :=
  if ts.head? = some t then (.ok (), ts.tail) else (.error (faultAt (.token t) ts), [])

def readName : List Token → Reading (Required String)
  | .name text :: rest => (.ok text, rest)
  | ts => (.error (faultAt .name ts), [])

def dropToken (t : Token) (ts : List Token) : List Token :=
  if ts.head? = some t then ts.tail else ts

def readSegments : List Token → Reading (Required (List String))
  | .mark .colons :: .name text :: rest =>
      match readSegments rest with
      | (segments, rest) => (segments.map (text :: ·), rest)
  | .mark .colons :: rest => (.error (faultAt .name rest), [])
  | ts => (.ok [], ts)

/-! ## Types -/

def readQualifiers (quals : Qualifiers) : List Token → Reading Qualifiers
  | .qualifier word :: rest => readQualifiers (quals.insert word) rest
  | ts => (quals, ts)

/-- Reads the qualifiers, stars and ampersands after a type. -/
def readSuffixes : List Token → Reading (List TypeSuffix)
  | .qualifier word :: rest =>
      match readSuffixes rest with
      | (suffixes, rest) => (.qualifier word :: suffixes, rest)
  | .operator .mul :: rest =>
      match readSuffixes rest with
      | (suffixes, rest) => (.pointer :: suffixes, rest)
  | .mark .amp :: rest =>
      match readSuffixes rest with
      | (suffixes, rest) => (.reference :: suffixes, rest)
  | ts => ([], ts)

def readBase : List Token → Reading (Required TypeBase)
  | .builtin kind :: rest => (.ok (.builtin kind), rest)
  | .name text :: rest =>
      match readSegments rest with
      | (segments, rest) => (segments.map fun segments => .named ⟨text, segments⟩, rest)
  | ts => (.error (faultAt .type ts), [])

def readType (ts : List Token) : Reading TypeTree :=
  match readQualifiers .none ts with
  | (quals, ts) =>
      match readBase ts with
      | (base, ts) =>
          match readSuffixes ts with
          | (suffixes, ts) => (⟨quals, base, suffixes⟩, ts)

/-! ## Expressions -/

mutual

/-- Reads operands joined by operators of at least the given precedence. -/
def readBinary (least : Nat) (ts : List Token) : Reading ExprTree :=
  match readPrimary ts with
  | (lhs, rest) =>
      if rest.length < ts.length then readOperators least lhs rest else (lhs, rest)
termination_by 3 * ts.length + 2

/-- Joins further operands to a left operand, as long as the operators bind tight enough. -/
def readOperators (least : Nat) (lhs : ExprTree) (ts : List Token) : Reading ExprTree :=
  match ts with
  | .operator op :: rest =>
      if op.precedence < least then (lhs, ts)
      else
        match readBinary op.rightPrecedence rest with
        | (rhs, after) =>
            if after.length ≤ rest.length then readOperators least (.binary op lhs rhs) after
            else (.binary op lhs rhs, after)
  | _ => (lhs, ts)
termination_by 3 * ts.length + 1

/-- Reads a literal, an expression in parentheses, a name or a call. -/
def readPrimary (ts : List Token) : Reading ExprTree :=
  match ts with
  | .int value :: rest => (.int value, rest)
  | .float value :: rest => (.float value, rest)
  | .bool value :: rest => (.bool value, rest)
  | .mark .lparen :: rest =>
      match readBinary 1 rest with
      | (inner, after) =>
          match readToken (.mark .rparen) after with
          | (.ok (), after) => (inner, after)
          | (.error fault, after) => (.broken [inner] fault, after)
  | .name text :: rest =>
      match readSegments rest with
      | (.error fault, after) => (.broken [] fault, after)
      | (.ok segments, .mark .lparen :: after) =>
          if after.length < rest.length then
            match readArgs after with
            | (args, after) => (.call ⟨text, segments⟩ args, after)
          else (.name ⟨text, segments⟩, after)
      | (.ok segments, after) => (.name ⟨text, segments⟩, after)
  | _ => (.broken [] (faultAt .expression ts), [])
termination_by 3 * ts.length

/-- Reads the arguments of a call after its opening parenthesis, and the closing one. -/
def readArgs (ts : List Token) : Reading (List ExprTree) :=
  if ts.head? = some (.mark .rparen) then ([], ts.tail) else readArgsFrom ts
termination_by 3 * ts.length + 4

/-- Reads one argument or more, and the closing parenthesis. -/
def readArgsFrom (ts : List Token) : Reading (List ExprTree) :=
  match readBinary 1 ts with
  | (arg, .mark .comma :: after) =>
      if after.length < ts.length then
        match readArgsFrom after with
        | (args, after) => (arg :: args, after)
      else ([arg], after)
  | (arg, after) =>
      match readToken (.mark .rparen) after with
      | (.ok (), after) => ([arg], after)
      | (.error fault, after) => ([arg, .broken [] fault], after)
termination_by 3 * ts.length + 3

end

def readExpr (ts : List Token) : Reading ExprTree :=
  readBinary 1 ts

/-! ## Progress -/

theorem readToken_rest (t : Token) (ts : List Token) :
    (readToken t ts).2.length ≤ ts.length - 1 := by
  unfold readToken
  split <;> simp

theorem readName_rest (ts : List Token) : (readName ts).2.length ≤ ts.length - 1 := by
  unfold readName
  split <;> simp

theorem readSegments_rest (ts : List Token) : (readSegments ts).2.length ≤ ts.length := by
  fun_induction readSegments ts
  all_goals simp_all
  omega

theorem readQualifiers_rest (quals : Qualifiers) (ts : List Token) :
    (readQualifiers quals ts).2.length ≤ ts.length := by
  fun_induction readQualifiers quals ts
  all_goals simp_all
  omega

theorem readSuffixes_rest (ts : List Token) : (readSuffixes ts).2.length ≤ ts.length := by
  fun_induction readSuffixes ts <;> simp_all <;> omega

theorem readBase_rest (ts : List Token) : (readBase ts).2.length ≤ ts.length - 1 := by
  unfold readBase
  split
  · simp
  · rename_i rest
    simpa using readSegments_rest rest
  · simp

theorem readType_rest (ts : List Token) : (readType ts).2.length ≤ ts.length - 1 := by
  have hquals := readQualifiers_rest .none ts
  have hbase := readBase_rest (readQualifiers .none ts).2
  have hsuffixes := readSuffixes_rest (readBase (readQualifiers .none ts).2).2
  simp only [readType]
  omega

/-- The bounds of all expression readers, by induction along their calls. -/
theorem readBinary_rest_all :
    (∀ least ts, (readBinary least ts).2.length ≤ ts.length - 1) ∧
    (∀ least lhs ts, (readOperators least lhs ts).2.length ≤ ts.length) ∧
    (∀ ts, (readPrimary ts).2.length ≤ ts.length - 1) ∧
    (∀ ts, (readArgs ts).2.length ≤ ts.length - 1) ∧
    (∀ ts, (readArgsFrom ts).2.length ≤ ts.length - 1) := by
  apply readBinary.mutual_induct
    (fun least ts => (readBinary least ts).2.length ≤ ts.length - 1)
    (fun least lhs ts => (readOperators least lhs ts).2.length ≤ ts.length)
    (fun ts => (readPrimary ts).2.length ≤ ts.length - 1)
    (fun ts => (readArgs ts).2.length ≤ ts.length - 1)
    (fun ts => (readArgsFrom ts).2.length ≤ ts.length - 1)
  all_goals intros
  all_goals first
    | rw [readBinary]
    | rw [readOperators]
    | rw [readPrimary]
    | rw [readArgs]
    | rw [readArgsFrom]
  all_goals simp_all
  all_goals grind [readToken_rest, readSegments_rest]

theorem readExpr_rest (ts : List Token) : (readExpr ts).2.length ≤ ts.length - 1 :=
  readBinary_rest_all.1 1 ts

end UnitAnalysis
