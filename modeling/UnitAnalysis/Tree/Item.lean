import UnitAnalysis.Tree.Stmt

/-!
# Reading items and units

The parameters of a function stand before its return type, which is wanted
first.  The parentheses are therefore skipped once, by counting, and the
parameters in them are read from the same point afterwards.

Main statement: a reader that is given any token leaves fewer tokens
(`readItem_rest` and the like for its parts).
-/

namespace UnitAnalysis

/-! ## Functions -/

/-- The tokens after the parenthesis that closes `depth` further open ones. -/
def skipParens? (depth : Nat) : List Token → Option (List Token)
  | [] | .endOfInput :: _ => none
  | .mark .lparen :: rest => skipParens? (depth + 1) rest
  | .mark .rparen :: rest =>
      match depth with
      | 0 => some rest
      | depth + 1 => skipParens? depth rest
  | _ :: rest => skipParens? depth rest

/-- The tokens after a parenthesised list. -/
def skipParams (ts : List Token) : Required (List Token) :=
  match ts with
  | .mark .lparen :: rest =>
      match skipParens? 0 rest with
      | some rest => .ok rest
      | none => .error .openParams
  | _ => .error (faultAt (.token (.mark .lparen)) ts)

def readParam (ts : List Token) : Reading ParamTree :=
  match readType ts with
  | (type, ts) =>
      match readName ts with
      | (name, ts) => (⟨type, name⟩, ts)

def readParamsFrom (ts : List Token) : Reading (List ParamTree) :=
  match readParam ts with
  | (param, .mark .comma :: rest) =>
      if rest.length < ts.length then
        match readParamsFrom rest with
        | (params, rest) => (param :: params, rest)
      else ([param], rest)
  | (param, rest) => ([param], rest)
termination_by ts.length

/-- Reads the parameters after the opening parenthesis, but not the closing one. -/
def readParams (ts : List Token) : Reading (List ParamTree) :=
  if ts.head? = some (.mark .rparen) then ([], ts) else readParamsFrom ts

def readReturnType : List Token → Reading (Option TypeTree)
  | .mark .arrow :: rest =>
      match readType rest with
      | (type, rest) => (some type, rest)
  | ts => (none, ts)

def readBody (ts : List Token) : Reading BodyTree :=
  match ts with
  | .mark .semi :: rest => (.prototype, rest)
  | .mark .lbrace :: rest =>
      match readBlock rest with
      | (body, rest) => (.block body, rest)
  | _ => (.broken (faultAt (.token (.mark .lbrace)) ts), [])

def readFunc (ts : List Token) : Reading FuncTree :=
  match readName ts with
  | (name, ts) =>
      match skipParams ts with
      | .error fault => (⟨name, .error fault, none, [], .ok (), .prototype⟩, [])
      | .ok afterParams =>
          match readReturnType afterParams with
          | (returnType, afterSignature) =>
              match readParams ts.tail with
              | (params, atParen) =>
                  match readBody afterSignature with
                  | (body, rest) =>
                      (⟨name, .ok (), returnType, params,
                        (readToken (.mark .rparen) atParen).1, body⟩, rest)

/-! ## Classes and enums -/

def readField (ts : List Token) : Reading FieldTree :=
  match readType ts with
  | (type, ts) =>
      match readName ts with
      | (name, ts) =>
          match readToken (.mark .semi) ts with
          | (semi, ts) => (⟨type, name, semi⟩, ts)

/-- Reads the members of a class up to the closing brace, and the brace. -/
def readMembers (ts : List Token) : Reading (List MemberTree) :=
  match ts with
  | .mark .rbrace :: rest => ([], rest)
  | .keyword .letKw :: rest =>
      match readField rest with
      | (field, after) =>
          if after.length ≤ rest.length then
            match readMembers after with
            | (members, after) => (.field field :: members, after)
          else ([.field field], after)
  | .keyword .funcKw :: rest =>
      match readFunc rest with
      | (func, after) =>
          if after.length ≤ rest.length then
            match readMembers after with
            | (members, after) => (.func func :: members, after)
          else ([.func func], after)
  | _ => ([.broken (faultAt .member ts)], [])
termination_by ts.length

/-- Reads a class after its keyword, with an optional semicolon at its end. -/
def readClass (ts : List Token) : Reading ClassTree :=
  match readName ts with
  | (name, ts) =>
      match readToken (.mark .lbrace) ts with
      | (lbrace, ts) =>
          match readMembers ts with
          | (members, ts) => (⟨name, lbrace, members⟩, dropToken (.mark .semi) ts)

/-- Reads an optional value of an enumerator with its equals sign. -/
def readValue : List Token → Reading (Option (Required Int64))
  | .operator .assign :: .int value :: rest => (some (.ok value), rest)
  | .operator .assign :: _ => (some (.error .enumeratorValue), [])
  | ts => (none, ts)

def readEnumerator (ts : List Token) : Reading EnumeratorTree :=
  match readName ts with
  | (name, ts) =>
      match readValue ts with
      | (value, ts) => (⟨name, value⟩, ts)

/-- Reads enumerators separated by commas, where one comma may stand at the end. -/
def readEnumerators (ts : List Token) : Reading (List EnumeratorTree) :=
  if ts.head? = some (.mark .rbrace) then ([], ts)
  else
    match readEnumerator ts with
    | (member, .mark .comma :: rest) =>
        if rest.length < ts.length then
          match readEnumerators rest with
          | (members, rest) => (member :: members, rest)
        else ([member], rest)
    | (member, rest) => ([member], rest)
termination_by ts.length

/-- Reads an enum after its keyword, with an optional semicolon at its end. -/
def readEnum (ts : List Token) : Reading EnumTree :=
  match readName ts with
  | (name, ts) =>
      match readToken (.mark .lbrace) ts with
      | (lbrace, ts) =>
          match readEnumerators ts with
          | (members, ts) =>
              match readToken (.mark .rbrace) ts with
              | (rbrace, ts) => (⟨name, lbrace, members, rbrace⟩, dropToken (.mark .semi) ts)

/-! ## Units -/

def readItem (ts : List Token) : Reading ItemTree :=
  match ts with
  | .keyword .classKw :: rest =>
      match readClass rest with
      | (item, rest) => (.classItem item, rest)
  | .keyword .enumKw :: rest =>
      match readEnum rest with
      | (item, rest) => (.enumItem item, rest)
  | .keyword .funcKw :: rest =>
      match readFunc rest with
      | (item, rest) => (.funcItem item, rest)
  | .keyword .letKw :: rest =>
      match readVar rest with
      | (item, rest) => (.varItem item, rest)
  | _ => (.broken (faultAt .item ts), [])

/-- Reads items up to the end of the input. -/
def readItems (ts : List Token) : List ItemTree :=
  match ts with
  | [] | .endOfInput :: _ => []
  | t :: ts =>
      match readItem (t :: ts) with
      | (item, rest) => if rest.length ≤ ts.length then item :: readItems rest else [item]
termination_by ts.length

/-! ## Progress -/

theorem skipParens?_rest {depth : Nat} {ts rest : List Token}
    (h : skipParens? depth ts = some rest) : rest.length < ts.length := by
  fun_induction skipParens? depth ts <;> simp_all <;> omega

theorem skipParams_rest {ts rest : List Token} (h : skipParams ts = .ok rest) :
    rest.length < ts.length := by
  unfold skipParams at h
  split at h
  · split at h
    · rename_i rest' _ hskip
      have := skipParens?_rest hskip
      cases h
      simp
      omega
    · contradiction
  · contradiction

theorem readParam_rest (ts : List Token) : (readParam ts).2.length ≤ ts.length - 1 := by
  grind [readParam, readType_rest, readName_rest]

theorem readReturnType_rest (ts : List Token) : (readReturnType ts).2.length ≤ ts.length := by
  unfold readReturnType
  split <;> grind [readType_rest]

theorem readBody_rest (ts : List Token) : (readBody ts).2.length ≤ ts.length - 1 := by
  unfold readBody
  split <;> grind [readBlock_rest]

theorem readFunc_rest (ts : List Token) : (readFunc ts).2.length ≤ ts.length - 1 := by
  have hname := readName_rest ts
  cases hparams : skipParams (readName ts).2 with
  | error fault => simp [readFunc, hparams]
  | ok rest =>
      have hrest := skipParams_rest hparams
      have htype := readReturnType_rest rest
      have hbody := readBody_rest (readReturnType rest).2
      simp only [readFunc, hparams]
      omega

theorem readField_rest (ts : List Token) : (readField ts).2.length ≤ ts.length - 1 := by
  grind [readField, readType_rest, readName_rest, readToken_rest]

theorem readMembers_rest (ts : List Token) : (readMembers ts).2.length ≤ ts.length - 1 := by
  fun_induction readMembers ts <;> grind [readField_rest, readFunc_rest]

theorem dropToken_rest (t : Token) (ts : List Token) : (dropToken t ts).length ≤ ts.length := by
  grind [dropToken]

theorem readClass_rest (ts : List Token) : (readClass ts).2.length ≤ ts.length - 1 := by
  grind [readClass, readName_rest, readToken_rest, readMembers_rest, dropToken_rest]

theorem readValue_rest (ts : List Token) : (readValue ts).2.length ≤ ts.length := by
  unfold readValue
  split <;> grind

theorem readEnumerator_rest (ts : List Token) :
    (readEnumerator ts).2.length ≤ ts.length - 1 := by
  grind [readEnumerator, readName_rest, readValue_rest]

theorem readEnumerators_rest (ts : List Token) : (readEnumerators ts).2.length ≤ ts.length := by
  fun_induction readEnumerators ts <;> grind [readEnumerator_rest]

theorem readEnum_rest (ts : List Token) : (readEnum ts).2.length ≤ ts.length - 1 := by
  grind [readEnum, readName_rest, readToken_rest, readEnumerators_rest, dropToken_rest]

theorem readItem_rest (ts : List Token) : (readItem ts).2.length ≤ ts.length - 1 := by
  unfold readItem
  split <;> grind [readClass_rest, readEnum_rest, readFunc_rest, readVar_rest]

end UnitAnalysis
