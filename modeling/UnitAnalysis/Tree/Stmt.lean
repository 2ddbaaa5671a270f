import UnitAnalysis.Tree.Expr

/-!
# Reading variables and statements

Main statement: a reader that is given any token leaves fewer tokens
(`readVar_rest`, `readStmt_rest`, `readBlock_rest`).
-/

namespace UnitAnalysis

def readInit : List Token → Reading (Option ExprTree)
  | .operator .assign :: rest =>
      match readExpr rest with
      | (init, rest) => (some init, rest)
  | ts => (none, ts)

def readVar (ts : List Token) : Reading VarTree :=
  match readType ts with
  | (type, ts) =>
      match readName ts with
      | (name, ts) =>
          match readInit ts with
          | (init, ts) =>
              match readToken (.mark .semi) ts with
              | (semi, ts) => (⟨type, name, init, semi⟩, ts)

/-- Reads what a return statement returns, up to its semicolon. -/
def readReturnValue (ts : List Token) : Reading (Option ExprTree) :=
  if ts.head? = some (.mark .semi) then (none, ts)
  else
    match readExpr ts with
    | (value, ts) => (some value, ts)

mutual

def readStmt (ts : List Token) : Reading StmtTree :=
  match ts with
  | .mark .lbrace :: rest =>
      match readBlock rest with
      | (body, rest) => (.block body, rest)
  | .keyword .letKw :: rest =>
      match readVar rest with
      | (var, rest) => (.var var, rest)
  | .keyword .returnKw :: rest =>
      match readReturnValue rest with
      | (value, rest) =>
          match readToken (.mark .semi) rest with
          | (semi, rest) => (.ret value semi, rest)
  | _ =>
      match readExpr ts with
      | (value, rest) =>
          match readToken (.mark .semi) rest with
          | (semi, rest) => (.expr value semi, rest)
termination_by 2 * ts.length

/-- Reads statements up to the closing brace, and the brace. -/
def readBlock (ts : List Token) : Reading (List StmtTree) :=
  match ts with
  | [] | .endOfInput :: _ => ([.broken (faultAt (.token (.mark .rbrace)) [])], [])
  | .mark .rbrace :: rest => ([], rest)
  | t :: ts =>
      match readStmt (t :: ts) with
      | (stmt, rest) =>
          if rest.length ≤ ts.length then
            match readBlock rest with
            | (stmts, rest) => (stmt :: stmts, rest)
          else ([stmt], rest)
termination_by 2 * ts.length + 1

end

/-! ## Progress -/

theorem readInit_rest (ts : List Token) : (readInit ts).2.length ≤ ts.length := by
  unfold readInit
  split
  · rename_i rest
    have := readExpr_rest rest
    simp
    omega
  · simp

theorem readVar_rest (ts : List Token) : (readVar ts).2.length ≤ ts.length - 1 := by
  grind [readVar, readType_rest, readName_rest, readInit_rest, readToken_rest]

theorem readReturnValue_rest (ts : List Token) :
    (readReturnValue ts).2.length ≤ ts.length := by
  grind [readReturnValue, readExpr_rest]

theorem readStmt_rest_all :
    (∀ ts, (readStmt ts).2.length ≤ ts.length - 1) ∧
    (∀ ts, (readBlock ts).2.length ≤ ts.length - 1) := by
  apply readStmt.mutual_induct
    (fun ts => (readStmt ts).2.length ≤ ts.length - 1)
    (fun ts => (readBlock ts).2.length ≤ ts.length - 1)
  all_goals intros
  all_goals first
    | rw [readStmt]
    | rw [readBlock]
  all_goals grind [readVar_rest, readReturnValue_rest, readExpr_rest, readToken_rest]

theorem readStmt_rest (ts : List Token) : (readStmt ts).2.length ≤ ts.length - 1 :=
  readStmt_rest_all.1 ts

theorem readBlock_rest (ts : List Token) : (readBlock ts).2.length ≤ ts.length - 1 :=
  readStmt_rest_all.2 ts

end UnitAnalysis
