import UnitAnalysis.Store

/-!
# Calls

A call takes the first function in lookup order that its arguments fit; fitting
functions are not ranked.  The declarations of one function count as a single
candidate, named by the first of them.
-/

namespace UnitAnalysis

namespace Store

/-- The functions that a path may call, each by its first declaration. -/
def candidates (s : Store) (p : Place) (path : Path) : Except Error (List DeclId) := do
  let found ← s.lookupPath p path .function
  pure (← found.mapM s.arena.firstDeclaration).eraseDups

def paramAccepts (s : Store) (param : DeclId) (arg : Expr) : Bool :=
  match s.arena.varTy param with
  | .ok ty => arg.canPass ty
  | .error _ => false

def isViable (s : Store) (args : List Expr) (function : DeclId) : Bool :=
  match s.arena.func function with
  | .ok f =>
      f.arity == args.length && (f.params.zip args).all fun (param, arg) => s.paramAccepts param arg
  | .error _ => false

def passArg (s : Store) (param : DeclId) (arg : Expr) : Except Error Expr := do
  arg.pass (← s.arena.varTy param)

/-- The call of the first candidate that the arguments fit. -/
def callExpr (s : Store) (p : Place) (path : Path) (args : List Expr) : Except Error Expr := do
  let candidates ← s.candidates p path
  if candidates.isEmpty then throw (.unknownFunction path.text)
  let some callee := candidates.find? (s.isViable args)
    | throw (.noViableCall path.text candidates.length)
  let f ← s.arena.func callee
  let passed ← (f.params.zip args).mapM fun (param, arg) => s.passArg param arg
  pure (.call ⟨f.returnTy, .rvalue⟩ callee passed)

end Store

end UnitAnalysis
