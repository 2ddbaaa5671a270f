import UnitAnalysis.Error

/-!
# Diagnostics

An error as it is reported for a unit: a code, a message and notes.  Errors
carry no source positions, so a diagnostic has no labels.
-/

namespace UnitAnalysis

structure Diagnostic where
  code : String
  message : String
  notes : List String
  deriving DecidableEq, Repr

/-- What is noted for an error beside the unit it arose in. -/
def Error.note? : Error → Option String
  | .noViableCall _ candidates =>
      some (toString candidates ++ " candidate(s) had a mismatched arity or argument types")
  | .outOfOrder _ => some "the driving parser called the semantic actions out of order"
  | .unsupported _ => some "user-defined conversions and constructors are not modelled"
  | _ => none

def Error.diagnostic (unit : String) (e : Error) : Diagnostic :=
  { code := e.code
    message := e.message
    notes := ("in compilation unit " ++ Error.quoted unit) :: e.note?.toList }

namespace Diagnostic

/--
The lines of a text.  A line ends at a line feed, and a carriage return just
before the line feed belongs to the ending; an empty last line does not count.
-/
def linesOf : List Char → List (List Char)
  | [] => []
  | '\n' :: rest => [] :: linesOf rest
  | '\r' :: '\n' :: rest => [] :: linesOf rest
  | c :: rest =>
      match linesOf rest with
      | [] => [[c]]
      | line :: lines => (c :: line) :: lines

/-- A note under its bullet, with later lines set below the first. -/
def renderNote (note : String) : String :=
  match linesOf note.toList with
  | [] => ""
  | line :: lines =>
      " = " ++ String.ofList line ++ "\n" ++
        String.join (lines.map fun l => "   " ++ String.ofList l ++ "\n")

def render (d : Diagnostic) : String :=
  "error[" ++ d.code ++ "]: " ++ d.message ++ "\n" ++ String.join (d.notes.map renderNote) ++ "\n"

end Diagnostic

end UnitAnalysis
