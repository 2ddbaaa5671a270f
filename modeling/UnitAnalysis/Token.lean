import UnitAnalysis.Binary64
import UnitAnalysis.Operator
import UnitAnalysis.Ty.Basic

/-!
# Tokens

The vocabulary of a compilation unit.  A unit ends at its first `endOfInput`
token, or with its last token if it has none.
-/

namespace UnitAnalysis

inductive Keyword where
  | letKw
  | funcKw
  | classKw
  | enumKw
  | returnKw
  deriving DecidableEq, Repr

inductive Mark where
  | amp
  | arrow
  | lparen
  | rparen
  | lbrace
  | rbrace
  | semi
  | comma
  | colons
  deriving DecidableEq, Repr

inductive Token where
  | keyword (word : Keyword)
  | qualifier (word : Qualifier)
  | builtin (kind : Builtin)
  | operator (op : BinaryOp)
  | mark (sign : Mark)
  | name (text : String)
  | int (value : Int64)
  | float (value : Binary64)
  | bool (value : Bool)
  | endOfInput
  deriving DecidableEq, Repr

def Keyword.text : Keyword → String
  | .letKw => "let"
  | .funcKw => "func"
  | .classKw => "class"
  | .enumKw => "enum"
  | .returnKw => "return"

def Qualifier.text : Qualifier → String
  | .const => "const"
  | .volatile => "volatile"

def Mark.text : Mark → String
  | .amp => "&"
  | .arrow => "->"
  | .lparen => "("
  | .rparen => ")"
  | .lbrace => "\x7b"
  | .rbrace => "\x7d"
  | .semi => ";"
  | .comma => ","
  | .colons => "::"

namespace Token

/-- The token as messages show it: fixed spellings in quotes, the others after their class. -/
def text : Token → String
  | .keyword word => "'" ++ word.text ++ "'"
  | .qualifier word => "'" ++ word.text ++ "'"
  | .builtin kind => "'" ++ kind.text ++ "'"
  | .operator op => "'" ++ op.text ++ "'"
  | .mark sign => "'" ++ sign.text ++ "'"
  | .name text => "identifier '" ++ text ++ "'"
  | .int value => "integer '" ++ toString value.toInt ++ "'"
  | .float value => "float '" ++ value.text ++ "'"
  | .bool value => if value then "'true'" else "'false'"
  | .endOfInput => "end of input"

def precedence? : Token → Option Nat
  | .operator op => some op.precedence
  | _ => none

def groupsRight : Token → Bool
  | .operator op => op.groupsRight
  | _ => false

end Token

end UnitAnalysis
