import UnitAnalysis.Scope
import UnitAnalysis.Token

/-!
# Syntax trees

The shape of a unit before any name is looked up.  Reading never gives up a
tree: a piece that the grammar requires and the tokens do not offer is kept as
a fault in its place, and nothing of the unit is read after it.  Whoever goes
through a tree from left to right therefore meets everything that stands before
the fault first, and the fault itself next.
-/

namespace UnitAnalysis

/-- What a reader was looking for. -/
inductive Expected where
  | token (t : Token)
  | name
  | type
  | expression
  | item
  | member
  deriving DecidableEq, Repr

def Expected.text : Expected → String
  | .token t => t.text
  | .name => "identifier"
  | .type => "type"
  | .expression => "expression"
  | .item => "'class', 'enum', 'func' or 'let'"
  | .member => "'let', 'func' or '\x7d'"

/-- Where the tokens leave the grammar. -/
inductive Fault where
  | unexpected (wanted : Expected) (found : Token)
  | enumeratorValue
  | openParams
  deriving DecidableEq, Repr

def Fault.text : Fault → String
  | .unexpected wanted found => "expected " ++ wanted.text ++ ", found " ++ found.text
  | .enumeratorValue => "enumerator value must be an integer literal"
  | .openParams => "unterminated parameter list"

abbrev Required (α : Type) := Except Fault α

/-! ## Types and expressions -/

inductive TypeBase where
  | builtin (kind : Builtin)
  | named (path : Path)
  deriving DecidableEq, Repr

inductive TypeSuffix where
  | qualifier (word : Qualifier)
  | pointer
  | reference
  deriving DecidableEq, Repr

structure TypeTree where
  quals : Qualifiers
  base : Required TypeBase
  suffixes : List TypeSuffix
  deriving Repr

/-- An expression; a broken one has the expressions that were complete before its fault. -/
inductive ExprTree where
  | int (value : Int64)
  | float (value : Binary64)
  | bool (value : Bool)
  | name (path : Path)
  | call (path : Path) (args : List ExprTree)
  | binary (op : BinaryOp) (lhs rhs : ExprTree)
  | broken (parts : List ExprTree) (fault : Fault)
  deriving Repr

/-! ## Variables and statements -/

structure VarTree where
  type : TypeTree
  name : Required String
  init : Option ExprTree
  semi : Required Unit
  deriving Repr

inductive StmtTree where
  | block (body : List StmtTree)
  | var (var : VarTree)
  | ret (value : Option ExprTree) (semi : Required Unit)
  | expr (value : ExprTree) (semi : Required Unit)
  | broken (fault : Fault)
  deriving Repr

/-! ## Items -/

structure ParamTree where
  type : TypeTree
  name : Required String
  deriving Repr

inductive BodyTree where
  | prototype
  | block (body : List StmtTree)
  | broken (fault : Fault)
  deriving Repr

/--
A function.  Its parentheses must close before anything else of it counts, and
its return type stands before its parameters, because the function is declared
with the one before the others are.
-/
structure FuncTree where
  name : Required String
  parens : Required Unit
  returnType : Option TypeTree
  params : List ParamTree
  rparen : Required Unit
  body : BodyTree
  deriving Repr

structure FieldTree where
  type : TypeTree
  name : Required String
  semi : Required Unit
  deriving Repr

inductive MemberTree where
  | field (field : FieldTree)
  | func (func : FuncTree)
  | broken (fault : Fault)
  deriving Repr

structure ClassTree where
  name : Required String
  lbrace : Required Unit
  members : List MemberTree
  deriving Repr

structure EnumeratorTree where
  name : Required String
  value : Option (Required Int64)
  deriving Repr

structure EnumTree where
  name : Required String
  lbrace : Required Unit
  members : List EnumeratorTree
  rbrace : Required Unit
  deriving Repr

inductive ItemTree where
  | classItem (item : ClassTree)
  | enumItem (item : EnumTree)
  | funcItem (item : FuncTree)
  | varItem (item : VarTree)
  | broken (fault : Fault)
  deriving Repr

end UnitAnalysis
