import UnitAnalysis.Analysis

/-!
# The faults of a tree

All faults that reading has left in a tree, from left to right, and the errors
that they become.  A tree without faults is one that the grammar allows.
-/

namespace UnitAnalysis

/-- Neither a fault of the tree nor an action out of its place. -/
def Error.ofMeaning : Error → Bool
  | .outOfOrder _ | .malformed _ => false
  | _ => true

/-- An error of meaning, or the error that one of some faults becomes. -/
def Error.Blames (e : Error) (faults : List Fault) : Prop :=
  e.ofMeaning = true ∨ ∃ fault ∈ faults, e = fault.error

theorem Error.Blames.mono {e : Error} {faults more : List Fault} (h : e.Blames faults)
    (hsub : faults ⊆ more) : e.Blames more := by
  rcases h with hmeaning | ⟨fault, hfault, heq⟩
  · exact .inl hmeaning
  · exact .inr ⟨fault, hsub hfault, heq⟩

def Required.faults {α : Type} : Required α → List Fault
  | .ok _ => []
  | .error fault => [fault]

def TypeTree.faults (tree : TypeTree) : List Fault :=
  tree.base.faults

mutual

def ExprTree.faults : ExprTree → List Fault
  | .int _ | .float _ | .bool _ | .name _ => []
  | .call _ args => ExprTree.faultsAll args
  | .binary _ lhs rhs => lhs.faults ++ rhs.faults
  | .broken parts fault => ExprTree.faultsAll parts ++ [fault]

def ExprTree.faultsAll : List ExprTree → List Fault
  | [] => []
  | tree :: trees => tree.faults ++ ExprTree.faultsAll trees

end

def VarTree.faults (tree : VarTree) : List Fault :=
  tree.type.faults ++ tree.name.faults ++ tree.init.elim [] ExprTree.faults ++ tree.semi.faults

mutual

def StmtTree.faults : StmtTree → List Fault
  | .block body => StmtTree.faultsAll body
  | .var tree => tree.faults
  | .ret value semi => value.elim [] ExprTree.faults ++ semi.faults
  | .expr value semi => value.faults ++ semi.faults
  | .broken fault => [fault]

def StmtTree.faultsAll : List StmtTree → List Fault
  | [] => []
  | tree :: trees => tree.faults ++ StmtTree.faultsAll trees

end

def ParamTree.faults (tree : ParamTree) : List Fault :=
  tree.type.faults ++ tree.name.faults

def BodyTree.faults : BodyTree → List Fault
  | .prototype => []
  | .block body => StmtTree.faultsAll body
  | .broken fault => [fault]

def FuncTree.faults (tree : FuncTree) : List Fault :=
  tree.name.faults ++ tree.parens.faults ++ tree.returnType.elim [] TypeTree.faults ++
    tree.params.flatMap ParamTree.faults ++ tree.rparen.faults ++ tree.body.faults

def FieldTree.faults (tree : FieldTree) : List Fault :=
  tree.type.faults ++ tree.name.faults ++ tree.semi.faults

def MemberTree.faults : MemberTree → List Fault
  | .field tree => tree.faults
  | .func tree => tree.faults
  | .broken fault => [fault]

def ClassTree.faults (tree : ClassTree) : List Fault :=
  tree.name.faults ++ tree.lbrace.faults ++ tree.members.flatMap MemberTree.faults

def EnumeratorTree.faults (tree : EnumeratorTree) : List Fault :=
  tree.name.faults ++ tree.value.elim [] Required.faults

def EnumTree.faults (tree : EnumTree) : List Fault :=
  tree.name.faults ++ tree.lbrace.faults ++ tree.members.flatMap EnumeratorTree.faults ++
    tree.rbrace.faults

def ItemTree.faults : ItemTree → List Fault
  | .classItem item => item.faults
  | .enumItem item => item.faults
  | .funcItem item => item.faults
  | .varItem item => item.faults
  | .broken fault => [fault]

end UnitAnalysis
