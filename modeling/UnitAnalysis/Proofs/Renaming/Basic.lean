import UnitAnalysis.Analysis

/-!
# Renaming

A function on names changes the names in tokens, in trees, in types and in
stores, and leaves everything else: ids, kinds, lists of members, the shape of
expressions and the scopes.  Errors hold texts into which names have gone
already, so that two errors are compared by what is left without their texts.
-/

namespace UnitAnalysis

variable (ρ : String → String)

/-! ## Tokens and trees -/

def Token.rename : Token → Token
  | .name text => .name (ρ text)
  | t => t

@[simp] theorem Token.rename_mark (sign : Mark) : (Token.mark sign).rename ρ = .mark sign :=
  rfl

@[simp] theorem Token.rename_operator (op : BinaryOp) :
    (Token.operator op).rename ρ = .operator op :=
  rfl

def Path.rename (path : Path) : Path :=
  ⟨ρ path.first, path.rest.map ρ⟩

def Fault.rename : Fault → Fault
  | .unexpected wanted found => .unexpected wanted (found.rename ρ)
  | fault => fault

/-- A piece whose contents are renamed by `f`. -/
def Required.rename {α β : Type} (f : α → β) : Required α → Required β
  | .ok a => .ok (f a)
  | .error fault => .error (fault.rename ρ)

def TypeBase.rename : TypeBase → TypeBase
  | .builtin kind => .builtin kind
  | .named path => .named (path.rename ρ)

def TypeTree.rename (tree : TypeTree) : TypeTree :=
  { tree with base := tree.base.rename ρ (TypeBase.rename ρ) }

mutual

def ExprTree.rename : ExprTree → ExprTree
  | .int value => .int value
  | .float value => .float value
  | .bool value => .bool value
  | .name path => .name (path.rename ρ)
  | .call path args => .call (path.rename ρ) (ExprTree.renameAll args)
  | .binary op lhs rhs => .binary op lhs.rename rhs.rename
  | .broken parts fault => .broken (ExprTree.renameAll parts) (fault.rename ρ)

def ExprTree.renameAll : List ExprTree → List ExprTree
  | [] => []
  | tree :: trees => tree.rename :: ExprTree.renameAll trees

end

def VarTree.rename (tree : VarTree) : VarTree :=
  { type := tree.type.rename ρ
    name := tree.name.rename ρ ρ
    init := tree.init.map (ExprTree.rename ρ)
    semi := tree.semi.rename ρ id }

mutual

def StmtTree.rename : StmtTree → StmtTree
  | .block body => .block (StmtTree.renameAll body)
  | .var tree => .var (tree.rename ρ)
  | .ret value semi => .ret (value.map (ExprTree.rename ρ)) (semi.rename ρ id)
  | .expr value semi => .expr (value.rename ρ) (semi.rename ρ id)
  | .broken fault => .broken (fault.rename ρ)

def StmtTree.renameAll : List StmtTree → List StmtTree
  | [] => []
  | tree :: trees => tree.rename :: StmtTree.renameAll trees

end

def ParamTree.rename (tree : ParamTree) : ParamTree :=
  ⟨tree.type.rename ρ, tree.name.rename ρ ρ⟩

def BodyTree.rename : BodyTree → BodyTree
  | .prototype => .prototype
  | .block body => .block (StmtTree.renameAll ρ body)
  | .broken fault => .broken (fault.rename ρ)

def FuncTree.rename (tree : FuncTree) : FuncTree :=
  { name := tree.name.rename ρ ρ
    parens := tree.parens.rename ρ id
    returnType := tree.returnType.map (TypeTree.rename ρ)
    params := tree.params.map (ParamTree.rename ρ)
    rparen := tree.rparen.rename ρ id
    body := tree.body.rename ρ }

def FieldTree.rename (tree : FieldTree) : FieldTree :=
  ⟨tree.type.rename ρ, tree.name.rename ρ ρ, tree.semi.rename ρ id⟩

def MemberTree.rename : MemberTree → MemberTree
  | .field tree => .field (tree.rename ρ)
  | .func tree => .func (tree.rename ρ)
  | .broken fault => .broken (fault.rename ρ)

def ClassTree.rename (tree : ClassTree) : ClassTree :=
  ⟨tree.name.rename ρ ρ, tree.lbrace.rename ρ id, tree.members.map (MemberTree.rename ρ)⟩

def EnumeratorTree.rename (tree : EnumeratorTree) : EnumeratorTree :=
  ⟨tree.name.rename ρ ρ, tree.value.map (Required.rename ρ id)⟩

def EnumTree.rename (tree : EnumTree) : EnumTree :=
  { name := tree.name.rename ρ ρ
    lbrace := tree.lbrace.rename ρ id
    members := tree.members.map (EnumeratorTree.rename ρ)
    rbrace := tree.rbrace.rename ρ id }

def ItemTree.rename : ItemTree → ItemTree
  | .classItem item => .classItem (item.rename ρ)
  | .enumItem item => .enumItem (item.rename ρ)
  | .funcItem item => .funcItem (item.rename ρ)
  | .varItem item => .varItem (item.rename ρ)
  | .broken fault => .broken (fault.rename ρ)

/-! ## Types, expressions and declarations -/

/-- Of a type only the names of its tags change, which are there for messages. -/
def Ty.rename : Ty → Ty
  | .builtin q kind => .builtin q kind
  | .pointer q pointee => .pointer q pointee.rename
  | .reference q referent => .reference q referent.rename
  | .tag q kind decl name => .tag q kind decl (ρ name)

def Typing.rename (t : Typing) : Typing :=
  { t with ty := t.ty.rename ρ }

mutual

def Expr.rename : Expr → Expr
  | .int t value => .int (t.rename ρ) value
  | .float t value => .float (t.rename ρ) value
  | .bool t value => .bool (t.rename ρ) value
  | .ref t decl => .ref (t.rename ρ) decl
  | .binary t op lhs rhs => .binary (t.rename ρ) op lhs.rename rhs.rename
  | .cast t kind operand => .cast (t.rename ρ) kind operand.rename
  | .load t operand => .load (t.rename ρ) operand.rename
  | .call t callee args => .call (t.rename ρ) callee (Expr.renameAll args)

def Expr.renameAll : List Expr → List Expr
  | [] => []
  | e :: es => e.rename :: Expr.renameAll es

end

mutual

def Stmt.rename : Stmt → Stmt
  | .compound body => .compound (Stmt.renameAll body)
  | .decl id => .decl id
  | .expr value => .expr (value.rename ρ)
  | .ret value => .ret (value.map (Expr.rename ρ))

def Stmt.renameAll : List Stmt → List Stmt
  | [] => []
  | stmt :: stmts => stmt.rename :: Stmt.renameAll stmts

end

def Func.rename (f : Func) : Func :=
  { f with returnTy := f.returnTy.rename ρ, body := f.body.map (Stmt.renameAll ρ) }

def DeclKind.rename : DeclKind → DeclKind
  | .unit members => .unit members
  | .var ty init => .var (ty.rename ρ) (init.map (Expr.rename ρ))
  | .field ty => .field (ty.rename ρ)
  | .func f => .func (f.rename ρ)
  | .tag kind members => .tag kind members
  | .enumerator value => .enumerator value

def Decl.rename (d : Decl) : Decl :=
  ⟨d.name.map ρ, d.parent, d.kind.rename ρ⟩

def Arena.rename (a : Arena) : Arena :=
  ⟨a.decls.map (Decl.rename ρ), a.names.map ρ⟩

def Store.rename (s : Store) : Store :=
  { s with arena := s.arena.rename ρ }

/-! ## Errors -/

/-- An error without its texts: its variant, and the counts, operators and reasons in it. -/
def Error.outline : Error → Error
  | .redefinition _ => .redefinition ""
  | .conflictingDeclaration _ _ _ => .conflictingDeclaration "" "" ""
  | .undeclared _ => .undeclared ""
  | .unknownFunction _ => .unknownFunction ""
  | .noViableCall _ candidates => .noViableCall "" candidates
  | .ambiguous _ => .ambiguous ""
  | .notAContext _ => .notAContext ""
  | .notAValue _ => .notAValue ""
  | .invalidCast _ _ reason => .invalidCast "" "" reason
  | .cannotInit _ _ => .cannotInit "" ""
  | .rvalueToNonConst _ => .rvalueToNonConst ""
  | .referenceMismatch _ _ => .referenceMismatch "" ""
  | .notAnLvalue => .notAnLvalue
  | .assignToConst _ => .assignToConst ""
  | .nonBoolOperand op _ => .nonBoolOperand op ""
  | .noCommonType op _ _ => .noCommonType op "" ""
  | .voidObject _ => .voidObject ""
  | .missingReturnValue _ => .missingReturnValue ""
  | .unexpectedReturnValue _ => .unexpectedReturnValue ""
  | .unsupported _ => .unsupported ""
  | .outOfOrder _ => .outOfOrder ""
  | .malformed _ => .malformed ""

end UnitAnalysis
