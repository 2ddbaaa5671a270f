import UnitAnalysis.Access
import UnitAnalysis.Analysis
import UnitAnalysis.Arena
import UnitAnalysis.Binary64
import UnitAnalysis.Bracket
import UnitAnalysis.Call
import UnitAnalysis.Conversion
import UnitAnalysis.Decimal
import UnitAnalysis.Decl
import UnitAnalysis.Declaring
import UnitAnalysis.Diagnostic
import UnitAnalysis.Error
import UnitAnalysis.Expr
import UnitAnalysis.Operator
import UnitAnalysis.Proofs.Action
import UnitAnalysis.Proofs.Growth
import UnitAnalysis.Proofs.Run
import UnitAnalysis.Proofs.Update
import UnitAnalysis.Scope
import UnitAnalysis.Session
import UnitAnalysis.Store
import UnitAnalysis.Token
import UnitAnalysis.Tree.Basic
import UnitAnalysis.Tree.Expr
import UnitAnalysis.Tree.Item
import UnitAnalysis.Tree.Stmt
import UnitAnalysis.Ty.Basic
import UnitAnalysis.Ty.Builtin
import UnitAnalysis.Ty.Qualifiers
import UnitAnalysis.Typing
import UnitAnalysis.Walk
import UnitAnalysis.Proofs.Acceptance
import UnitAnalysis.Proofs.Bounds
import UnitAnalysis.Proofs.Invariant
import UnitAnalysis.Proofs.Elaboration
import UnitAnalysis.Proofs.Redeclaration
import UnitAnalysis.Proofs.Ownership
import UnitAnalysis.Proofs.Resolution
import UnitAnalysis.Proofs.Scoping
import UnitAnalysis.Proofs.Settled
import UnitAnalysis.Proofs.ConstSafety
import UnitAnalysis.Proofs.Agreement
import UnitAnalysis.Proofs.Checked
import UnitAnalysis.Proofs.Fault
import UnitAnalysis.Proofs.Follow
import UnitAnalysis.Proofs.Safety
import UnitAnalysis.Proofs.Grammar
import UnitAnalysis.Proofs.Reading
import UnitAnalysis.Proofs.Recognition
import UnitAnalysis.Proofs.Renaming.Basic
import UnitAnalysis.Proofs.Alike
import UnitAnalysis.Proofs.Renaming.Queries
import UnitAnalysis.Proofs.Renaming.Analysis
import UnitAnalysis.Proofs.Continuation
import UnitAnalysis.Proofs.Representation
import UnitAnalysis.Proofs.Move
import UnitAnalysis.Proofs.Bracketing
import UnitAnalysis.Proofs.Delivery
import UnitAnalysis.Proofs.FirstFit
import UnitAnalysis.Proofs.ConversionOrder
import UnitAnalysis.Proofs.LaterDeclarations
import UnitAnalysis.Proofs.Grouping
import UnitAnalysis.Proofs.Handover
import UnitAnalysis.Proofs.Loops
import UnitAnalysis.Proofs.Progress
import UnitAnalysis.Proofs.Headers
import UnitAnalysis.Proofs.QualifiedNames
import UnitAnalysis.Proofs.Shadowing
import UnitAnalysis.Proofs.Spelling
import UnitAnalysis.Proofs.TypeText
import UnitAnalysis.Proofs.Numbering
import UnitAnalysis.Proofs.Literals
