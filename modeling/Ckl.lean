import Ckl.Text.Blank
import Ckl.Text.WordChar
import Ckl.Text.Grapheme
import Ckl.Text.CaseFold
import Ckl.Number.Decimal
import Ckl.Calendar.Format
import Ckl.Pattern.Reading
import Ckl.Source.Token.Scan
import Ckl.Source.Node.Printed
import Ckl.Source.Node.FreeNames
import Ckl.Source.Script
import Ckl.Bindings
import Ckl.Text.Hash
import Ckl.Collection.Table
import Ckl.Builtin
import Ckl.Failure
import Ckl.Scope
import Ckl.Value.Canonical
import Ckl.Value.Reach
import Ckl.Value.Access
import Ckl.Value.Arithmetic
import Ckl.Text.Lines
import Ckl.Eval.Iteration
import Ckl.Eval.Binding
import Ckl.Builtin.Run
import Ckl.Eval
import Ckl.Session
import Ckl.Command
import Ckl.Main
import Ckl.Proofs.Value.Reference
import Ckl.Proofs.Session.Incomplete
import Ckl.Proofs.Source.RoundTrip
import Ckl.Proofs.Session.Printed
import Ckl.Proofs.Source.Division
import Ckl.Proofs.Source.Precedence
import Ckl.Proofs.Source.Extension
import Ckl.Proofs.Source.Extension.Bracketed
import Ckl.Proofs.Source.Extension.Operator
import Ckl.Proofs.Source.Extension.Statement
import Ckl.Proofs.Source.Lines
import Ckl.Proofs.Source.Completion
import Ckl.Proofs.Source.Sequence
import Ckl.Proofs.Scope.Names
import Ckl.Proofs.Run.Exits
import Ckl.Proofs.Module.Protocol
import Ckl.Proofs.Module.Origin
import Ckl.Proofs.Module.Isolation
import Ckl.Proofs.Scope.Alarm
import Ckl.Proofs.Session.SelfKeyed
import Ckl.Proofs.Call.Binding
import Ckl.Proofs.Run.Temporary
import Ckl.Proofs.Run.Fault
import Ckl.Proofs.Value.Integer
import Ckl.Proofs.Value.Content
import Ckl.Proofs.Scope.Ahead
import Ckl.Proofs.Call.Spread
import Ckl.Proofs.Source.Termination
import Ckl.Proofs.Value.Reachable
import Ckl.Proofs.Value.SetAlgebra
import Ckl.Proofs.Run.Assignment
import Ckl.Proofs.Number.Progression
import Ckl.Proofs.Collection.Sorted
import Ckl.Proofs.Calendar.Accepted
import Ckl.Proofs.Run.Operands
import Ckl.Proofs.Source.Longest
import Ckl.Proofs.Value.Quotation
import Ckl.Proofs.Collection.Shape
import Ckl.Proofs.Module.Spelling
import Ckl.Proofs.Scope.Report
