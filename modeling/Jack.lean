import Jack.Main
import Jack.Reader
import Jack.Proofs.Syntax.Scope
import Jack.Proofs.Variable.Slot
import Jack.Proofs.Syntax.Code
import Jack.Proofs.Syntax.Valid
import Jack.Proofs.Pass.Walk
import Jack.Proofs.Pass.Words
import Jack.Proofs.Pass.Sound
import Jack.Proofs.Pass.Complete
import Jack.Proofs.Token.Spelling
import Jack.Proofs.Language
import Jack.Proofs.Machine.Basic
import Jack.Proofs.Machine.Meaning
import Jack.Proofs.Machine.Expression
import Jack.Proofs.Syntax.Unambiguous
import Jack.Proofs.Machine.Label
import Jack.Proofs.Machine.Statement
import Jack.Proofs.Preservation
import Jack.Proofs.Output.Block
import Jack.Proofs.Output.Depth
import Jack.Proofs.Output.Jump
import Jack.Proofs.Output.Operand
import Jack.Proofs.Output.Constant
import Jack.Proofs.Token.Layout
import Jack.Proofs.Independence
import Jack.Proofs.Pass.Alike
import Jack.Proofs.Pass.Lockstep
import Jack.Proofs.Pass.Conduct
import Jack.Proofs.Pass.Unfinished
import Jack.Proofs.Pass.Completion
import Jack.Proofs.Earliest
import Jack.Proofs.Essence
import Jack.Proofs.Syntax.Rename
import Jack.Proofs.Variable.Order
import Jack.Proofs.Renaming
import Jack.Proofs.Pass.Course
import Jack.Proofs.Pass.Legible
import Jack.Proofs.Annotation
import Jack.Proofs.Pass.Survey
import Jack.Proofs.Strictness
import Jack.Proofs.Pass.Blame
import Jack.Proofs.Pass.Replay
import Jack.Proofs.Delivery.Devices
import Jack.Proofs.Delivery.Sink
import Jack.Proofs.Pass.Supply
import Jack.Proofs.Delivery.Outlet
import Jack.Proofs.Diagnosis
import Jack.Proofs.Pass.Trace
import Jack.Proofs.Pass.Pace
import Jack.Proofs.Pass.Progress
import Jack.Proofs.Termination
import Jack.Proofs.Token.Item
import Jack.Proofs.Token.Calls
import Jack.Proofs.Delivery.Index
import Jack.Proofs.Attribution
import Jack.Proofs.Comparison
import Jack.Proofs.Delivery.Listing
import Jack.Proofs.Text.Pieces
import Jack.Proofs.Output.Reading
import Jack.Proofs.File.Path
import Jack.Proofs.File.Tree
import Jack.Proofs.File.Discovery
import Jack.Proofs.File.Directories
import Jack.Proofs.Build.Unit
import Jack.Proofs.Build.Remains
import Jack.Proofs.Build.Place
import Jack.Proofs.Build.Program
