import MethodFlow.Analysis
import MethodFlow.Walk.Tour
import MethodFlow.Proofs.Graph.Run
import MethodFlow.Proofs.Graph.Shortcut
import MethodFlow.Proofs.Assignment.Exploration
import MethodFlow.Proofs.Bypass.Meaning
import MethodFlow.Proofs.Assignment.Shortcut
import MethodFlow.Proofs.Assignment.Status
import MethodFlow.Proofs.Assignment.Tracking
import MethodFlow.Proofs.Assignment.Exactness
import MethodFlow.Proofs.LinearCode.Lowered
import MethodFlow.Proofs.Execution.Linear
import MethodFlow.Proofs.Assembly.Evolution
import MethodFlow.Proofs.Assembly.Growth
import MethodFlow.Proofs.Assembly.Emission
import MethodFlow.Proofs.Assembly.Meaning
import MethodFlow.Proofs.Execution.Preservation
import MethodFlow.Proofs.Graph.Dominance
import MethodFlow.Proofs.Bypass.Clearing
import MethodFlow.Proofs.LinearCode.Leads
import MethodFlow.Proofs.Assembly.Exits
import MethodFlow.Proofs.Assembly.Tracing
import MethodFlow.Proofs.Execution.Assembled
import MethodFlow.Proofs.LinearCode.Forward
import MethodFlow.Proofs.LinearCode.Loops
import MethodFlow.Proofs.Assembly.Ascent
import MethodFlow.Proofs.Bypass.Methods
import MethodFlow.Proofs.Drawing.Lines
import MethodFlow.Proofs.Drawing.Text
import MethodFlow.Proofs.Drawing.Matching
import MethodFlow.Proofs.Assembly.Accounting
import MethodFlow.Proofs.Assembly.Completion
import MethodFlow.Proofs.Drawing.Survey
import MethodFlow.Proofs.Assignment.Survey
import MethodFlow.Proofs.Bypass.Survey
import MethodFlow.Proofs.Graph.Agreement
import MethodFlow.Proofs.Pass.Sequence
import MethodFlow.Proofs.Execution.Analysis
import MethodFlow.Proofs.Assignment.Listing
import MethodFlow.Proofs.Walk.Tour
import MethodFlow.Proofs.Walk.Paths
import MethodFlow.Proofs.Walk.Marks
import MethodFlow.Proofs.Walk.Once
import MethodFlow.Proofs.Bypass.Stack
import MethodFlow.Proofs.Bypass.Nesting
import MethodFlow.Proofs.Bypass.Tally
import MethodFlow.Proofs.Assembly.Origin
import MethodFlow.Proofs.LinearCode.Parts
import MethodFlow.Proofs.Graph.Loops
import MethodFlow.Proofs.Assembly.Loops
import MethodFlow.Proofs.Execution.Stopping
import MethodFlow.Proofs.Drawing.Statements
import MethodFlow.Proofs.Graph.Preorder
import MethodFlow.Proofs.Drawing.Sheet
import MethodFlow.Proofs.Drawing.Arrows
import MethodFlow.Proofs.LinearCode.Reading
import MethodFlow.Proofs.Assembly.Layout
import MethodFlow.Proofs.Assembly.Returns
import MethodFlow.Proofs.Assembly.SourceOrder
import MethodFlow.Proofs.Assignment.Comparison
import MethodFlow.Proofs.Assignment.Independence
import MethodFlow.Proofs.Assignment.Monotonicity
import MethodFlow.Proofs.Assignment.Redeclaration
import MethodFlow.Proofs.LinearCode.Addresses
import MethodFlow.Proofs.Assembly.Aliasing
import MethodFlow.Proofs.Assembly.Sugar
import MethodFlow.Proofs.Drawing.Labels
import MethodFlow.Proofs.LinearCode.Constructs
import MethodFlow.Proofs.Assembly.Bindings
import MethodFlow.Proofs.Expr.Rendering
