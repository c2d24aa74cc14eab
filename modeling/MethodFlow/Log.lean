import MethodFlow.Dump
import MethodFlow.Graph.Node
import MethodFlow.LinearCode.Instruction
import MethodFlow.Text.Quoted

/-!
# The log

What is logged while graphs are built, changed and checked.  An `Event` has a `Level`, by which the
log can be cut to what is at least so severe, and a message.
-/

namespace MethodFlow

/-- How severe an event is. -/
inductive Level where
  | error
  | info
  | debug
  | trace
deriving DecidableEq, Inhabited

namespace Level

/-- The name of a level. -/
def name : Level → String
  | .error => "ERROR"
  | .info => "INFO"
  | .debug => "DEBUG"
  | .trace => "TRACE"

/-- The place of a level among the levels, the most severe one first. -/
def rank : Level → Nat
  | .error => 0
  | .info => 1
  | .debug => 2
  | .trace => 3

end Level

/-- Something which is logged. -/
inductive Event where
  /-- A label was bound to a node. -/
  | bound (label : Label) (node : Node)
  /-- The flow graph of a method was built. -/
  | built (method : String) (nodes : Nat)
  /-- Empty blocks were bypassed. -/
  | bypassed (blocks : Nat)
  /-- Definite assignment was checked. -/
  | checked (findings : Nat)
  /-- A pass which may change the graph was run. -/
  | transformed (pass : String) (changed : Bool)
  /-- A pass which reports findings was run. -/
  | reported (pass : String) (findings : Nat)
  /-- A graph was dumped to the log. -/
  | drawn (text : String)
  /-- A graph could not be dumped to a file. -/
  | unwritten (path : String) (reason : WriteFailure)
  /-- A method was analysed. -/
  | analyzed (method : String) (findings : Nat)
deriving DecidableEq, Inhabited

namespace Event

/-- How severe an event is. -/
def level : Event → Level
  | .unwritten _ _ => .error
  | .drawn _ => .info
  | .built _ _ | .bypassed _ | .checked _ | .analyzed _ _ => .debug
  | .bound _ _ | .transformed _ _ | .reported _ _ => .trace

/-- Whether an event is at least as severe as a level. -/
def isAtLeast (e : Event) (l : Level) : Bool :=
  e.level.rank ≤ l.rank

/-- The handle of a node as it is logged, counted from `1` in the order of creation. -/
def handle (n : Node) : String :=
  "Node(DefaultKey(" ++ toString (n.index + 1) ++ "v1))"

/-- The message of an event. -/
def message : Event → String
  | .bound label node => "Binding label " ++ toString label.number ++ " to " ++ handle node
  | .built method nodes =>
    "Built control flow graph for `" ++ method ++ "` with " ++ toString nodes ++ " nodes"
  | .bypassed blocks => "Eliminated " ++ toString blocks ++ " empty basic blocks"
  | .checked findings =>
    "Definite assignment found " ++ toString findings ++ " possibly uninitialized reads"
  | .transformed pass changed => "Pass `" ++ pass ++ "` modified the graph: " ++ toString changed
  | .reported pass findings =>
    "Pass `" ++ pass ++ "` reported " ++ toString findings ++ " errors"
  | .drawn text => text
  | .unwritten path reason =>
    "There was an issue while outputing control flow graph to path " ++ Quoted.quote path ++ "\n" ++
      reason.message
  | .analyzed method findings =>
    "Dataflow analysis of `" ++ method ++ "` found " ++ toString findings ++ " errors"

end Event

end MethodFlow
