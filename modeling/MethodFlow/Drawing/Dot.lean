import MethodFlow.Drawing.Basic

/-!
# The DOT language

A drawing as the text of a directed graph in the DOT language.  A label stands between quotes;
`Label.encode` writes a text so that it can stand there: quotes and backslashes are written with a
backslash in front, and everything else as it is.  The label of a block ends each of its actions
with the escape for a new line.
-/

namespace MethodFlow

namespace Drawing

namespace Label

/-- The escape which ends a line of a label. -/
def newline : List Char :=
  ['\\', 'n']

/-- A character as it is written in a label. -/
def encodeChar (c : Char) : List Char :=
  if c = '\\' ∨ c = '"' then ['\\', c] else [c]

/-- A text as it is written in a label. -/
def encode (text : String) : List Char :=
  text.toList.flatMap encodeChar

/-- The label which holds texts, each one ended by a new line. -/
def ofLines (texts : List String) : List Char :=
  texts.flatMap fun text => encode text ++ newline

end Label

/-- The mark by which the arrows out of a jump are told apart. -/
def mark : Exit → String
  | .next => ""
  | .ifTrue => " [label=\"+\"]"
  | .ifFalse => " [label=\"-\"]"

/-- The attributes by which a figure is drawn. -/
def attributes : Figure → String
  | .start => "label=Start, color=green"
  | .stop => "label=End, color=red"
  | .block actions => "shape=box, label=\"" ++ String.ofList (Label.ofLines actions) ++ "\""
  | .jump condition => "label=\"" ++ String.ofList (Label.encode condition) ++ "\", shape=diamond"

/-- The text of a line of a drawing. -/
def Line.render : Line → String
  | .node number figure => toString number ++ " [" ++ attributes figure ++ "];"
  | .arrow source exit target =>
    toString source ++ " -> " ++ toString target ++ mark exit ++ ";"

/-- The text of a drawing. -/
def render (lines : List Line) : String :=
  "digraph DfaGraph \x7b\n" ++
    String.join (lines.map fun line => "    " ++ line.render ++ "\n") ++ "\x7d\n"

end Drawing

/-- The text of the drawing of what is reachable from the start. -/
def FlowGraph.dot (g : FlowGraph) : Except Failure String :=
  g.drawing.map Drawing.render

end MethodFlow
