/-!
# Dumps

The drawing of a graph can be dumped at two stages of an analysis, to the log or to a file.  A
`DumpPlan` says which dumps are asked for, a `Dump` is a text handed to a file, and a `WriteFailure`
says why the text could not be written.
-/

namespace MethodFlow

/-- A point of an analysis at which its graph can be dumped. -/
inductive Stage where
  /-- The graph as built. -/
  | built
  /-- The graph once every pass was run. -/
  | normalized
deriving DecidableEq, Inhabited

/-- Where a dump goes. -/
inductive Destination where
  | log
  | file (path : String)
deriving DecidableEq, Inhabited

/-- A path stands for the file, the empty path for the log. -/
def Destination.ofPath (path : String) : Destination :=
  if path.isEmpty then .log else .file path

/-- The dumps asked for. -/
structure DumpPlan where
  built : Option Destination := none
  normalized : Option Destination := none
deriving Inhabited

/-- Where the dump of a stage goes, if it is asked for. -/
def DumpPlan.destination? (plan : DumpPlan) : Stage → Option Destination
  | .built => plan.built
  | .normalized => plan.normalized

/-- A text to be written to a file. -/
structure Dump where
  stage : Stage
  path : String
  text : String
deriving DecidableEq, Inhabited

/-- Why a text could not be written to a file. -/
inductive WriteFailure where
  /-- A directory on the way to the file does not exist. -/
  | notFound
  /-- Something on the way to the file is no directory. -/
  | notDirectory
  /-- The path is that of a directory. -/
  | isDirectory
  /-- The path holds a null character. -/
  | nullInPath
  /-- The path or a part of it is too long. -/
  | nameTooLong
  /-- Any other reason, as it is worded. -/
  | other (message : String)
deriving DecidableEq, Inhabited

/-- The text of a failure to write. -/
def WriteFailure.message : WriteFailure → String
  | .notFound => "No such file or directory (os error 2)"
  | .notDirectory => "Not a directory (os error 20)"
  | .isDirectory => "Is a directory (os error 21)"
  | .nullInPath => "file name contained an unexpected NUL byte"
  | .nameTooLong => "File name too long (os error 36)"
  | .other message => message

end MethodFlow
