import MethodFlow.Text.Visibility

/-!
# Quoted text

`Quoted.quote` writes a text between quotes on one line: a backslash stands in front of quotes and
backslashes, line ends, tabs and the null character are written as letters behind a backslash, every
other character which is not visible by its number in hexadecimal digits, and everything else as it
is.
-/

namespace MethodFlow

namespace Quoted

/-- A character as it is written between quotes. -/
def encodeChar (c : Char) : List Char :=
  match c with
  | '"' => ['\\', '"']
  | '\\' => ['\\', '\\']
  | '\n' => ['\\', 'n']
  | '\r' => ['\\', 'r']
  | '\t' => ['\\', 't']
  | '\x00' => ['\\', '0']
  | c =>
    if isVisible c then
      [c]
    else
      ['\\', 'u', '\x7b'] ++ Nat.toDigits 16 c.toNat ++ ['\x7d']

/-- A text between quotes. -/
def quote (text : String) : String :=
  "\"" ++ String.ofList (text.toList.flatMap encodeChar) ++ "\""

end Quoted

end MethodFlow
