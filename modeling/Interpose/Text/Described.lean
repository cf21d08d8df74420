import Interpose.Text.Printable
import Interpose.ClassFile.Error
/-!
# Descriptions

Texts by which a reader tells values apart: quoted strings, and records with named fields.
-/

namespace Interpose

/-- A character in a quoted text. -/
def quotedChar (c : Char) : String :=
  if c = '\x00' then "\\0"
  else if c = '\t' then "\\t"
  else if c = '\r' then "\\r"
  else if c = '\n' then "\\n"
  else if c = '\\' then "\\\\"
  else if c = '"' then "\\\""
  else if isPrintable c then c.toString
  else "\\u\x7b" ++ hexDigits c.toNat ++ "\x7d"

/-- A text between quotes; what cannot be seen is escaped. -/
def quoted (text : String) : String :=
  "\"" ++ String.join (text.toList.map quotedChar) ++ "\""

/-- A value that may be missing. -/
def describedOption : Option String → String
  | some text => "Some(" ++ text ++ ")"
  | none => "None"

/-- A truth value. -/
def describedBool (b : Bool) : String :=
  if b then "true" else "false"

/-- A record with its fields; `partly` tells that it has more than those. -/
def describedRecord (name : String) (fields : List (String × String)) (partly : Bool) : String :=
  let items := fields.map fun (field, value) => field ++ ": " ++ value
  let items := if partly then items ++ [".."] else items
  name ++ " \x7b " ++ ", ".intercalate items ++ " \x7d"

end Interpose
