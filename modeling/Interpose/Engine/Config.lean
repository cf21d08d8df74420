import Interpose.Text.Path
/-!
# Configuration

A configuration is written as `key=value` pairs with semicolons between them. A pair without `=`,
without key or without value is skipped, an unknown key is ignored, and of several pairs with one key
the last one counts. Blanks around keys and values do not belong to them.
-/

namespace Interpose

/-- The configuration of an engine. The directory is any path, also one that no text names. -/
structure EngineConfig where
  space : String := "default"
  /-- Whether classes of the root scope may be woven. -/
  enableUnsafe : Bool := false
  /-- The directory that gets a copy of every woven class. -/
  dumpPath : Option Path := none
deriving DecidableEq

namespace EngineConfig

/-- The pieces of a text between separators. -/
def pieces (separator : Char) : List Char → List (List Char)
  | [] => [[]]
  | c :: rest =>
    if c = separator then [] :: pieces separator rest
    else match pieces separator rest with
      | first :: others => (c :: first) :: others
      | [] => [[c]]

/-- A text without the blanks at its ends. -/
def trimmed (text : List Char) : List Char :=
  ((text.dropWhile isBlank).reverse.dropWhile isBlank).reverse

/-- What stands before and behind the first `=`. -/
def keyAndValue (pair : List Char) : Option (List Char × List Char) :=
  match pair.dropWhile (· ≠ '=') with
  | [] => none
  | _ :: value => some (trimmed (pair.takeWhile (· ≠ '=')), trimmed value)

/-- The configuration with a pair applied to it. -/
def apply (c : EngineConfig) (pair : List Char) : EngineConfig :=
  match keyAndValue pair with
  | none => c
  | some (key, value) =>
    let text := String.ofList value
    if value.isEmpty then c
    else if key = "namespace".toList then { c with space := text }
    else if key = "unsafe.enable".toList then
      { c with enableUnsafe := value.map Char.toLower = "true".toList }
    else if key = "dump.path".toList then { c with dumpPath := some (.ofText text) }
    else c

/-- The configuration that a text denotes. -/
def parse (text : String) : EngineConfig :=
  (pieces ';' text.toList).foldl apply {}

/-- The text of a configuration, with the directory as it is shown. -/
def text (c : EngineConfig) : String :=
  "namespace=" ++ c.space ++ ";unsafe.enable=" ++ describedBool c.enableUnsafe ++
    (match c.dumpPath with
      | some path => ";dump.path=" ++ path.display
      | none => "")

/-- The description of a configuration. -/
def describe (c : EngineConfig) : String :=
  describedRecord "EngineConfig"
    [("namespace", quoted c.space), ("enable_unsafe", describedBool c.enableUnsafe),
      ("dump_path", describedOption (c.dumpPath.map Path.describe))] false

end EngineConfig

end Interpose
