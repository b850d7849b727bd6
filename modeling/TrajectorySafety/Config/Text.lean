import TrajectorySafety.Document.Decoding
import TrajectorySafety.Document.Encoding
import TrajectorySafety.Yaml.Writer

/-!
Configurations as YAML text.
-/

namespace TrajectorySafety

namespace Config

/-- Reads a configuration; both kinds of conditions on its settings are checked. -/
def ofText (text : String) : Except Error Config :=
  match (Yaml.parse text).bind (·.read Yaml.dialect Config.ofNode) with
  | none => .error .document
  | some c => do
    c.check
    return c

/-- The text of a configuration, with all its settings. -/
def toText (c : Config) : String := Yaml.render c.datum

end Config

/-- Pairs of bounds such as `[0.8,1],[0.8,1]`. -/
def boundsOfText? (text : String) : Option (List (Float × Float)) := do
  let doc ← Yaml.parse s!"[{text}]"
  doc.read Yaml.dialect fun d => d.list (d.pair d.real)

end TrajectorySafety
