import Remap.Json.Printer
import Remap.Json.Reader

/-!
Metadata: what is known about a message besides its content, as strings under string keys.  Its JSON
form is an object of strings.
-/

namespace Remap

abbrev Metadata := Dictionary String

namespace Metadata

/-- The object that holds the entries. -/
def toValue (metadata : Metadata) : Value :=
  .object (metadata.map Value.string).entries

def jsonText (metadata : Metadata) : String :=
  metadata.toValue.jsonText

/-- The entries that a JSON text writes as an object of strings. -/
def ofJson? (text : List Char) : Option Metadata :=
  (Json.whole? Json.readTexts text).map Dictionary.ofList

end Metadata

end Remap
