/-!
# What can be wrong with a document

A document is refused with the first problem met while reading it in order;
missing fields are noticed when a record ends.
-/

set_option autoImplicit false

namespace DiagramEditor

inductive WireError where
  /-- The text is no document, or holds a number or string without a value. -/
  | notJson
  | missingField (name : String)
  | duplicateField (name : String)
  | unknownVariant (found : String) (known : List String)
  | duplicateElement (id : String)
  | wrongType
  | wrongValue
  | wrongLength
  /-- An array goes on after the last field of its record. -/
  | surplus
deriving DecidableEq, Repr

namespace WireError

def ticked (name : String) : String := "`" ++ name ++ "`"

def expected : List String → String
  | [] => "there are no variants"
  | [a] => "expected " ++ ticked a
  | [a, b] => "expected " ++ ticked a ++ " or " ++ ticked b
  | names => "expected one of " ++ ", ".intercalate (names.map ticked)

def message : WireError → String
  | notJson => "invalid JSON"
  | missingField name => "missing field " ++ ticked name
  | duplicateField name => "duplicate field " ++ ticked name
  | unknownVariant found known => "unknown variant " ++ ticked found ++ ", " ++ expected known
  | duplicateElement id => "duplicate element id: '" ++ id ++ "'"
  | wrongType => "invalid type"
  | wrongValue => "invalid value"
  | wrongLength => "invalid length"
  | surplus => "invalid length"

/-- In a text, an array that goes on where it should close is no document. -/
def inText : WireError → WireError
  | surplus => notJson
  | e => e

/-- In a value read before, such an array just has the wrong length. -/
def inValue : WireError → WireError
  | surplus => wrongLength
  | e => e

end WireError

end DiagramEditor
