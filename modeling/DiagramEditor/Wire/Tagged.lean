import DiagramEditor.Wire.Record

/-!
# Tagged unions

One member of the object, or the first item of the array, names the variant;
the others are its fields. The whole object is read before the fields are, so a
text that breaks off inside it is refused as such, whatever the fields hold.
-/

set_option autoImplicit false

namespace DiagramEditor

open Json

namespace Tagged

variable {β : Type}

def named (variants : Table String β) (name : String) : Except WireError β :=
  match Table.get? name variants with
  | some b => .ok b
  | none => .error (.unknownVariant name (variants.map (·.1)))

/-- A variant by its name. -/
def byName (variants : Table String β) : Decoder β
  | .string s => named variants s
  | t => .error (Decoder.mismatch t)

/-- A variant by its name, or by its place among the variants. Unions inside a
union are read so. -/
def byNameOrPlace (variants : Table String β) : Decoder β
  | .string s => named variants s
  | .number (.int n _) =>
    if n < 0 then .error .wrongType
    else
      match variants[n.toNat]? with
      | some (_, b) => .ok b
      | none => .error .wrongValue
  | t => .error (Decoder.mismatch t)

/-- A variant without fields inside a union: its name, or an object with its name
and nothing in it. -/
def plain (variants : Table String β) : Decoder β
  | .string s => named variants s
  | .object [(some key, content)] => do
    let b ← named variants key
    match content with
    | .null => return b
    | .object [] => return b
    | t => .error (Decoder.mismatch t)
  | .object _ => .error .wrongValue
  | t => .error (Decoder.mismatch t)

/-- Takes the tag out of the members. -/
def splitMembers (tag : String) (pick : Decoder β) :
    List (Option String × Tree) → Option β → Except WireError (Option β × List (Option String × Tree))
  | [], found => .ok (found, [])
  | (none, _) :: _, _ => .error .notJson
  | (some key, t) :: rest, found =>
    if key = tag then
      match found with
      | some _ => .error (.duplicateField tag)
      | none => do
        let b ← pick t
        splitMembers tag pick rest (some b)
    else if t.toValue?.isNone then .error .notJson
    else do
      let (b, members) ← splitMembers tag pick rest found
      return (b, (some key, t) :: members)

/-- The variant and a tree with its fields. -/
def split (tag : String) (pick : Decoder β) : Decoder (β × Tree)
  | .object members => do
    let (found, rest) ← splitMembers tag pick members none
    match found with
    | some b => return (b, .object rest)
    | none => .error (.missingField tag)
  | .array [] => .error (.missingField tag)
  | .array (t :: rest) => do
    let b ← pick t
    if (Tree.toValues? rest).isNone then .error .notJson
    else return (b, .array rest)
  | t => .error (Decoder.containerMismatch t)

/-- Reads the fields of a variant from a tree read before. -/
def fields {α : Type} (d : Decoder α) (t : Tree) : Except WireError α :=
  match d t with
  | .error e => .error e.inValue
  | .ok a => .ok a

end Tagged

end DiagramEditor
