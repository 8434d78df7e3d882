import DiagramEditor.Schema.Basic
import DiagramEditor.Wire.Tagged

/-!
# Schemas as documents

The member `type` names the kind of schema. Absent parts are not written.
-/

set_option autoImplicit false

namespace DiagramEditor

open Json

namespace Json.Tree

mutual

/-- How many containers stand inside one another. -/
def depth : Tree → Nat
  | .array items => depthItems items + 1
  | .object members => depthMembers members + 1
  | _ => 0

def depthItems : List Tree → Nat
  | [] => 0
  | t :: rest => max t.depth (depthItems rest)

def depthMembers : List (Option String × Tree) → Nat
  | [] => 0
  | (_, t) :: rest => max t.depth (depthMembers rest)

end

end Json.Tree

/-- Members that are there only when they have a value. -/
def Json.Members.whenSome {α : Type} (key : String) (toValue : α → Value) : Option α → Members
  | none => []
  | some a => [(key, toValue a)]

namespace Choice

def fields : List (Field Choice) :=
  [.required "const" Decoder.string fun v c => { c with value := v },
   .defaulted "title" (Decoder.option Decoder.string) fun t c => { c with title := t }]

def decode : Decoder Choice := Record.decode fields ⟨"", none⟩

def toValue (c : Choice) : Value :=
  .object [("const", .string c.value), ("title", Value.ofOption (c.title.map .string))]

end Choice

namespace Schema

inductive Kind where
  | text
  | enumeration
  | number
  | integer
  | boolean
  | array
  | object
deriving DecidableEq, Repr

def kinds : List (String × Kind) :=
  [("string", .text), ("enum", .enumeration), ("number", .number), ("integer", .integer),
   ("boolean", .boolean), ("array", .array), ("object", .object)]

/-- The parts read so far. -/
structure Draft where
  caption : Caption
  choices : Option (List String)
  oneOf : Option (List Choice)
  items : Option Schema
  properties : List (String × Schema)

def Draft.empty : Draft := ⟨⟨none, none⟩, none, none, none, []⟩

def captionFields : List (Field Draft) :=
  [.defaulted "label" (Decoder.option Decoder.string) fun l d => { d with caption.label := l },
   .defaulted "default" (Decoder.option Decoder.value) fun v d => { d with caption.initial := v }]

/-- The fields of each kind; `schema` reads a schema inside this one. -/
def fieldsOf (schema : Decoder Schema) : Kind → List (Field Draft)
  | .text => captionFields ++
    [.defaulted "enum" (Decoder.option (Decoder.list Decoder.string)) fun cs d => { d with choices := cs },
     .defaulted "oneOf" (Decoder.option (Decoder.list Choice.decode)) fun cs d => { d with oneOf := cs }]
  | .enumeration => captionFields ++
    [.required "enum" (Decoder.list Decoder.string) fun cs d => { d with choices := some cs }]
  | .array => captionFields ++ [.required "items" schema fun s d => { d with items := some s }]
  | .object => captionFields ++
    [.defaulted "properties" (Decoder.table schema) fun ps d => { d with properties := ps }]
  | _ => captionFields

def ofDraft (kind : Kind) (d : Draft) : Except WireError Schema :=
  match kind with
  | .text => .ok (.text d.caption d.choices d.oneOf)
  | .enumeration => .ok (.enumeration d.caption (d.choices.getD []))
  | .number => .ok (.number d.caption)
  | .integer => .ok (.integer d.caption)
  | .boolean => .ok (.boolean d.caption)
  | .array =>
    match d.items with
    | some s => .ok (.array d.caption s)
    | none => .error (.missingField "items")
  | .object => .ok (.object d.caption d.properties)

/-- Reads a schema; the fuel is more than the depth of the tree. -/
def decodeFuel : Nat → Decoder Kind → Decoder Schema
  | 0, _, _ => .error .notJson
  | fuel + 1, pick, t =>
    match Tagged.split "type" pick t with
    | .error e => .error e
    | .ok (kind, content) =>
      let schema := decodeFuel fuel (Tagged.byNameOrPlace kinds)
      match Tagged.fields (Record.decode (fieldsOf schema kind) .empty) content with
      | .error e => .error e
      | .ok d => ofDraft kind d

def decode : Decoder Schema := fun t => decodeFuel (t.depth + 1) (Tagged.byName kinds) t

def Caption.members (c : Caption) : Members :=
  Members.whenSome "label" .string c.label ++ Members.whenSome "default" id c.initial

mutual

def toValue : Schema → Value
  | .text c choices oneOf =>
    .object (("type", .string "string") :: (Caption.members c ++
      Members.whenSome "enum" Value.ofStrings choices ++
      Members.whenSome "oneOf" (fun cs => .array (cs.map Choice.toValue)) oneOf))
  | .enumeration c choices =>
    .object (("type", .string "enum") :: (Caption.members c ++ [("enum", Value.ofStrings choices)]))
  | .number c => .object (("type", .string "number") :: Caption.members c)
  | .integer c => .object (("type", .string "integer") :: Caption.members c)
  | .boolean c => .object (("type", .string "boolean") :: Caption.members c)
  | .array c items => .object (("type", .string "array") :: (Caption.members c ++ [("items", items.toValue)]))
  | .object c properties =>
    .object (("type", .string "object") :: (Caption.members c ++ [("properties", .object (toMembers properties))]))

def toMembers : List (String × Schema) → Members
  | [] => []
  | (name, s) :: rest => (name, s.toValue) :: toMembers rest

end

end Schema

end DiagramEditor
