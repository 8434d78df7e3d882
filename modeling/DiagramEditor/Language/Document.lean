import DiagramEditor.Schema.Wire

/-!
# Language documents

A language as its author writes it: node types and edge types, each with a visual
template, an attribute schema and default data. Types keep the order of the
document. Three fields are also known by older names.
-/

set_option autoImplicit false

namespace DiagramEditor

open Json

abbrev TypeTag := String

/-- One node or edge type. -/
structure TypeDocument where
  label : String
  visualTemplate : Option Value
  schema : Option Schema
  defaultModel : Option Value
  constraints : List Value
  preview : Option String

structure LanguageDocument where
  id : String
  name : String
  version : Nat
  nodes : List (TypeTag × TypeDocument)
  edges : List (TypeTag × TypeDocument)

namespace TypeDocument

def empty : TypeDocument := ⟨"", none, none, none, [], none⟩

def fields : List (Field TypeDocument) :=
  [.defaulted "label" Decoder.string fun v d => { d with label := v },
   (Field.defaulted "visualTemplate" (Decoder.option Decoder.value)
     fun v d => { d with visualTemplate := v }).orNamed "gModel",
   (Field.defaulted "attributeSchema" (Decoder.option Schema.decode)
     fun v d => { d with schema := v }).orNamed "aModel",
   (Field.defaulted "defaultModel" (Decoder.option Decoder.value)
     fun v d => { d with defaultModel := v }).orNamed "default",
   .defaulted "constraints" (Decoder.list Decoder.value) fun v d => { d with constraints := v },
   .defaulted "preview" (Decoder.option Decoder.string) fun v d => { d with preview := v }]

def decode : Decoder TypeDocument := Record.decode fields empty

def toValue (d : TypeDocument) : Value :=
  .object (("label", .string d.label) ::
    (Members.whenSome "visualTemplate" id d.visualTemplate ++
     Members.whenSome "attributeSchema" Schema.toValue d.schema ++
     Members.whenSome "defaultModel" id d.defaultModel ++
     (if d.constraints.isEmpty then [] else [("constraints", .array d.constraints)]) ++
     Members.whenSome "preview" .string d.preview))

end TypeDocument

namespace LanguageDocument

def fields : List (Field LanguageDocument) :=
  [.required "id" Decoder.string fun v d => { d with id := v },
   .defaulted "name" Decoder.string fun v d => { d with name := v },
   .defaulted "version" Decoder.word32 fun v d => { d with version := v },
   .defaulted "nodes" (Decoder.table TypeDocument.decode) fun v d => { d with nodes := v },
   .defaulted "edges" (Decoder.table TypeDocument.decode) fun v d => { d with edges := v }]

/-- A language is in its first version where the document does not tell. -/
def decode : Decoder LanguageDocument := Record.decode fields ⟨"", "", 1, [], []⟩

def typesValue (types : List (TypeTag × TypeDocument)) : Value :=
  .object (types.map fun (tag, d) => (tag, d.toValue))

def toValue (d : LanguageDocument) : Value :=
  .object
    [("id", .string d.id), ("name", .string d.name), ("version", Value.ofNat d.version),
     ("nodes", typesValue d.nodes), ("edges", typesValue d.edges)]

/-- One language in one version. -/
def key (d : LanguageDocument) : String := d.id ++ "@" ++ toString d.version

end LanguageDocument

end DiagramEditor
