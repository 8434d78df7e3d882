import DiagramEditor.Store.Basic

/-!
# Databases in files

A store of texts is written to a file as one document, rows in their order.
-/

set_option autoImplicit false

namespace DiagramEditor

open Json

namespace LanguageRow

def fields : List (Field (String × LanguageRow)) :=
  [.required "id" Decoder.string fun v (_, r) => (v, r),
   .required "name" Decoder.string fun v (id, r) => (id, { r with name := v }),
   .required "version" Decoder.word32 fun v (id, r) => (id, { r with version := v }),
   .required "document" Decoder.string fun v (id, r) => (id, { r with document := v })]

def decode : Decoder (String × LanguageRow) := Record.decode fields ("", ⟨"", 0, ""⟩)

def toValue : String × LanguageRow → Value
  | (id, r) =>
    .object
      [("id", .string id), ("name", .string r.name), ("version", Value.ofNat r.version),
       ("document", .string r.document)]

end LanguageRow

namespace ModelRow

def fields : List (Field (String × ModelRow)) :=
  [.required "sourceId" Decoder.string fun v (_, r) => (v, r),
   .required "document" Decoder.string fun v (id, r) => (id, { r with document := v }),
   .defaulted "preview" (Decoder.option Decoder.string) fun v (id, r) => (id, { r with preview := v })]

def decode : Decoder (String × ModelRow) := Record.decode fields ("", ⟨"", none⟩)

def toValue : String × ModelRow → Value
  | (sourceId, r) =>
    .object
      (("sourceId", .string sourceId) :: ("document", .string r.document) ::
        Members.whenSome "preview" .string r.preview)

end ModelRow

namespace TextStore

def fields : List (Field TextStore) :=
  [.required "languages" (Decoder.list LanguageRow.decode) fun v s => { s with languages := v },
   .required "models" (Decoder.list ModelRow.decode) fun v s => { s with models := v }]

def decode : Decoder TextStore := Record.decode fields empty

def toValue (s : TextStore) : Value :=
  .object
    [("languages", .array (s.languages.map LanguageRow.toValue)),
     ("models", .array (s.models.map ModelRow.toValue))]

end TextStore

/-- How a database comes through a write that breaks off. -/
inductive Journaling where
  /-- What was there before is kept beside it. -/
  | rollback
  /-- What is new is kept beside it first. -/
  | writeAhead
deriving DecidableEq, Repr

namespace Journaling

def name : Journaling → String
  | rollback => "rollback"
  | writeAhead => "write-ahead"

def ofName : String → Journaling
  | "rollback" => rollback
  | _ => writeAhead

@[simp] theorem ofName_name (j : Journaling) : ofName j.name = j := by cases j <;> rfl

end Journaling

/-- The content of a database file. -/
structure Database where
  journaling : Journaling
  /-- There are none before the tables are made. -/
  texts : Option TextStore

namespace Database

/-- What a database without tables shows to one who reads it as a text. -/
def header : String := "SQLite format 3\x00"

/-- The mark that tells a database from other documents. -/
def fileFormat : String := "diagram-store"

def fields : List (Field (String × Database)) :=
  [.required "format" Decoder.string fun v (_, d) => (v, d),
   .required "journaling" Decoder.string fun v (f, d) => (f, { d with journaling := .ofName v }),
   .optional "texts" TextStore.decode fun v (f, d) => (f, { d with texts := some v })]

def toText (d : Database) : String :=
  Value.compact <| .object
    ([("format", .string fileFormat), ("journaling", .string d.journaling.name)] ++
      Members.whenSome "texts" TextStore.toValue d.texts)

def ofText? (text : String) : Option Database :=
  match (Record.decode fields ("", ⟨.rollback, none⟩)).ofText text with
  | .ok (format, d) => if format = fileFormat then some d else none
  | .error _ => none

end Database

end DiagramEditor
