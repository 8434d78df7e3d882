import DiagramEditor.Language.Document
import DiagramEditor.Template.Basic

/-!
# Languages

A language is compiled once from its document: every template is read, and one
that cannot be read refuses the whole language. Node types and edge types are
separate, so a tag may name one of each.
-/

set_option autoImplicit false
set_option linter.unusedVariables false

namespace DiagramEditor

open Json

inductive ElementKind where
  | node
  | edge
deriving DecidableEq, Repr

/-- The name of the kind, also the kind of a plain visual element for it. -/
def ElementKind.name : ElementKind → String
  | .node => "node"
  | .edge => "edge"

/-- A compiled node or edge type. -/
structure ElementType where
  tag : TypeTag
  kind : ElementKind
  label : String
  template : RootTemplate
  schema : Option Schema
  defaultModel : Option Value
  constraints : List Value
  preview : Option String

structure Language where
  document : LanguageDocument
  nodes : List ElementType
  edges : List ElementType

/-- The text in default data that stands for the number of the new element. -/
def counterMark : List Char := "$\x7bautoincrement\x7d".toList

/-- What follows the mark at the start of a text. -/
def afterMark? (cs : List Char) : Option (List Char) :=
  if counterMark.isPrefixOf cs then some (cs.drop counterMark.length) else none

theorem length_of_afterMark? {cs after : List Char} (h : afterMark? cs = some after) :
    after.length < cs.length := by
  unfold afterMark? at h
  split at h
  · rename_i found
    obtain rfl := Option.some.inj h
    cases cs with
    | nil => exact absurd found (by decide)
    | cons c rest =>
      have positive : 0 < counterMark.length := by decide
      rw [List.length_drop, List.length_cons]
      omega
  · cases h

/-- Writes the counter in place of every mark, from left to right. -/
def expandChars (counter : List Char) (cs : List Char) : List Char :=
  match cs with
  | [] => []
  | c :: rest =>
    match h : afterMark? (c :: rest) with
    | some after => counter ++ expandChars counter after
    | none => c :: expandChars counter rest
termination_by cs.length
decreasing_by
  · exact length_of_afterMark? h
  · simp

def expandText (counter : List Char) (text : String) : String :=
  String.ofList (expandChars counter text.toList)

mutual

/-- Expands every text in a value; keys stay as they are. -/
def expandValue (counter : List Char) : Value → Value
  | .string text => .string (expandText counter text)
  | .array items => .array (expandItems counter items)
  | .object members => .object (expandMembers counter members)
  | v => v

def expandItems (counter : List Char) : List Value → List Value
  | [] => []
  | v :: rest => expandValue counter v :: expandItems counter rest

def expandMembers (counter : List Char) : List (String × Value) → List (String × Value)
  | [] => []
  | (k, v) :: rest => (k, expandValue counter v) :: expandMembers counter rest

end

namespace ElementType

/-- The data a new element starts with, when it is number `n` of its type. -/
def instantiate (t : ElementType) (n : Nat) : Value :=
  match t.defaultModel with
  | some v => expandValue (toString n).toList v
  | none => .emptyObject

def compileTemplate (tag : TypeTag) (kind : ElementKind) (d : TypeDocument) : Except TemplateFault RootTemplate :=
  match d.visualTemplate with
  | none => .ok (.labelled kind.name d.label)
  | some v =>
    match Template.compileRoot v with
    | .error e => .error (.inType tag e)
    | .ok t => .ok t

def compile (kind : ElementKind) (tag : TypeTag) (d : TypeDocument) : Except TemplateFault ElementType :=
  match compileTemplate tag kind d with
  | .error e => .error e
  | .ok template =>
    .ok ⟨tag, kind, d.label, template, d.schema, d.defaultModel, d.constraints, d.preview⟩

def compileAll (kind : ElementKind) :
    List (TypeTag × TypeDocument) → Except TemplateFault (List ElementType)
  | [] => .ok []
  | (tag, d) :: rest =>
    match compile kind tag d with
    | .error e => .error e
    | .ok t =>
      match compileAll kind rest with
      | .error e => .error e
      | .ok ts => .ok (t :: ts)

end ElementType

namespace Language

def compile (d : LanguageDocument) : Except TemplateFault Language :=
  match ElementType.compileAll .node d.nodes with
  | .error e => .error e
  | .ok nodes =>
    match ElementType.compileAll .edge d.edges with
    | .error e => .error e
    | .ok edges => .ok ⟨d, nodes, edges⟩

/-- Reads and compiles a document given as a value. -/
def ofValue (v : Value) : Except TemplateFault Language :=
  match LanguageDocument.decode.ofValue v with
  | .error e => .error (.document e)
  | .ok d => compile d

def id (l : Language) : String := l.document.id

def version (l : Language) : Nat := l.document.version

def types (l : Language) : ElementKind → List ElementType
  | .node => l.nodes
  | .edge => l.edges

def find? (l : Language) (kind : ElementKind) (tag : TypeTag) : Option ElementType :=
  (l.types kind).find? (·.tag == tag)

/-- A type of that tag, node types before edge types. -/
def findAny? (l : Language) (tag : TypeTag) : Option ElementType :=
  match l.find? .node tag with
  | some t => some t
  | none => l.find? .edge tag

/-- One language in one version. -/
def key (l : Language) : String := l.document.key

end Language

end DiagramEditor
