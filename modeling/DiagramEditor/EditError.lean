import DiagramEditor.Language.Basic
import DiagramEditor.Uuid

/-!
# Why an edit is refused

Each cause has a message and a kind; the kind is what a client may rely on.
-/

set_option autoImplicit false

namespace DiagramEditor

/-- Why the content of a clipboard cannot be pasted. -/
inductive ClipboardFault where
  | foreignFormat (format : String)
  | document (error : WireError)
  | duplicateElement (id : ElementId)
deriving DecidableEq

def ClipboardFault.message : ClipboardFault → String
  | .foreignFormat format => "unsupported clipboard format '" ++ format ++ "'"
  | .document error => error.message
  | .duplicateElement id => "duplicate element id '" ++ id ++ "'"

inductive EditError where
  | unknownType (tag : TypeTag)
  | notFound (id : ElementId)
  | danglingReference (edge node : ElementId)
  | duplicateId (id : ElementId)
  | template (fault : TemplateFault)
  | bindingNotFound (label : String)
  /-- The editor was set up without something it needs. -/
  | configuration (reason : String)
  | malformedClipboard (fault : ClipboardFault)
  | schemaViolation (id : ElementId) (issues : List Issue)
  | noModelLoaded
  | noLanguageLoaded

namespace EditError

def kind : EditError → String
  | unknownType _ => "UNKNOWN_TYPE"
  | notFound _ => "NOT_FOUND"
  | danglingReference _ _ => "DANGLING_REFERENCE"
  | duplicateId _ => "DUPLICATE_ID"
  | template _ => "TEMPLATE_ERROR"
  | bindingNotFound _ => "BINDING_NOT_FOUND"
  | configuration _ => "CONFIGURATION_ERROR"
  | malformedClipboard _ => "MALFORMED_CLIPBOARD"
  | schemaViolation _ _ => "SCHEMA_VIOLATION"
  | noModelLoaded => "NO_MODEL_LOADED"
  | noLanguageLoaded => "NO_LANGUAGE_LOADED"

def message : EditError → String
  | unknownType tag => "unknown type: '" ++ tag ++ "'"
  | notFound id => "element not found: '" ++ id ++ "'"
  | danglingReference edge node =>
    "dangling reference: edge '" ++ edge ++ "' points to missing node '" ++ node ++ "'"
  | duplicateId id => "duplicate element id: '" ++ id ++ "'"
  | template fault => "template error: " ++ fault.message
  | bindingNotFound label => "binding not found for label '" ++ label ++ "'"
  | configuration reason => "configuration error: " ++ reason
  | malformedClipboard fault => "malformed clipboard: " ++ fault.message
  | schemaViolation id issues =>
    "schema violation on '" ++ id ++ "': " ++ "; ".intercalate (issues.map Issue.message)
  | noModelLoaded => "no graph model loaded"
  | noLanguageLoaded => "no language loaded"

end EditError

end DiagramEditor
