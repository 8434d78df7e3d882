/-!
# Credentials

What a client connected with. A session carries credentials along without looking
into them; whoever is asked for a document decides what they are worth.
-/

set_option autoImplicit false

namespace DiagramEditor

structure Credentials where
  token : Option String
deriving DecidableEq

namespace Credentials

def anonymous : Credentials := ⟨none⟩

def ofToken (token : String) : Credentials := ⟨some token⟩

/-- How credentials are shown. The token never is. -/
def describe (c : Credentials) : String :=
  match c.token with
  | some _ => "ConnectionAuth(<redacted>)"
  | none => "ConnectionAuth(anonymous)"

end Credentials

end DiagramEditor
