import DiagramEditor.Wire.Decoder

/-!
# Reading stored documents

A document is stored as it is written, and still it may not be read again: a number
that left the range of doubles is written as `null`, one near the end of that range may
be read as a larger one, and a document may have grown too deep. The fault tells where
in the text the first such problem stands.
-/

set_option autoImplicit false

namespace DiagramEditor

open Json

inductive ReadingProblem where
  | noNumber
  | outOfRange
  | tooDeep
deriving DecidableEq, Repr

def ReadingProblem.message : ReadingProblem → String
  | noNumber => "invalid type: null, expected f64"
  | outOfRange => "number out of range"
  | tooDeep => "recursion limit exceeded"

/-- A place in a text, counted from one. Columns count bytes. -/
structure Place where
  line : Nat
  column : Nat
deriving DecidableEq, Repr

namespace Place

def start : Place := ⟨1, 0⟩

def advance (p : Place) (c : Char) : Place :=
  if c = '\n' then ⟨p.line + 1, 0⟩ else ⟨p.line, p.column + c.utf8Size⟩

/-- The place of the last of some characters. -/
def ofChars (cs : List Char) : Place := cs.foldl advance start

@[simp] theorem ofChars_append (cs ds : List Char) : ofChars (cs ++ ds) = ds.foldl advance (ofChars cs) :=
  List.foldl_append

def toText (p : Place) : String := "at line " ++ toString p.line ++ " column " ++ toString p.column

end Place

/-- Why a stored document cannot be read. -/
inductive ReadingFault where
  | atPlace (problem : ReadingProblem) (place : Place)
  | other (error : WireError)
deriving DecidableEq, Repr

namespace ReadingFault

def message : ReadingFault → String
  | atPlace problem place => problem.message ++ " " ++ place.toText
  | other error => error.message

/-- The first number without a value or container too deep, `depth` containers being
open, with the text after it. -/
def firstUnreadable : Nat → List (Token × List Char) → Option (ReadingProblem × List Char)
  | _, [] => none
  | depth, (token, rest) :: more =>
    match token with
    | .number none => some (.outOfRange, rest)
    | .openArray | .openObject =>
      if Tree.maxDepth ≤ depth then some (.tooDeep, rest) else firstUnreadable (depth + 1) more
    | .closeArray | .closeObject => firstUnreadable (depth - 1) more
    | _ => firstUnreadable depth more

/-- The first `null` that is refused, with the text after it. What comes before it alone
is refused for breaking off. -/
def firstNull {α : Type} (d : Decoder α) (tokens : List (Token × List Char)) :
    Option (ReadingProblem × List Char) :=
  (List.range tokens.length).findSome? fun k =>
    match tokens[k]? with
    | some (Token.null, rest) =>
      match d (Tree.ofTokens ((tokens.take (k + 1)).map (·.1))).tree with
      | .error .wrongType => some (.noNumber, rest)
      | _ => none
    | _ => none

/-- The fault of a text that is refused with an error. -/
def locate {α : Type} (d : Decoder α) (text : String) (error : WireError) : ReadingFault :=
  let cs := text.toList
  let tokens := Token.lexWithRests cs
  let found := match error with
    | .wrongType => firstNull d tokens
    | .notJson => firstUnreadable 0 tokens
    | _ => none
  match found with
  | some (problem, rest) => .atPlace problem (.ofChars (cs.take (cs.length - rest.length)))
  | none => .other error

end ReadingFault

end DiagramEditor
