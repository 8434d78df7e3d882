import DiagramEditor.Path.Basic

/-!
# Texts with placeholders

A template text may hold placeholders, each a path between a dollar sign with an
opening brace and a closing brace. A text that is one placeholder stands for the
value itself; any other mixture stands for a text.
-/

set_option autoImplicit false

namespace DiagramEditor

open Json

inductive TextPart where
  | literal (text : String)
  | binding (path : Path)
deriving DecidableEq, Repr

inductive BoundText where
  | single (path : Path)
  /-- The path of the first placeholder is `primary`. -/
  | interpolated (parts : List TextPart) (primary : Path)
deriving DecidableEq, Repr

/-- Why a text or a path in it cannot be read. -/
inductive PlaceholderFault where
  | unclosed (source : String)
  | path (source : String) (why : PathFault)
deriving DecidableEq, Repr

def PlaceholderFault.message : PlaceholderFault → String
  | .unclosed source => "unclosed placeholder in '" ++ source ++ "'"
  | .path source why => "invalid binding path '" ++ source ++ "': " ++ why.message

/-- Reads a path that stands in a template. -/
def Path.read (source : String) : Except PlaceholderFault Path :=
  match Path.parse source with
  | .ok p => .ok p
  | .error why => .error (.path source why)

namespace BoundText

def withLiteral (text : List Char) (parts : List TextPart) : List TextPart :=
  if text.isEmpty then parts else .literal (String.ofList text.reverse) :: parts

mutual

/-- The parts of a text. `text` is the literal read so far, last character first. -/
def outside (source : String) (text : List Char) : List Char → Except PlaceholderFault (List TextPart)
  | [] => .ok (withLiteral text [])
  | '$' :: '\x7b' :: rest =>
    match inside source [] rest with
    | .error e => .error e
    | .ok parts => .ok (withLiteral text parts)
  | c :: rest => outside source (c :: text) rest

/-- The parts from an open placeholder on. -/
def inside (source : String) (text : List Char) : List Char → Except PlaceholderFault (List TextPart)
  | [] => .error (.unclosed source)
  | c :: rest =>
    if c = '\x7d' then
      match Path.read (String.ofList text.reverse) with
      | .error e => .error e
      | .ok p =>
        match outside source [] rest with
        | .error e => .error e
        | .ok parts => .ok (.binding p :: parts)
    else inside source (c :: text) rest

end

def firstBinding? : List TextPart → Option Path
  | [] => none
  | .binding p :: _ => some p
  | .literal _ :: rest => firstBinding? rest

def ofParts? (parts : List TextPart) : Option BoundText :=
  match parts with
  | [.binding p] => some (.single p)
  | _ => (firstBinding? parts).map (.interpolated parts)

/-- Reads a text; `none` for one without placeholders. -/
def parse (source : String) : Except PlaceholderFault (Option BoundText) :=
  match outside source [] source.toList with
  | .error e => .error e
  | .ok parts => .ok (ofParts? parts)

/-- The path that is recorded for the text. -/
def primary : BoundText → Path
  | single p => p
  | interpolated _ p => p

end BoundText

end DiagramEditor
