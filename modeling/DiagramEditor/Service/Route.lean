import DiagramEditor.Text.Percent
import DiagramEditor.Uuid

/-!
# Routes

Which paths the service knows and which method each is asked with.
-/

set_option autoImplicit false

namespace DiagramEditor

/-- What can be asked for under a session. -/
inductive SessionPart where
  | whole
  | language
  | loadModel
  | saveModel
  | showcase
  | operations
  | render
  | clipboard
deriving DecidableEq, Repr

inductive Route where
  | health
  | sessions
  /-- The id as it stands in the path. -/
  | session (id : List Char) (part : SessionPart)
deriving DecidableEq

namespace SessionPart

def ofSegments? : List String → Option SessionPart
  | [] => some whole
  | ["language"] => some language
  | ["model", "load"] => some loadModel
  | ["model", "save"] => some saveModel
  | ["showcase"] => some showcase
  | ["operations"] => some operations
  | ["render"] => some render
  | ["clipboard"] => some clipboard
  | _ => none

def method : SessionPart → String
  | whole => "DELETE"
  | render => "GET"
  | _ => "POST"

end SessionPart

namespace Route

/-- What stands between the slashes of a path. -/
def segments : List Char → List (List Char)
  | [] => [[]]
  | c :: rest =>
    match segments rest with
    | [] => [[c]]
    | part :: more => if c = '/' then [] :: part :: more else (c :: part) :: more

/-- An id may be empty where something follows it. -/
def ofSegments? : List (List Char) → Option Route
  | [first] =>
    match String.ofList first with
    | "health" => some health
    | "sessions" => some sessions
    | _ => none
  | first :: id :: rest =>
    if String.ofList first = "sessions" ∧ (!id.isEmpty || !rest.isEmpty) then
      (SessionPart.ofSegments? (rest.map String.ofList)).map (session id)
    else none
  | [] => none

def isSchemeChar (c : Char) : Bool := c.isAlphanum || "+-.".toList.contains c

/-- A path may stand in a whole address, of which the host does not matter. -/
def dropHost (cs : List Char) : List Char :=
  match cs.dropWhile isSchemeChar with
  | ':' :: '/' :: '/' :: rest => rest.dropWhile fun c => !"/?#".toList.contains c
  | _ => cs

/-- The route of a path. A query after the path does not matter. -/
def ofPath? (path : String) : Option Route :=
  match segments ((dropHost path.toList).takeWhile fun c => c != '?' && c != '#') with
  | [] :: parts => ofSegments? parts
  | _ => none

def method : Route → String
  | health => "GET"
  | sessions => "POST"
  | session _ part => part.method

/-- What may be fetched may also be asked for without its body. -/
def allows (r : Route) (method : String) : Bool :=
  method == r.method || (method == "HEAD" && r.method == "GET")

/-- The id, in which characters may be given by `%` and their bytes. -/
def sessionId? (cs : List Char) : Option Uuid := (Text.percentDecode? cs).bind Uuid.parse?

end Route

end DiagramEditor
