import DiagramEditor.Service.Basic
import DiagramEditor.Service.MediaType
import DiagramEditor.Service.Route

/-!
# Requests and responses

A request becomes a call in this order: its path names a route, its method fits the
route, the session id is one, and the body holds what the route needs. The first of
these that fails is answered with a status alone, and the service is not asked.
-/

set_option autoImplicit false

namespace DiagramEditor

open Json

structure Request where
  method : String
  path : String
  headers : List (String × String)
  body : String

structure Response where
  status : Nat
  body : Option Value

/-- Why a request does not become a call. -/
inductive Refusal where
  | unknownRoute
  | wrongMethod
  | notASessionId
  | noJsonBody
  | bodyNotJson
  | bodyMisfit
deriving DecidableEq, Repr

def Refusal.status : Refusal → Nat
  | unknownRoute => 404
  | wrongMethod => 405
  | notASessionId => 400
  | noJsonBody => 415
  | bodyNotJson => 400
  | bodyMisfit => 422

namespace LanguageChoice

def fields : List (Field LanguageChoice) :=
  [.defaulted "languageId" (Decoder.option Decoder.string) fun v c => { c with languageId := v },
   .defaulted "language" (Decoder.option LanguageDocument.decode) fun v c => { c with document := v }]

def decode : Decoder LanguageChoice := Record.decode fields ⟨none, none⟩

end LanguageChoice

namespace Request

/-- The first header of that name, whatever its case. -/
def header? (q : Request) (name : String) : Option String :=
  (q.headers.find? fun (k, _) => k.toLower == name).map (·.2)

/-- A header value is text if all its characters can be seen. -/
def isVisible (text : String) : Bool :=
  text.toList.all fun c => c == '\t' || (32 ≤ c.toNat && c.toNat < 127)

def visibleHeader? (q : Request) (name : String) : Option String := (q.header? name).filter isVisible

/-- The credentials a request carries. -/
def credentials? (q : Request) : Option Credentials := (q.visibleHeader? "authorization").map .ofToken

def declaresJson (q : Request) : Bool :=
  match (q.visibleHeader? "content-type").bind MediaType.parse? with
  | some t => t.isJson
  | none => false

/-- Reads the body as a document. -/
def readBody {α : Type} (d : Decoder α) (q : Request) : Except Refusal α :=
  match d.ofText q.body with
  | .ok a => .ok a
  | .error .notJson => .error .bodyNotJson
  | .error _ => .error .bodyMisfit

def json {α : Type} (d : Decoder α) (q : Request) : Except Refusal α :=
  if q.declaresJson then q.readBody d else .error .noJsonBody

/-- A body that may be left out: it counts only if its type is declared. -/
def optionalJson {α : Type} (d : Decoder α) (q : Request) : Except Refusal (Option α) :=
  if (q.header? "content-type").isNone then .ok none else (q.json d).map some

/-- A body with one field. -/
def single {α : Type} (name : String) (d : Decoder α) (start : α) : Decoder α :=
  Record.decode [.required name d fun v _ => v] start

/-- A body with one field that may be left out. -/
def singleOption {α : Type} (name : String) (d : Decoder α) : Decoder (Option α) :=
  Record.decode [.defaulted name (Decoder.option d) fun v _ => v] none

def sessionCall (q : Request) (id : Uuid) (part : SessionPart) : Except Refusal Call :=
  match part with
  | .whole => .ok (.closeSession id)
  | .language => (q.json LanguageChoice.decode).map fun choice => .inSession id (.loadLanguage choice)
  | .loadModel => .ok (.inSession id .loadModel)
  | .saveModel =>
    (q.optionalJson (singleOption "preview" Decoder.string)).map fun preview =>
      .inSession id (.saveModel (preview.getD none))
  | .showcase =>
    (q.json (single "elementTypeId" Decoder.string "")).map fun tag => .inSession id (.showType tag)
  | .operations => (q.json Operation.decode).map fun op => .inSession id (.apply op)
  | .render => .ok (.inSession id .render)
  | .clipboard =>
    (q.json (single "selectedElementIds" (Decoder.list Decoder.string) [])).map fun selection =>
      .inSession id (.copy selection)

def callOn (q : Request) (route : Route) : Except Refusal Call :=
  match route with
  | .health => .ok .health
  | .sessions => (q.json (single "sourceId" Decoder.string "")).map .openSession
  | .session id part =>
    match Route.sessionId? id with
    | none => .error .notASessionId
    | some id => q.sessionCall id part

/-- The call a request stands for. -/
def call (q : Request) : Except Refusal Call :=
  match Route.ofPath? q.path with
  | none => .error .unknownRoute
  | some route => if route.allows q.method then q.callOn route else .error .wrongMethod

end Request

namespace Response

def bare (status : Nat) : Response := ⟨status, none⟩

def ofAnswer : Except ServiceError Answer → Response
  | .ok a => ⟨200, some a.toValue⟩
  | .error e => ⟨e.status, some e.toValue⟩

/-- The response to somebody who asked for no body. -/
def withoutBody (r : Response) : Response := .bare r.status

end Response

namespace Service

/-- Answers a request. One that only asks what is allowed is granted at once. -/
def handle (q : Request) (v : Service) : Response × Service :=
  if q.method = "OPTIONS" then (.bare 200, v)
  else
    match q.call with
    | .error refusal => (.bare refusal.status, v)
    | .ok call =>
      let (answer, v) := v.answer call q.credentials?
      let response := Response.ofAnswer answer
      (if q.method = "HEAD" then response.withoutBody else response, v)

end Service

end DiagramEditor
