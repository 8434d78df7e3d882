import DiagramEditor.Condition
import DiagramEditor.Template.Fault

/-!
# Templates

A template describes what an element looks like: an element with properties and
children, a part repeated for every item of an array, or a part that depends on
a condition. Every path and condition is read when the template is compiled.
-/

set_option autoImplicit false
set_option linter.unusedVariables false

namespace DiagramEditor

open Json

inductive Property where
  | literal (value : Value)
  | bound (text : BoundText)

/-- What an element template says of the element itself. -/
structure Shape where
  kind : String
  properties : List (String × Property)
  args : Members

inductive Template where
  | element (shape : Shape) (children : List Template)
  | iteration (iterable : Path) (iterand : String) (body : Template)
  | decision (condition : Condition) (yes : Template) (no : Option Template)

/-- The template of a whole element is never an iteration or a decision. -/
structure RootTemplate where
  shape : Shape
  children : List Template

namespace Json.Members

theorem sizeOf_get?_lt {key : String} {v : Value} {members : Members}
    (h : members.get? key = some v) : sizeOf v < sizeOf members := by
  induction members with
  | nil => simp [get?] at h
  | cons m rest ih =>
    obtain ⟨k, w⟩ := m
    simp only [get?] at h
    split at h
    · cases h
      simp
      omega
    · have := ih h
      simp
      omega

end Json.Members

namespace Template

/-- Members that are structure and no properties. -/
def reserved : List String := ["type", "children", "args", "id"]

def compileProperty : Value → Except TemplateFault Property
  | .string source =>
    match BoundText.parse source with
    | .error e => .error (.placeholder e)
    | .ok (some text) => .ok (.bound text)
    | .ok none => .ok (.literal (.string source))
  | v => .ok (.literal v)

def compileProperties : Members → Except TemplateFault (List (String × Property))
  | [] => .ok []
  | (name, v) :: rest =>
    if reserved.contains name then compileProperties rest
    else
      match compileProperty v with
      | .error e => .error e
      | .ok p =>
        match compileProperties rest with
        | .error e => .error e
        | .ok ps => .ok ((name, p) :: ps)

def compileArgs (members : Members) : Except TemplateFault Members :=
  match members.get? "args" with
  | none => .ok []
  | some .null => .ok []
  | some (.object args) => .ok args
  | some found => .error (.argsNotObject found)

def compileShape (kind : String) (members : Members) : Except TemplateFault Shape :=
  match compileProperties members with
  | .error e => .error e
  | .ok properties =>
    match compileArgs members with
    | .error e => .error e
    | .ok args => .ok ⟨kind, properties, args⟩

/-- The array to repeat over: one placeholder, or a path on its own. -/
def compileIterable (members : Members) : Except TemplateFault Path :=
  match members.get? "iterable" with
  | some (.string source) =>
    match BoundText.parse source with
    | .error e => .error (.placeholder e)
    | .ok (some (.single p)) => .ok p
    | .ok (some (.interpolated _ _)) => .error (.notSingleBinding source)
    | .ok none =>
      match Path.read source with
      | .error e => .error (.placeholder e)
      | .ok p => .ok p
  | _ => .error (.iterationWithout "iterable")

/-- An iterand is one plain name of a path. -/
def isIterand (name : String) : Bool :=
  !name.isEmpty && name.toList.all fun c => !(['.', '[', ']', '$', '\x7b', '\x7d'].contains c)

def compileIterand (members : Members) : Except TemplateFault String :=
  match members.get? "iterand" with
  | some (.string name) => if isIterand name then .ok name else .error (.badIterand name)
  | _ => .error (.iterationWithout "iterand")

def compileIteration (members : Members) : Except TemplateFault (Path × String) :=
  match compileIterable members with
  | .error e => .error e
  | .ok iterable =>
    match compileIterand members with
    | .error e => .error e
    | .ok iterand => .ok (iterable, iterand)

def decideOn (condition : Value) (yes : Except TemplateFault Template) (no : Option Template) :
    Except TemplateFault Template :=
  match yes with
  | .error e => .error e
  | .ok yes => .ok (.decision (Condition.compile condition) yes no)

mutual

def compile (v : Value) : Except TemplateFault Template :=
  match v with
  | .object members =>
    match Members.get? "type" members with
    | some (.string kind) =>
      if kind = "iteration" then
        match compileIteration members with
        | .error e => .error e
        | .ok (iterable, iterand) =>
          match h : Members.get? "template" members with
          | none => .error (.iterationWithout "template")
          | some body =>
            match compile body with
            | .error e => .error e
            | .ok body => .ok (.iteration iterable iterand body)
      else if kind = "decision" then
        match Members.get? "condition" members with
        | none => .error (.decisionWithout "condition")
        | some condition =>
          match hy : Members.get? "then" members with
          | none => .error (.decisionWithout "then")
          | some yes =>
            match hn : Members.get? "else" members with
            | none => decideOn condition (compile yes) none
            | some .null => decideOn condition (compile yes) none
            | some no =>
              match compile no with
              | .error e => .error e
              | .ok no => decideOn condition (compile yes) (some no)
      else
        match compileShape kind members with
        | .error e => .error e
        | .ok shape =>
          match h : Members.get? "children" members with
          | none => .ok (.element shape [])
          | some .null => .ok (.element shape [])
          | some (.array items) =>
            match compileAll items with
            | .error e => .error e
            | .ok children => .ok (.element shape children)
          | some found => .error (.childrenNotArray found)
    | _ => .error .noType
  | v => .error (.notObject v)
termination_by sizeOf v
decreasing_by
  all_goals
    first
    | have := Members.sizeOf_get?_lt h
      simp at this ⊢
      omega
    | have := Members.sizeOf_get?_lt hy
      simp at this ⊢
      omega
    | have := Members.sizeOf_get?_lt hn
      simp at this ⊢
      omega

def compileAll (vs : List Value) : Except TemplateFault (List Template) :=
  match vs with
  | [] => .ok []
  | v :: rest =>
    match compile v with
    | .error e => .error e
    | .ok t =>
      match compileAll rest with
      | .error e => .error e
      | .ok ts => .ok (t :: ts)
termination_by sizeOf vs

end

/-- The template of an element, which is neither an iteration nor a decision. -/
def compileRoot (v : Value) : Except TemplateFault RootTemplate :=
  match compile v with
  | .error e => .error e
  | .ok (.element shape children) => .ok ⟨shape, children⟩
  | .ok (.iteration _ _ _) => .error .iterationRoot
  | .ok (.decision _ _ _) => .error .decisionRoot

end Template

namespace RootTemplate

def bare (kind : String) : RootTemplate := ⟨⟨kind, [], []⟩, []⟩

/-- The element with one label that shows a fixed text. -/
def labelled (kind : String) (text : String) : RootTemplate :=
  ⟨⟨kind, [], []⟩, [.element ⟨"label", [("text", .literal (.string text))], []⟩ []]⟩

def literalText? : List (String × Property) → Option String
  | [] => none
  | (name, .literal (.string text)) :: rest => if name = "text" then some text else literalText? rest
  | _ :: rest => literalText? rest

/-- The fixed text of the element itself, if it has one. -/
def text? (t : RootTemplate) : Option String := literalText? t.shape.properties

end RootTemplate

end DiagramEditor
