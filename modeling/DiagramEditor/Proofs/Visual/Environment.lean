import DiagramEditor.Visual.Render
import Mathlib.Data.List.Forall2

/-!
# Drawing in an environment

Pictures can be drawn without rewriting a path. An environment keeps for every name the
item it stands for; a path is followed inside the item of the innermost name it starts
with, or in the bound data where it starts with no such name. Rendering gives the same
pictures and the same reports. Arguments are left aside: they are where rewritten paths
are recorded.
-/

set_option autoImplicit false

namespace DiagramEditor

open Json

/-- A rendered element without its arguments. -/
structure Picture where
  id : String
  kind : String
  properties : Members
  children : List Picture

structure Drawing where
  pictures : List Picture
  diagnostics : List Diagnostic

namespace Drawing

def nothing : Drawing := ⟨[], []⟩

def append (a b : Drawing) : Drawing := ⟨a.pictures ++ b.pictures, a.diagnostics ++ b.diagnostics⟩

end Drawing

/-- Names in scope with the items they stand for, innermost first. -/
structure Environment where
  data : Value
  frames : Table String Value

namespace Environment

def ofData (data : Value) : Environment := ⟨data, []⟩

def bind (env : Environment) (name : String) (item : Value) : Environment :=
  { env with frames := (name, item) :: env.frames }

def find? (env : Environment) : Path → Option Value
  | .field name :: rest =>
    match Table.get? name env.frames with
    | some item => Path.resolve? rest item
    | none => Path.resolve? (.field name :: rest) env.data
  | p => Path.resolve? p env.data

def showPart (env : Environment) : TextPart → String
  | .literal text => text
  | .binding p => Scope.shown (env.find? p)

def text? (env : Environment) : BoundText → Option Value
  | .single p => env.find? p
  | .interpolated parts _ => some (.string (String.join (parts.map env.showPart)))

/-- Only a bound property can be without a value. -/
def property? (env : Environment) : Property → Option Value
  | .literal v => some v
  | .bound text => env.text? text

def properties (env : Environment) (shape : Shape) : Members :=
  Members.ofList (shape.properties.filterMap fun (name, p) => (env.property? p).map (name, ·))

def operand? (env : Environment) : Operand → Option Value
  | .literal v => some v
  | .bound text => env.text? text

def operand (env : Environment) (side : Operand) : Value := (env.operand? side).getD .null

mutual

def holds (env : Environment) : Condition → Except EvalFault Bool
  | .constant b => return b
  | .truthy operand => return Condition.isTrue (env.operand? operand)
  | .compare op left right => op.holds (env.operand left) (env.operand right)
  | .conjunction items => allHold env items
  | .disjunction items => anyHolds env items
  | .negation inner => return !(← holds env inner)
  | .invalid fault => throw (.invalid fault)

def allHold (env : Environment) : List Condition → Except EvalFault Bool
  | [] => return true
  | c :: rest => do if ← holds env c then allHold env rest else return false

def anyHolds (env : Environment) : List Condition → Except EvalFault Bool
  | [] => return false
  | c :: rest => do if ← holds env c then return true else anyHolds env rest

end

def drawItems (draw : Nat → Value → Except TemplateFault Drawing) (n : Nat) :
    List Value → Except TemplateFault Drawing
  | [] => return .nothing
  | item :: rest => do return (← draw n item).append (← drawItems draw (n + 1) rest)

mutual

def draw (owner : ElementId) (id : String) (env : Environment) : Template → Except TemplateFault Drawing
  | .element shape children => do
    let inner ← drawChildren owner id env 0 children
    return ⟨[⟨id, shape.kind, env.properties shape, inner.pictures⟩], inner.diagnostics⟩
  | .iteration iterable iterand body =>
    match env.find? iterable with
    | none => return .nothing
    | some .null => return .nothing
    | some (.array items) =>
      drawItems (fun n item => draw owner (id ++ "_" ++ iterand ++ toString n) (env.bind iterand item) body) 0 items
    | some _ => throw .notIterable
  | .decision condition yes no =>
    match env.holds condition with
    | .ok true => draw owner id env yes
    | .ok false => drawOption owner id env no
    | .error fault => do return Drawing.append ⟨[], [⟨owner, id, fault.message⟩]⟩ (← drawOption owner id env no)

def drawOption (owner : ElementId) (id : String) (env : Environment) :
    Option Template → Except TemplateFault Drawing
  | none => return .nothing
  | some t => draw owner id env t

def drawChildren (owner : ElementId) (id : String) (env : Environment) (n : Nat) :
    List Template → Except TemplateFault Drawing
  | [] => return .nothing
  | t :: rest => do
    return (← draw owner (id ++ "_child" ++ toString n) env t).append (← drawChildren owner id env (n + 1) rest)

end

end Environment

namespace Language

/-- The report on an element whose type the language does not know. -/
def unknownType (l : Language) (e : Element) : List Diagnostic :=
  if e.tag ≠ "" ∧ l.find? e.kind e.tag = none then [⟨e.id, e.id, "unknown type: '" ++ e.tag ++ "'"⟩] else []

def drawElement (l : Language) (e : Element) : Except TemplateFault Drawing := do
  let t := (l.templateFor e).1
  let env := Environment.ofData e.data
  let inner ← env.drawChildren e.id e.id 0 t.children
  let properties := (env.properties t.shape).insertAll e.ownProperties
  return ⟨[⟨e.id, t.shape.kind, properties, inner.pictures⟩], l.unknownType e ++ inner.diagnostics⟩

end Language

/-! ### Scopes and environments -/

/-- A scope and an environment have the same names in the same order, and what the path of
a name leads to is the item it stands for. -/
structure Scope.Agrees (s : Scope) (env : Environment) : Prop where
  data : s.data = env.data
  frames : List.Forall₂ (fun f g => f.1 = g.1 ∧ Path.resolve? f.2 env.data = some g.2) s.frames env.frames

namespace Scope.Agrees

variable {s : Scope} {env : Environment}

theorem ofData (data : Value) : (Scope.ofData data).Agrees (.ofData data) := ⟨rfl, .nil⟩

theorem bind (h : s.Agrees env) (name : String) {place : Path} {item : Value}
    (hitem : Path.resolve? place env.data = some item) : (s.bind name place).Agrees (env.bind name item) :=
  ⟨h.data, .cons ⟨rfl, hitem⟩ h.frames⟩

theorem resolve?_rewrite {data : Value} {frames : List (String × Path)} {items : Table String Value}
    (h : List.Forall₂ (fun f g => f.1 = g.1 ∧ Path.resolve? f.2 data = some g.2) frames items) (p : Path) :
    Path.resolve? (Scope.rewrite frames p) data = Environment.find? ⟨data, items⟩ p := by
  induction h with
  | nil =>
    cases p with
    | nil => rfl
    | cons segment rest => cases segment <;> rfl
  | @cons f g frames items hfg _ ih =>
    obtain ⟨name, place⟩ := f
    obtain ⟨name', item⟩ := g
    obtain ⟨hname, hitem⟩ := hfg
    obtain rfl : name = name' := hname
    cases p with
    | nil => exact ih
    | cons segment rest =>
      cases segment with
      | index n => exact ih
      | field head =>
        by_cases hhead : head = name
        · subst hhead
          simp [Scope.rewrite, Path.substitute?, Environment.find?, Table.get?, Path.resolve?_append, hitem]
        · simpa [Scope.rewrite, Path.substitute?, Environment.find?, Table.get?, hhead, Ne.symm hhead] using ih

/-- Rewriting a path and following it from the root leads into the item of its first name. -/
theorem lookup? (h : s.Agrees env) (p : Path) : s.lookup? p = env.find? p := by
  have hp := resolve?_rewrite h.frames p
  rw [← h.data] at hp
  rw [Scope.lookup?, Scope.concrete, hp, h.data]

theorem render? (h : s.Agrees env) (text : BoundText) : s.render? text = env.text? text := by
  cases text with
  | single p => exact h.lookup? p
  | interpolated parts primary =>
    have hparts : s.showPart = env.showPart := by
      funext part
      cases part with
      | literal text => rfl
      | binding p => rw [Scope.showPart, h.lookup? p, Environment.showPart]
    rw [Scope.render?, Environment.text?, hparts]

theorem value? (h : s.Agrees env) (operand : Operand) : operand.value? s = env.operand? operand := by
  cases operand with
  | literal v => rfl
  | bound text => exact h.render? text

theorem value (h : s.Agrees env) (operand : Operand) : operand.value s = env.operand operand := by
  rw [Operand.value, h.value?, Environment.operand]
  cases env.operand? operand <;> rfl

mutual

theorem evaluate (h : s.Agrees env) (c : Condition) : c.evaluate s = env.holds c := by
  match c with
  | .constant b => rfl
  | .truthy operand => rw [Condition.evaluate, h.value? operand]; rfl
  | .compare op left right => rw [Condition.evaluate, h.value left, h.value right, Environment.holds]
  | .conjunction items => exact h.evaluateAll items
  | .disjunction items => exact h.evaluateAny items
  | .negation inner =>
    rw [Condition.evaluate, Environment.holds, h.evaluate inner]
    cases env.holds inner <;> rfl
  | .invalid fault => rfl

theorem evaluateAll (h : s.Agrees env) (cs : List Condition) : Condition.evaluateAll s cs = env.allHold cs := by
  match cs with
  | [] => rfl
  | c :: rest =>
    rw [Condition.evaluateAll, Environment.allHold, h.evaluate c, h.evaluateAll rest]
    cases env.holds c with
    | error fault => rfl
    | ok b => cases b <;> rfl

theorem evaluateAny (h : s.Agrees env) (cs : List Condition) : Condition.evaluateAny s cs = env.anyHolds cs := by
  match cs with
  | [] => rfl
  | c :: rest =>
    rw [Condition.evaluateAny, Environment.anyHolds, h.evaluate c, h.evaluateAny rest]
    cases env.holds c with
    | error fault => rfl
    | ok b => cases b <;> rfl

end

end Scope.Agrees

/-! ### Pictures of what is rendered -/

namespace VisualElement

mutual

def picture : VisualElement → Picture
  | ⟨id, kind, properties, _, children⟩ => ⟨id, kind, properties, pictures children⟩

def pictures : List VisualElement → List Picture
  | [] => []
  | v :: rest => v.picture :: pictures rest

end

theorem pictures_append (vs ws : List VisualElement) : pictures (vs ++ ws) = pictures vs ++ pictures ws := by
  induction vs with
  | nil => rfl
  | cons v vs ih => rw [List.cons_append, pictures, pictures, ih, List.cons_append]

theorem picture_eq (v : VisualElement) : v.picture = ⟨v.id, v.kind, v.properties, pictures v.children⟩ := by
  cases v
  rw [picture]

end VisualElement

namespace Rendered

def drawing (r : Rendered) : Drawing := ⟨VisualElement.pictures r.elements, r.diagnostics⟩

theorem drawing_append (a b : Rendered) : (a.append b).drawing = a.drawing.append b.drawing := by
  rw [drawing, append, VisualElement.pictures_append]
  rfl

theorem map_andThen (a b : Except TemplateFault Rendered) :
    (andThen a b).map drawing = do return (← a.map drawing).append (← b.map drawing) := by
  cases a with
  | error fault => rfl
  | ok a =>
    cases b with
    | error fault => rfl
    | ok b => exact congrArg Except.ok (drawing_append a b)

/-- Numbered items are rendered as they are drawn when each of them is. -/
theorem map_overItems {render : Nat → Except TemplateFault Rendered}
    {draw : Nat → Value → Except TemplateFault Drawing} {items : List Value} {n : Nat}
    (h : ∀ k item, items[k]? = some item → (render (n + k)).map drawing = draw (n + k) item) :
    (overItems render n items.length).map drawing = Environment.drawItems draw n items := by
  induction items generalizing n with
  | nil => rfl
  | cons item rest ih =>
    have hrest := ih (n := n + 1) fun k other hk => by
      rw [Nat.add_assoc, Nat.add_comm 1 k]
      exact h (k + 1) other hk
    have hitem : (render n).map drawing = draw n item := h 0 item rfl
    rw [List.length_cons, overItems, map_andThen, hitem, hrest, Environment.drawItems]

end Rendered

namespace Shape

theorem properties_foldl {s : Scope} {env : Environment} (h : s.Agrees env) (ps : List (String × Property))
    (parts : Parts) :
    (ps.foldl (addProperty s) parts).properties =
      parts.properties.insertAll (ps.filterMap fun (name, p) => (env.property? p).map (name, ·)) := by
  induction ps generalizing parts with
  | nil => rfl
  | cons p ps ih =>
    obtain ⟨name, property⟩ := p
    rw [List.foldl_cons, ih]
    cases property with
    | literal v => rfl
    | bound text =>
      simp only [addProperty, h.render? text, List.filterMap_cons, Environment.property?]
      cases env.text? text <;> rfl

theorem properties_render {s : Scope} {env : Environment} (h : s.Agrees env) (shape : Shape) :
    (shape.render s).properties = env.properties shape :=
  properties_foldl h shape.properties ⟨[], shape.args⟩

end Shape

namespace Template

mutual

/-- A template is rendered in a scope as it is drawn in an environment that agrees. -/
theorem map_expand {s : Scope} {env : Environment} (h : s.Agrees env) (owner : ElementId) (parent slot : String)
    (t : Template) :
    (expand owner parent slot s t).map Rendered.drawing = env.draw owner (parent ++ "_" ++ slot) t := by
  match t with
  | .element shape children =>
    have hchildren := map_expandChildren h owner (parent ++ "_" ++ slot) 0 children
    rw [expand, Environment.draw, ← hchildren]
    cases expandChildren owner (parent ++ "_" ++ slot) s 0 children with
    | error fault => rfl
    | ok inner =>
      simp only [Except.map, Rendered.drawing, VisualElement.pictures, VisualElement.picture_eq, Shape.element,
        Shape.properties_render h]
      rfl
  | .iteration iterable iterand body =>
    have hlook := h.lookup? iterable
    rw [Scope.lookup?] at hlook
    rw [expand, Environment.draw, hlook]
    cases hitems : env.find? iterable with
    | none => rfl
    | some found =>
      cases found with
      | array items =>
        -- The path of an item may start like a name in scope: only what it leads to from the root counts.
        refine Rendered.map_overItems fun n item hn => ?_
        rw [Nat.zero_add]
        have hplace : Path.resolve? (Path.item (s.concrete iterable) n) env.data = some item := by
          rw [Path.item, Path.resolve?_append, ← h.data, hlook, hitems]
          simp [Path.resolve?, Path.step?, hn]
        have hbody := map_expand (h.bind iterand hplace) owner parent (slot ++ "_" ++ iterand ++ toString n) body
        rw [hbody]
        simp only [String.append_assoc]
      | _ => rfl
  | .decision condition yes no =>
    have hyes := map_expand h owner parent slot yes
    have hno : ∀ t, no = some t →
        (expand owner parent slot s t).map Rendered.drawing = env.draw owner (parent ++ "_" ++ slot) t := by
      intro t ht
      subst ht
      exact map_expand h owner parent slot t
    rw [expand, Environment.draw, ← h.evaluate condition, Condition.verdict]
    cases condition.evaluate s with
    | error fault =>
      simp only [Bool.false_eq_true, if_false]
      match no with
      | none => rfl
      | some t =>
        simp only [Rendered.map_andThen, hno t rfl]
        rfl
    | ok b =>
      cases b with
      | true =>
        simp only [if_true, Rendered.map_andThen, hyes]
        cases env.draw owner (parent ++ "_" ++ slot) yes <;> rfl
      | false =>
        simp only [Bool.false_eq_true, if_false]
        match no with
        | none => rfl
        | some t =>
          simp only [Rendered.map_andThen, hno t rfl, Environment.drawOption]
          cases env.draw owner (parent ++ "_" ++ slot) t <;> rfl

theorem map_expandChildren {s : Scope} {env : Environment} (h : s.Agrees env) (owner : ElementId) (parent : String)
    (n : Nat) (ts : List Template) :
    (expandChildren owner parent s n ts).map Rendered.drawing = env.drawChildren owner parent n ts := by
  match ts with
  | [] => rfl
  | t :: rest =>
    have hfirst := map_expand h owner parent ("child" ++ toString n) t
    rw [expandChildren, Rendered.map_andThen, hfirst, map_expandChildren h owner parent (n + 1) rest,
      Environment.drawChildren]
    have hslot : parent ++ "_" ++ ("child" ++ toString n) = parent ++ "_child" ++ toString n := by
      rw [show "_child" = "_" ++ "child" from rfl]
      simp only [String.append_assoc]
    rw [hslot]

end

end Template

namespace Language

theorem reports_templateFor (l : Language) (e : Element) : (l.templateFor e).2 = l.unknownType e := by
  rw [templateFor, unknownType]
  by_cases htag : e.tag = ""
  · simp [htag]
  · have hempty : e.tag.isEmpty = false := by simpa using htag
    cases l.find? e.kind e.tag <;> simp [htag, hempty]

/-- An element is rendered by rewriting paths as it is drawn in an environment: with the same
error, or with the same tree and the same reports. -/
theorem drawing_renderElement (l : Language) (e : Element) :
    (l.renderElement e).map Rendered.drawing = l.drawElement e := by
  have hscope := Scope.Agrees.ofData e.data
  have hchildren := Template.map_expandChildren hscope e.id e.id 0 (l.templateFor e).1.children
  have hproperties := Shape.properties_render hscope (l.templateFor e).1.shape
  rw [renderElement, drawElement, ← hchildren, ← hproperties, ← l.reports_templateFor e]
  simp only [RootTemplate.render]
  cases Template.expandChildren e.id e.id (Scope.ofData e.data) 0 (l.templateFor e).1.children with
  | error fault => rfl
  | ok inner =>
    simp only [Except.map, Rendered.drawing, VisualElement.pictures, VisualElement.picture_eq]
    rfl

end Language

end DiagramEditor
