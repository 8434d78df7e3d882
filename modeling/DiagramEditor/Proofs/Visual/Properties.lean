import DiagramEditor.Proofs.Json.Sorted
import DiagramEditor.Proofs.Session.LabelEdit
import DiagramEditor.Proofs.Visual.Bindings

/-!
# Properties of rendered elements

The properties of an element stand beside its id, its type, its arguments and its children. A
template keeps these names from being properties, and neither the data nor the model brings them
back, however deep the element stands.
-/

set_option autoImplicit false

namespace DiagramEditor

open Json

/-! ### Values on the way -/

namespace Path

variable {p : Path} {data v : Value}

theorem ordered_of_step? {s : Segment} (h : data.Ordered) (hs : step? s data = some v) : v.Ordered := by
  cases s with
  | field name =>
    cases h with
    | object _ hmembers => exact hmembers _ (Members.mem_of_get? hs)
    | _ => cases hs
  | index n =>
    cases h with
    | array hitems => exact hitems v (List.mem_of_getElem? hs)
    | _ => cases hs

theorem ordered_of_resolve? (h : data.Ordered) (hp : resolve? p data = some v) : v.Ordered := by
  induction p generalizing data with
  | nil => exact Option.some.inj hp ▸ h
  | cons s p ih =>
    obtain ⟨inner, hs, hinner⟩ := Option.bind_eq_some_iff.mp hp
    exact ih (ordered_of_step? h hs) hinner

end Path

theorem Scope.ordered_of_render? {s : Scope} (h : s.data.Ordered) {text : BoundText} {v : Value}
    (hv : s.render? text = some v) : v.Ordered := by
  cases text with
  | single p => exact Path.ordered_of_resolve? h hv
  | interpolated parts primary => exact Option.some.inj hv ▸ .string _

/-! ### Plain members -/

/-- Members in order, none of them by the name of a part of the structure. -/
structure Json.Members.Plain (ms : Members) : Prop where
  ordered : (Value.object ms).Ordered
  names : ∀ m ∈ ms, m.1 ∉ Template.reserved

namespace Json.Members

theorem ordered_nil : (Value.object []).Ordered := .object List.Pairwise.nil (by simp)

theorem ordered_insert {ms : Members} (h : (Value.object ms).Ordered) (key : String) {v : Value} (hv : v.Ordered) :
    (Value.object (insert key v ms)).Ordered := by
  cases h with
  | object hkeys hvalues =>
    refine .object (hkeys.insert key v) fun m hm => ?_
    rcases mem_insert hm with rfl | hm
    · exact hv
    · exact hvalues m hm

theorem plain_nil : Plain [] := ⟨ordered_nil, by simp⟩

theorem Plain.insert {ms : Members} (h : ms.Plain) {key : String} {v : Value} (hkey : key ∉ Template.reserved)
    (hv : v.Ordered) : (Members.insert key v ms).Plain := by
  refine ⟨ordered_insert h.ordered key hv, fun m hm => ?_⟩
  rcases mem_insert hm with rfl | hm
  · exact hkey
  · exact h.names m hm

theorem Plain.insertAll {ms : Members} (h : ms.Plain) {more : Members}
    (hmore : ∀ m ∈ more, m.1 ∉ Template.reserved ∧ m.2.Ordered) : (ms.insertAll more).Plain := by
  induction more generalizing ms with
  | nil => exact h
  | cons m more ih =>
    rw [List.forall_mem_cons] at hmore
    exact ih (h.insert hmore.1.1 hmore.1.2) hmore.2

end Json.Members

/-! ### Elements -/

theorem VisualElement.mem_walkAll_iff {parent : Option String} {vs : List VisualElement}
    {f : VisualElement × Option String} : f ∈ walkAll parent vs ↔ ∃ v ∈ vs, f ∈ v.walk parent := by
  induction vs with
  | nil => simp [walkAll]
  | cons v rest ih => simp [walkAll, ih]

/-- Properties and arguments can be told from the structure, and are in order. -/
structure VisualElement.Plain (v : VisualElement) : Prop where
  properties : v.properties.Plain
  args : (Value.object v.args).Ordered

namespace Shape

variable {s : Scope}

structure Parts.Plain (parts : Parts) : Prop where
  properties : parts.properties.Plain
  args : (Value.object parts.args).Ordered

/-- A property of the template is added to plain parts. -/
theorem Parts.Plain.addProperty {parts : Parts} (h : parts.Plain) (hs : s.data.Ordered) {p : String × Property}
    (hname : p.1 ∉ Template.reserved) (hliteral : ∀ v, p.2 = .literal v → v.Ordered) :
    (addProperty s parts p).Plain := by
  obtain ⟨name, property⟩ := p
  cases property with
  | literal v => exact ⟨h.properties.insert hname (hliteral v rfl), h.args⟩
  | bound text =>
    refine ⟨?_, Members.ordered_insert h.args _ (.string _)⟩
    simp only [Shape.addProperty]
    split
    · rename_i v hv
      exact h.properties.insert hname (Scope.ordered_of_render? hs hv)
    · exact h.properties

theorem Sound.plain_render {shape : Shape} (h : shape.Sound) (hs : s.data.Ordered) : (shape.render s).Plain := by
  have hfold : ∀ ps : List (String × Property), ps ⊆ shape.properties → ∀ parts : Parts, parts.Plain →
      (ps.foldl (addProperty s) parts).Plain := by
    intro ps hps
    induction ps with
    | nil => exact fun parts hparts => hparts
    | cons p ps ih =>
      rw [List.cons_subset] at hps
      refine fun parts hparts => ih hps.2 _ (hparts.addProperty hs (h.plain p hps.1) fun v hv => ?_)
      exact h.literals p.1 v (hv ▸ hps.1)
  exact hfold shape.properties (List.Subset.refl _) _ ⟨Members.plain_nil, .object h.args h.argValues⟩

theorem Draws.plain {place : Shape × Scope} {v : VisualElement} (h : Draws place v) (hshape : place.1.Sound)
    (hs : place.2.data.Ordered) : v.Plain := by
  obtain ⟨id, children, rfl⟩ := h
  have hparts := hshape.plain_render hs
  exact ⟨hparts.properties, hparts.args⟩

end Shape

theorem Json.Value.ordered_ofFloat (x : Float) : (ofFloat x).Ordered := by
  rw [ofFloat]
  cases Number.ofFloat? x with
  | none => exact .null
  | some n => exact .number n

theorem Point.ordered_toValue (p : Point) : p.toValue.Ordered :=
  .object (List.pairwise_pair.mpr (by decide : "x" < "y")) (by simp [Value.ordered_ofFloat])

/-- What shows the model is no part of the structure either. -/
theorem Element.plain_ownProperties (e : Element) :
    ∀ m ∈ e.ownProperties, m.1 ∉ Template.reserved ∧ m.2.Ordered := by
  cases e with
  | node n =>
    simp only [ownProperties, List.forall_mem_cons]
    exact ⟨⟨by decide, n.position.ordered_toValue⟩, ⟨by decide, Value.ordered_sorted _⟩, by simp⟩
  | edge e =>
    have hrouting : (Value.array (e.routing.map Point.toValue)).Ordered :=
      .array (List.forall_mem_map.mpr fun p _ => p.ordered_toValue)
    simp only [ownProperties, List.forall_mem_cons]
    exact ⟨⟨by decide, .string _⟩, ⟨by decide, .string _⟩, ⟨by decide, hrouting⟩, by simp⟩

theorem Element.plain_shownUnder (e : Element) (parent : Option String) :
    ∀ m ∈ e.shownUnder parent, m.1 ∉ Template.reserved ∧ m.2.Ordered := by
  cases parent with
  | none => exact e.plain_ownProperties
  | some id => simp [shownUnder]

namespace Language

variable {l : Language} {e : Element} {r : Rendered}

/-- Every element that is drawn for an element of the model is plain, at every depth. -/
theorem renderElement_plain (hl : l.Compiled) (hdata : e.data.Ordered) (h : l.renderElement e = .ok r) :
    ∃ root, r.elements = [root] ∧ ∀ f ∈ root.walk none, f.1.Plain := by
  obtain ⟨root, hroot, hdraws⟩ := renderElement_draws h
  refine ⟨root, hroot, fun f hf => ?_⟩
  obtain ⟨place, hplace, u, hu, heq⟩ := exists_of_forall₂ hdraws hf
  obtain ⟨hshape, hscope⟩ := (hl.sound_templateFor e).of_mem_drawn hplace
  have hplain := hu.plain hshape (hscope.sees ▸ hdata)
  rw [heq]
  exact ⟨hplain.properties.insertAll (e.plain_shownUnder f.2), hplain.args⟩

/-- Nothing in a rendering has a property by the name of a part of the structure. -/
theorem render_plain {m : Model} {r : Rendering} (hl : l.Compiled) (hm : ∀ e ∈ m.elements, e.data.Ordered)
    (h : l.render m = .ok r) : ∀ f ∈ VisualElement.walkAll none r.graph.children, f.1.Plain := by
  intro f hf
  obtain ⟨root, hroot, hf⟩ := VisualElement.mem_walkAll_iff.mp hf
  obtain ⟨e, he, _, made, hmade, hone⟩ := of_mem_render h hroot
  obtain ⟨other, hother, hplain⟩ := renderElement_plain hl (hm e he) hmade
  obtain rfl : other = root := by simpa using hother.symm.trans hone
  exact hplain f hf

end Language

end DiagramEditor
