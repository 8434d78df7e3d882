import DiagramEditor.Proofs.Language.Compiled
import DiagramEditor.Proofs.Visual.Drawn

/-!
# Recorded bindings

With every bound property an element records a path. It leads from the root of the bound
data to the value shown, and what is recorded of it is read as that very path.
-/

set_option autoImplicit false

namespace DiagramEditor

open Json

namespace Shape

/-- What an element shows of its template, given the data it was drawn with. The
properties under `own` show the model instead. -/
structure Shows (data : Value) (own : List String) (place : Shape × Scope) (v : VisualElement) : Prop where
  kind : v.kind = place.1.kind
  /-- Nothing but the path is recorded, whatever the template says of that argument. -/
  sources : ∀ name text, (name, .bound text) ∈ place.1.properties → ∀ w,
    (bindingName name, w) ∈ v.args ↔ w = .string (place.2.concrete text.primary).print
  values : ∀ name p, (name, .bound (.single p)) ∈ place.1.properties → name ∉ own → ∀ w,
    (name, w) ∈ v.properties ↔ Path.resolve? (place.2.concrete p) data = some w

/-- The recorded paths lead from the root of the data and can be read again. -/
structure Traces (data : Value) (own : List String) (place : Shape × Scope) (v : VisualElement) : Prop
    extends Shows data own place v where
  /-- A name in scope stands for an item of the data. -/
  present : ∀ f ∈ place.2.frames, ∃ item, Path.resolve? f.2 data = some item
  rooted : ∀ name text, (name, .bound text) ∈ place.1.properties →
    Scope.Roots place.2.frames text.primary (place.2.concrete text.primary)
  readable : ∀ name text, (name, .bound text) ∈ place.1.properties →
    Path.parse (place.2.concrete text.primary).print = .ok (place.2.concrete text.primary)

variable {data : Value} {place : Shape × Scope} {v : VisualElement}

theorem Draws.shows (h : Draws place v) (hshape : place.1.Sound) (hscope : place.2.Sound data) (own : Members) :
    Shows data (own.map Prod.fst) place (v.withProperties own) := by
  obtain ⟨id, children, rfl⟩ := h
  have hascending := hshape.ascending_render place.2
  refine ⟨rfl, fun name text hm w => ?_, fun name p hm hown w => ?_⟩
  · have hsource := (foldl_addProperty_bound (s := place.2) hshape.names hm ⟨[], place.1.args⟩).2
    rw [VisualElement.withProperties, element]
    simp only [hascending.args.mem_iff]
    rw [render, hsource, Option.some.injEq, eq_comm]
  · have hvalue := (foldl_addProperty_bound (s := place.2) hshape.names hm ⟨[], place.1.args⟩).1
    rw [VisualElement.withProperties, element]
    simp only [(hascending.properties.insertAll own).mem_iff, Members.get?_insertAll_of_notMem hown]
    rw [render, hvalue, Scope.render?, Scope.lookup?, hscope.sees, Members.get?, Option.or_none]

theorem Shows.traces {own : List String} (h : Shows data own place v) (hshape : place.1.Sound)
    (hscope : place.2.Sound data) (hdata : data.Addressable) : Traces data own place v where
  toShows := h
  present := hscope.present
  rooted := fun _ text _ => Scope.roots_concrete place.2 text.primary
  readable := fun name text hm =>
    Path.parse_print (hscope.readable_concrete hdata (hshape.sources name text hm))

end Shape

namespace VisualElement

theorem withProperties_nil (v : VisualElement) : v.withProperties [] = v := by
  cases v
  rfl

mutual

/-- Whatever stands below an element has a parent. -/
theorem parent_of_mem_walk {parent : String} (v : VisualElement) {p : VisualElement × Option String}
    (h : p ∈ v.walk (some parent)) : ∃ id, p.2 = some id := by
  match v with
  | ⟨id, kind, properties, args, children⟩ =>
    rw [walk, List.mem_cons] at h
    rcases h with rfl | h
    · exact ⟨parent, rfl⟩
    · exact parent_of_mem_walkAll children h

theorem parent_of_mem_walkAll {parent : String} (vs : List VisualElement) {p : VisualElement × Option String}
    (h : p ∈ walkAll (some parent) vs) : ∃ id, p.2 = some id := by
  match vs with
  | [] => cases h
  | v :: rest =>
    rw [walkAll, List.mem_append] at h
    rcases h with h | h
    · exact parent_of_mem_walk v h
    · exact parent_of_mem_walkAll rest h

end

end VisualElement

/-- The properties that show the model. Below the element itself there are none. -/
def Element.shownUnder (e : Element) : Option String → Members
  | none => e.ownProperties
  | some _ => []

namespace Language

variable {l : Language} {e : Element} {r : Rendered}

/-- An element is drawn as one tree, made place by place of what its template draws. -/
theorem renderElement_draws (h : l.renderElement e = .ok r) :
    ∃ root, r.elements = [root] ∧
      List.Forall₂ (fun place v => ∃ u, Shape.Draws place u ∧ v.1 = u.withProperties (e.shownUnder v.2))
        ((l.templateFor e).1.drawn e.data) (root.walk none) := by
  rw [renderElement] at h
  cases hrender : (l.templateFor e).1.render e.id e.data with
  | error fault => simp [hrender] at h
  | ok made =>
    obtain ⟨v, diagnostics⟩ := made
    simp only [hrender, Except.ok.injEq] at h
    have hdraws := RootTemplate.forall₂_render hrender none
    rw [VisualElement.walk_eq] at hdraws
    obtain ⟨hroot, hchildren⟩ := List.forall₂_cons.mp hdraws
    refine ⟨v.withProperties e.ownProperties, by rw [← h], ?_⟩
    rw [VisualElement.walk_eq]
    refine .cons ⟨v, hroot, rfl⟩ (forall₂_imp_of_mem hchildren fun place _ u hu hdraws => ?_)
    obtain ⟨id, hid⟩ := VisualElement.parent_of_mem_walkAll _ hu
    exact ⟨u.1, hdraws, by rw [hid, Element.shownUnder, VisualElement.withProperties_nil]⟩

theorem renderElement_shows (hl : l.Compiled) (h : l.renderElement e = .ok r) :
    ∃ root, r.elements = [root] ∧
      List.Forall₂ (fun place v => Shape.Shows e.data ((e.shownUnder v.2).map Prod.fst) place v.1)
        ((l.templateFor e).1.drawn e.data) (root.walk none) := by
  obtain ⟨root, hroot, hdraws⟩ := renderElement_draws h
  refine ⟨root, hroot, forall₂_imp_of_mem hdraws fun place hplace v _ hv => ?_⟩
  obtain ⟨u, hu, heq⟩ := hv
  obtain ⟨hshape, hscope⟩ := (hl.sound_templateFor e).of_mem_drawn hplace
  rw [heq]
  exact hu.shows hshape hscope _

/-- Every bound property of every element drawn for a model element, however deep in
iterations and decisions, records the path from the root of the data to the value shown. -/
theorem renderElement_traces (hl : l.Compiled) (hdata : e.data.Addressable) (h : l.renderElement e = .ok r) :
    ∃ root, r.elements = [root] ∧
      List.Forall₂ (fun place v => Shape.Traces e.data ((e.shownUnder v.2).map Prod.fst) place v.1)
        ((l.templateFor e).1.drawn e.data) (root.walk none) := by
  obtain ⟨root, hroot, hshows⟩ := renderElement_shows hl h
  refine ⟨root, hroot, forall₂_imp_of_mem hshows fun place hplace v _ hv => ?_⟩
  obtain ⟨hshape, hscope⟩ := (hl.sound_templateFor e).of_mem_drawn hplace
  exact hv.traces hshape hscope hdata

end Language

def Node.sample : Node :=
  let named (name : String) : Value := .object [("name", .string name)]
  let group : Value := .object [("attributes", .array [named "a", named "b"])]
  ⟨"n", "class", .origin, none, .object [("groups", .array [group]), ("title", .string "N")]⟩

theorem Node.addressable_sample : Node.sample.data.Addressable := by
  have hobject : ∀ (key : String) {v : Value}, v.Addressable → Value.Addressable (.object [(key, v)]) :=
    fun key v hv => .object (List.forall_mem_singleton.mpr hv)
  have hnames : ∀ v ∈ [Value.object [("name", .string "a")], .object [("name", .string "b")]], v.Addressable :=
    List.forall_mem_cons.mpr
      ⟨hobject "name" (.string "a"), List.forall_mem_singleton.mpr (hobject "name" (.string "b"))⟩
  have hgroup := hobject "attributes" (.array (by decide) hnames)
  have hgroups := Value.Addressable.array (by decide) (List.forall_mem_singleton.mpr hgroup)
  exact .object (List.forall_mem_cons.mpr ⟨hgroups, List.forall_mem_singleton.mpr (.string "N")⟩)

theorem Language.sample_renderElement_traces :
    Language.sample.Compiled ∧ Node.sample.data.Addressable ∧
      ∃ r root, Language.sample.renderElement (.node .sample) = .ok r ∧ r.elements = [root] ∧
        List.Forall₂
          (fun place v => Shape.Traces Node.sample.data (((Element.node .sample).shownUnder v.2).map Prod.fst) place v.1)
          ((Language.sample.templateFor (.node .sample)).1.drawn Node.sample.data) (root.walk none) := by
  obtain ⟨r, hr⟩ : ∃ r, Language.sample.renderElement (.node .sample) = .ok r := ⟨_, rfl⟩
  obtain ⟨root, hroot, hwalk⟩ := renderElement_traces (e := .node .sample) compiled_sample Node.addressable_sample hr
  exact ⟨compiled_sample, Node.addressable_sample, r, root, hr, hroot, hwalk⟩

end DiagramEditor
