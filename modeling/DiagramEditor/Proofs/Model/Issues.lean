import DiagramEditor.Model.Issues
import DiagramEditor.Proofs.Model.Loading
import DiagramEditor.Proofs.Operation.Validation
import DiagramEditor.Proofs.Visual.Reports
import DiagramEditor.Proofs.Wire.Orderly

/-!
# Models without issues

The issues of a model under a language are looked for apart from any diagram: its ids and ends, then
for each element the type and the data. A model has none just when a diagram is made of it, every type
that its elements have is declared for their kind, and each such element may be given the data it has
where data is checked. What is listed is wrong in the model, and of what is wrong with its elements
everything is listed.
-/

set_option autoImplicit false

namespace DiagramEditor

open Json

/-! ### Declared types -/

namespace LanguageDocument

/-- The types that are declared for a kind of element. -/
def types (d : LanguageDocument) : ElementKind → Table TypeTag TypeDocument
  | .node => d.nodes
  | .edge => d.edges

def Declares (d : LanguageDocument) (kind : ElementKind) (tag : TypeTag) : Prop := tag ∈ (d.types kind).map Prod.fst

/-- The schema that is declared for the data of an element, if its type is declared with one. -/
def schemaOf? (d : LanguageDocument) (e : Element) : Option Schema :=
  (Table.get? e.tag (d.types e.kind)).bind (·.schema)

end LanguageDocument

theorem ElementType.schema_find?_of_compileAll {kind : ElementKind} {ds : List (TypeTag × TypeDocument)}
    {ts : List ElementType} (h : compileAll kind ds = .ok ts) (tag : TypeTag) :
    (ts.find? (·.tag == tag)).map (·.schema) = (Table.get? tag ds).map (·.schema) := by
  induction ds generalizing ts with
  | nil => rw [← Except.ok.inj h]; rfl
  | cons entry ds ih =>
    obtain ⟨name, d⟩ := entry
    rw [compileAll] at h
    split at h
    · cases h
    · rename_i t ht
      split at h
      · cases h
      · rename_i more hmore
        obtain rfl := Except.ok.inj h
        have htype : t.tag = name ∧ t.schema = d.schema := by
          rw [compile] at ht
          split at ht
          · cases ht
          · exact Except.ok.inj ht ▸ ⟨rfl, rfl⟩
        by_cases hname : name = tag
        · simp [Table.get?, htype, hname]
        · simp [Table.get?, htype, hname, ih hmore]

namespace Language

variable {doc : LanguageDocument} {l : Language}

/-- A compiled language finds the types that its document declares, with their schemas. -/
theorem schema_find?_of_compile (h : compile doc = .ok l) (kind : ElementKind) (tag : TypeTag) :
    (l.find? kind tag).map (·.schema) = (Table.get? tag (doc.types kind)).map (·.schema) := by
  rw [compile] at h
  split at h
  · cases h
  · rename_i nodes hnodes
    split at h
    · cases h
    · rename_i edges hedges
      obtain rfl := Except.ok.inj h
      cases kind with
      | node => exact ElementType.schema_find?_of_compileAll hnodes tag
      | edge => exact ElementType.schema_find?_of_compileAll hedges tag

theorem find?_eq_none_iff (h : compile doc = .ok l) (kind : ElementKind) (tag : TypeTag) :
    l.find? kind tag = none ↔ ¬ doc.Declares kind tag := by
  rw [LanguageDocument.Declares, ← Table.get?_eq_none_iff, ← Option.map_eq_none_iff, schema_find?_of_compile h,
    Option.map_eq_none_iff]

theorem schema_of_compile (h : compile doc = .ok l) (e : Element) :
    (l.find? e.kind e.tag).bind (·.schema) = doc.schemaOf? e := by
  have hmap := schema_find?_of_compile h e.kind e.tag
  rw [LanguageDocument.schemaOf?]
  cases hfound : l.find? e.kind e.tag with
  | none =>
    rw [hfound, eq_comm, Option.map_none, Option.map_eq_none_iff] at hmap
    rw [hmap]
    rfl
  | some t =>
    rw [hfound, eq_comm, Option.map_some, Option.map_eq_some_iff] at hmap
    obtain ⟨type, htype, hschema⟩ := hmap
    rw [htype, Option.bind_some, Option.bind_some, hschema]

end Language

/-! ### What an issue says -/

/-- What the issue says is so for the element: its type is not declared for its kind, or a part of its
data is not what the schema that is declared for it asks for there. -/
inductive ModelIssue.Concerns (doc : LanguageDocument) (e : Element) : ModelIssue → Prop
  | unknownType : e.tag ≠ "" → ¬ doc.Declares e.kind e.tag → Concerns doc e (.unknownType e.id e.tag)
  | data {s part : Schema} {v : Value} {i : Issue} : e.tag ≠ "" → doc.schemaOf? e = some s →
      s.Leads i.place part → Path.resolve? i.place e.data = some v → ¬ part.Suits v →
      i.mismatch = part.complaint v → Concerns doc e (.data e.id i)

/-- What the issue says is so: there is such an id or end in the model, or such an element. -/
inductive ModelIssue.Holds (doc : LanguageDocument) (m : Model) : ModelIssue → Prop
  | graph {fault : EditError} : m.Flaw fault → Holds doc m (.graph fault)
  | element {e : Element} {i : ModelIssue} : e ∈ m.elements → i.Concerns doc e → Holds doc m i

namespace Language

variable {doc : LanguageDocument} {l : Language} {m : Model} {e : Element} {i : ModelIssue}

theorem elementIssues_of_untyped (h : e.tag = "") : l.elementIssues e = [] :=
  if_pos (by simpa using h)

theorem elementIssues_of_unknown (htag : e.tag ≠ "") (h : l.find? e.kind e.tag = none) :
    l.elementIssues e = [.unknownType e.id e.tag] := by
  rw [elementIssues, if_neg (by simpa using htag), h]

/-- The issues of an element whose type is known are those that its own data would be refused for. -/
theorem elementIssues_of_known (htag : e.tag ≠ "") (h : l.find? e.kind e.tag ≠ none) :
    l.elementIssues e = (Operation.dataIssues ⟨l, .validate⟩ e e.data).map (.data e.id) := by
  obtain ⟨t, ht⟩ := Option.ne_none_iff_exists'.mp h
  rw [elementIssues, if_neg (by simpa using htag), ht, Operation.dataIssues, ht, Option.bind_some]
  cases hs : t.schema <;> simp only [hs, List.map_nil]

theorem mem_dataIssues_iff (hl : compile doc = .ok l) {v : Value} {i : Issue} :
    i ∈ Operation.dataIssues ⟨l, .validate⟩ e v ↔ ∃ s, doc.schemaOf? e = some s ∧ i ∈ s.check v := by
  rw [Operation.dataIssues, schema_of_compile hl]
  cases doc.schemaOf? e <;> simp

/-- Of an element all is listed that is wrong with it, and nothing else. -/
theorem mem_elementIssues_iff (hl : compile doc = .ok l) : i ∈ l.elementIssues e ↔ i.Concerns doc e := by
  by_cases htag : e.tag = ""
  · rw [elementIssues_of_untyped htag]
    refine iff_of_false List.not_mem_nil ?_
    rintro (⟨hne, _⟩ | ⟨hne, _⟩) <;> exact hne htag
  · by_cases hfound : l.find? e.kind e.tag = none
    · have hnot := (find?_eq_none_iff hl _ _).mp hfound
      have hschema := schema_of_compile hl e
      rw [hfound] at hschema
      rw [elementIssues_of_unknown htag hfound, List.mem_singleton]
      constructor
      · rintro rfl
        exact .unknownType htag hnot
      · rintro (_ | ⟨_, hs, _⟩)
        · rfl
        · cases hschema.trans hs
    · have hdeclared := not_not.mp (mt (find?_eq_none_iff hl _ _).mpr hfound)
      rw [elementIssues_of_known htag hfound, List.mem_map]
      constructor
      · rintro ⟨i, hi, rfl⟩
        obtain ⟨s, hs, hcheck⟩ := (mem_dataIssues_iff hl).mp hi
        obtain ⟨part, v, hleads, hv, hsuits, hmismatch⟩ := s.mem_check_iff.mp hcheck
        exact .data htag hs hleads hv hsuits hmismatch
      · rintro (⟨_, hnot⟩ | ⟨_, hs, hleads, hv, hsuits, hmismatch⟩)
        · exact absurd hdeclared hnot
        · have hcheck := Schema.mem_check_iff.mpr ⟨_, _, hleads, hv, hsuits, hmismatch⟩
          exact ⟨_, (mem_dataIssues_iff hl).mpr ⟨_, hs, hcheck⟩, rfl⟩

theorem elementIssues_eq_nil_iff (hl : compile doc = .ok l) :
    l.elementIssues e = [] ↔
      (e.tag ≠ "" → doc.Declares e.kind e.tag ∧ Operation.dataIssues ⟨l, .validate⟩ e e.data = []) := by
  by_cases htag : e.tag = ""
  · exact iff_of_true (elementIssues_of_untyped htag) fun hne => absurd htag hne
  · have hdeclared := not_iff_not.mpr (find?_eq_none_iff hl e.kind e.tag)
    rw [not_not] at hdeclared
    rw [← hdeclared, imp_iff_right htag]
    by_cases hfound : l.find? e.kind e.tag = none
    · simp [elementIssues_of_unknown htag hfound, hfound]
    · rw [elementIssues_of_known htag hfound, List.map_eq_nil_iff, and_iff_right hfound]

theorem mem_modelIssues_iff (hl : compile doc = .ok l) :
    i ∈ l.modelIssues m ↔
      (∃ fault, m.check = .error fault ∧ i = .graph fault) ∨ ∃ e ∈ m.elements, i.Concerns doc e := by
  have hgraph : i ∈ graphIssues m ↔ ∃ fault, m.check = .error fault ∧ i = .graph fault := by
    rw [graphIssues]
    cases m.check <;> simp
  rw [modelIssues, List.mem_append, hgraph, List.mem_flatMap]
  simp only [mem_elementIssues_iff hl]
  rfl

theorem modelIssues_eq_nil_iff :
    l.modelIssues m = [] ↔ m.check = .ok () ∧ ∀ e ∈ m.elements, l.elementIssues e = [] := by
  have hgraph : graphIssues m = [] ↔ m.check = .ok () := by
    rw [graphIssues]
    cases m.check <;> simp
  rw [modelIssues, List.append_eq_nil_iff, hgraph, List.flatMap_eq_nil_iff]
  rfl

end Language

/-! ### What is accepted -/

theorem Diagram.InStep.element?_of_mem {d : Diagram} {e : Element} (h : d.InStep) (he : e ∈ d.model.elements) :
    d.element? e.id = some e := by
  have hid : e.id ∈ d.model.ids := d.model.ids_elements ▸ List.mem_map_of_mem he
  obtain ⟨found, hfound⟩ := Option.isSome_iff_exists.mp (h.isSome_element?_iff.mpr hid)
  obtain ⟨hmem, heq⟩ := Model.mem_of_element? ((h.element?_eq e.id).symm.trans hfound)
  rw [hfound, h.closed.eq_of_element_id hmem he heq]

/-- An element may be given the data it has if its data has no issues. -/
theorem Operation.changeData_self_iff {c : EditContext} {w : Workspace} {id : ElementId} {e : Element}
    (h : w.diagram.element? id = some e) :
    (∃ outcome w', (changeData id e.data .replace).apply c w = (.ok outcome, w')) ↔ dataIssues c e e.data = [] := by
  constructor
  · rintro ⟨outcome, w', happly⟩
    by_contra hissues
    rw [apply_changeData_error h hissues] at happly
    cases (Prod.mk.inj happly).1
  · intro hissues
    have hcombined : dataIssues c e (combine .replace e.data e.data) = [] := hissues
    obtain ⟨w', happly, _⟩ := apply_changeData_ok h hcombined
    exact ⟨_, w', happly⟩

namespace Language

variable {doc : LanguageDocument} {l : Language} {m : Model}

/-- A model that was read has no issues just when it makes a diagram in which every element that has a
type has one that is declared for its kind, and may be given the data it has. That the types are declared
shows in every rendering, which else reports an unknown type. Whatever is listed is wrong in the model, and
whatever is wrong with one of its elements is listed. -/
theorem issues_exact {t : Json.Tree} (hl : Language.compile doc = .ok l) (hm : Model.decode t = .ok m) :
    (l.modelIssues m = [] ↔ ∃ d, Diagram.ofModel m = .ok d ∧ ∀ e ∈ m.elements, e.tag ≠ "" →
      doc.Declares e.kind e.tag ∧
      ∀ ids, ∃ outcome w, (Operation.changeData e.id e.data .replace).apply ⟨l, .validate⟩ ⟨d, ids⟩ = (.ok outcome, w)) ∧
    (∀ r, l.render m = .ok r → ((∃ x ∈ r.diagnostics, x.TellsUnknownType) ↔
      ∃ e ∈ m.elements, e.tag ≠ "" ∧ ¬ doc.Declares e.kind e.tag)) ∧
    (∀ i ∈ l.modelIssues m, i.Holds doc m) ∧
    ∀ e ∈ m.elements, ∀ i : ModelIssue, i.Concerns doc e → i ∈ l.modelIssues m := by
  obtain ⟨hnodes, hedges, _, _⟩ := Model.orderly_of_decode hm
  have hself : ∀ d, Diagram.ofModel m = .ok d → ∀ e ∈ m.elements, ∀ ids,
      (∃ outcome w, (Operation.changeData e.id e.data .replace).apply ⟨l, .validate⟩ ⟨d, ids⟩ = (.ok outcome, w)) ↔
        Operation.dataIssues ⟨l, .validate⟩ e e.data = [] := by
    intro d hd e he ids
    have hmodel := (Diagram.of_ofModel_ok hd).2.2
    exact Operation.changeData_self_iff ((Diagram.InStep.of_ofModel hd).element?_of_mem (hmodel ▸ he))
  refine ⟨?accepted, ?rendered, ?listed, ?complete⟩
  case accepted =>
    simp only [modelIssues_eq_nil_iff, elementIssues_eq_nil_iff hl]
    constructor
    · rintro ⟨hcheck, helements⟩
      obtain ⟨x, _, hd, _⟩ := Model.ofModel_of_check hnodes hedges hcheck
      refine ⟨_, hd, fun e he htag => ⟨(helements e he htag).1, fun ids => ?_⟩⟩
      exact (hself _ hd e he ids).mpr (helements e he htag).2
    · rintro ⟨d, hd, helements⟩
      refine ⟨(Diagram.of_ofModel_ok hd).1, fun e he htag => ⟨(helements e he htag).1, ?_⟩⟩
      exact (hself d hd e he .start).mp ((helements e he htag).2 .start)
  case rendered =>
    intro r hr
    simp only [tells_render hr, NotKnown, find?_eq_none_iff hl]
  case listed =>
    intro i hi
    rcases (mem_modelIssues_iff hl).mp hi with ⟨fault, hcheck, rfl⟩ | ⟨e, he, hconcerns⟩
    · exact .graph (Model.flaw_of_check hcheck)
    · exact .element he hconcerns
  case complete => exact fun e he i hi => (mem_modelIssues_iff hl).mpr (.inr ⟨e, he, hi⟩)

/-- Classes have a form, and links have none. -/
def formsDocument : LanguageDocument :=
  ⟨"uml", "", 1, [("class", { TypeDocument.empty with schema := some Operation.formOfClass })], [("link", .empty)]⟩

/-- A class and something without a type, and an edge from the class. -/
def formsModel (data : Value) (edgeTag : TypeTag) (target : ElementId) : Value :=
  let a : Value := .object [("id", .string "a"), ("type", .string "class"), ("boundData", data)]
  let b : Value := .object [("id", .string "b")]
  let ab : Value := .object
    [("id", .string "ab"), ("type", .string edgeTag), ("sourceId", .string "a"), ("targetId", .string target)]
  .object [("id", .string "m"), ("nodes", .array [a, b]), ("edges", .array [ab])]

/-- An open class with a link makes a diagram. Where the class is misshapen, the end is missing and
`class` is no type of edges, all that is listed is so. -/
theorem sample_issues_exact : ∃ l sound faulty,
    compile formsDocument = .ok l ∧
    Model.decode (Tree.ofValue (formsModel (.object [("kind", .string "open")]) "link" "b")) = .ok sound ∧
    Model.decode (Tree.ofValue (formsModel Operation.misshapen "class" "c")) = .ok faulty ∧
    (∃ d, Diagram.ofModel sound = .ok d) ∧
    (ModelIssue.graph (.danglingReference "ab" "c")).Holds formsDocument faulty ∧
    (ModelIssue.data "a" ⟨[.field "size"], .expected "an integer" (.string "large")⟩).Holds formsDocument faulty ∧
    (ModelIssue.unknownType "ab" "class").Holds formsDocument faulty := by
  obtain ⟨l, sound, faulty, hl, hsound, hfaulty, hclean, hissues⟩ : ∃ l sound faulty,
      compile formsDocument = .ok l ∧
      Model.decode (Tree.ofValue (formsModel (.object [("kind", .string "open")]) "link" "b")) = .ok sound ∧
      Model.decode (Tree.ofValue (formsModel Operation.misshapen "class" "c")) = .ok faulty ∧
      l.modelIssues sound = [] ∧
      l.modelIssues faulty =
        [.graph (.danglingReference "ab" "c"), .data "a" ⟨[.field "kind"], .expected "a string" (.bool true)⟩,
         .data "a" ⟨[.field "size"], .expected "an integer" (.string "large")⟩, .unknownType "ab" "class"] :=
    ⟨_, _, _, rfl, rfl, rfl, rfl, rfl⟩
  obtain ⟨d, hd, _⟩ := (issues_exact hl hsound).1.mp hclean
  have hlisted := (issues_exact hl hfaulty).2.2.1
  rw [hissues] at hlisted
  exact ⟨l, sound, faulty, hl, hsound, hfaulty, ⟨d, hd⟩, hlisted _ (by simp), hlisted _ (by simp), hlisted _ (by simp)⟩

end Language

end DiagramEditor
