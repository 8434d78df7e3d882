import DiagramEditor.Proofs.Json.Ordered
import DiagramEditor.Proofs.Operation.Planning
import DiagramEditor.Proofs.Schema

/-!
# Changes of data under a schema

Where data is checked, what is to become the data of an element is checked as a whole. It becomes
the data if it conforms to the schema of the type; if not, all stays as it was, and the issues
are told. Data that conforms may be put into data that conforms.
-/

set_option autoImplicit false

namespace DiagramEditor

open Json

namespace Schema

/-- What conforms may be merged into what conforms; where the two are not both objects, the second
takes the place of the first. -/
theorem Conforms.combine {s : Schema} {old new : Value} (hold : s.Conforms old) (hnew : s.Conforms new)
    (hordered : new.Ordered) (mode : ChangeMode) : s.Conforms (Operation.combine mode old new) := by
  unfold Operation.combine
  split
  · rename_i current patch
    cases hold with
    | object hcurrent =>
      cases hnew with
      | object hpatch =>
        cases hordered with
        | object hascending _ =>
          refine .object fun p hp v hv => ?_
          rw [Members.get?_insertAll hascending.nodup, Option.or_eq_some_iff] at hv
          rcases hv with hv | ⟨_, hv⟩
          · exact hpatch p hp v hv
          · exact hcurrent p hp v hv
  · exact hnew

end Schema

namespace Operation

open Edit

variable {c : EditContext} {w : Workspace} {id : ElementId} {element : Element} {data : Value} {mode : ChangeMode}

theorem dataIssues_of_schema {schema : Schema} (hpolicy : c.policy = .validate)
    (hschema : (c.language.find? element.kind element.tag).bind (·.schema) = some schema) (next : Value) :
    dataIssues c element next = schema.check next := by
  simp only [dataIssues, hpolicy, hschema]

/-- Data without issues is taken over. -/
theorem apply_changeData_ok (h : w.diagram.element? id = some element)
    (hissues : dataIssues c element (combine mode element.data data) = []) :
    ∃ w', (Operation.changeData id data mode).apply c w = (.ok .nothing, w') ∧
      w'.diagram.element? id = some (element.withData (combine mode element.data data)) := by
  have hplan : (changeData id data mode).plan c w.diagram = .ok [.data element (combine mode element.data data)] := by
    simp only [plan, h, planData, hissues]
  refine ⟨{ w with diagram := w.diagram.patch (.data element (combine mode element.data data)) }, ?_, ?_⟩
  · rw [apply_eq_carryOut rfl, hplan]
    rfl
  · rw [Diagram.element?_patch, h, Option.map_some, Patch.onElement_data]

/-- Data with issues is refused, and the issues are told. -/
theorem apply_changeData_error (h : w.diagram.element? id = some element)
    (hissues : dataIssues c element (combine mode element.data data) ≠ []) :
    (Operation.changeData id data mode).apply c w =
      (.error (.schemaViolation id (dataIssues c element (combine mode element.data data))), w) := by
  have hplan : (changeData id data mode).plan c w.diagram =
      .error (.schemaViolation id (dataIssues c element (combine mode element.data data))) := by
    simp only [plan, h, planData]
    cases hlist : dataIssues c element (combine mode element.data data) with
    | nil => exact absurd hlist hissues
    | cons issue issues => rfl
  rw [apply_eq_carryOut rfl, hplan]
  rfl

/-- The check of data against a schema finds nothing just where the data conforms, and otherwise
it finds the parts that are not of the kind asked for, one issue each, in the order of the schema and
of the items. Where data is checked, an element whose type has a schema takes over what conforms, and
all stays as it was where the new data does not conform; data that conforms may always be merged into
data that does. -/
theorem changeData_validated :
    (∀ (s : Schema) (v : Value), (s.check v = [] ↔ s.Conforms v) ∧
      (∀ i, i ∈ s.check v ↔ ∃ t w, s.Leads i.place t ∧ Path.resolve? i.place v = some w ∧ ¬ t.Suits w ∧
        i.mismatch = t.complaint w) ∧
      (s.Distinct → (s.check v).Pairwise fun i j => s.Before i.place j.place ∧ i.place.Apart j.place)) ∧
    ∀ (c : EditContext) (w : Workspace) (id : ElementId) (element : Element) (s : Schema),
      c.policy = .validate → w.diagram.element? id = some element →
      (c.language.find? element.kind element.tag).bind (·.schema) = some s → ∀ data mode,
        (s.Conforms (combine mode element.data data) →
          ∃ w', (changeData id data mode).apply c w = (.ok .nothing, w') ∧
            w'.diagram.element? id = some (element.withData (combine mode element.data data))) ∧
        (¬ s.Conforms (combine mode element.data data) →
          (changeData id data mode).apply c w =
            (.error (.schemaViolation id (s.check (combine mode element.data data))), w)) ∧
        (s.Conforms element.data → s.Conforms data → data.Ordered →
          ∃ w', (changeData id data .merge).apply c w = (.ok .nothing, w') ∧
            w'.diagram.element? id = some (element.withData (combine .merge element.data data))) := by
  refine ⟨fun s v => ⟨s.check_eq_nil_iff, fun i => s.mem_check_iff, fun hs => s.pairwise_check hs v⟩, ?_⟩
  intro c w id element s hpolicy helement hschema data mode
  have hissues : ∀ next, dataIssues c element next = s.check next := dataIssues_of_schema hpolicy hschema
  have htakes : ∀ how, s.Conforms (combine how element.data data) →
      ∃ w', (changeData id data how).apply c w = (.ok .nothing, w') ∧
        w'.diagram.element? id = some (element.withData (combine how element.data data)) :=
    fun how hs => apply_changeData_ok helement ((hissues _).trans (s.check_eq_nil_iff.mpr hs))
  refine ⟨htakes mode, fun hs => ?_, fun hold hnew hordered => htakes .merge (hold.combine hnew hordered .merge)⟩
  rw [← hissues]
  refine apply_changeData_error helement fun hnone => hs (s.check_eq_nil_iff.mp ?_)
  rw [← hissues, hnone]

def formOfClass : Schema :=
  .object ⟨none, none⟩
    [("kind", .text ⟨none, none⟩ (some ["open", "final"]) none), ("size", .integer ⟨none, none⟩)]

/-- Classes have a form, and it is minded. -/
def strict : EditContext where
  language :=
    ⟨⟨"uml", "", 1, [], []⟩, [⟨"class", .node, "", .labelled "node" "", some formOfClass, none, [], none⟩], []⟩
  policy := .validate

def openClass : Node := ⟨"a", "class", .origin, none, .object [("kind", .string "open")]⟩

theorem distinct_formOfClass : formOfClass.Distinct := by
  have hflat : ∀ {seg s}, formOfClass.Below seg s → ∀ p c properties, ¬ s.Leads p (.object c properties) := by
    intro seg s hbelow p c properties hleads
    cases seg with
    | index => cases hbelow
    | field name =>
      rcases List.mem_pair.mp hbelow with heq | heq <;> obtain ⟨_, rfl⟩ := Prod.mk.inj heq <;> cases p <;>
        simp [Schema.Leads, Schema.Below] at hleads
  intro p c properties hleads
  cases p with
  | nil =>
    obtain ⟨_, rfl⟩ := Schema.object.inj hleads
    decide
  | cons seg p =>
    obtain ⟨s, hbelow, hrest⟩ := hleads
    exact absurd hrest (hflat hbelow p c properties)

/-- Neither the kind nor the size is what the form asks for. -/
def misshapen : Value := .object [("kind", .bool true), ("size", .string "large")]

theorem check_misshapen : formOfClass.check misshapen =
    [⟨[.field "kind"], .expected "a string" (.bool true)⟩,
     ⟨[.field "size"], .expected "an integer" (.string "large")⟩] := rfl

theorem sample_changeData_validated :
    ∃ d, Diagram.ofModel ⟨"sample", [openClass], []⟩ = .ok d ∧
      (∃ w', (changeData "a" (.object [("kind", .string "final")]) .merge).apply strict ⟨d, .start⟩ =
        (.ok .nothing, w')) ∧
      (changeData "a" misshapen .replace).apply strict ⟨d, .start⟩ =
        (.error (.schemaViolation "a" (formOfClass.check misshapen)), ⟨d, .start⟩) ∧
      formOfClass.Before [.field "kind"] [.field "size"] := by
  obtain ⟨d, hd, hfound⟩ : ∃ d, Diagram.ofModel ⟨"sample", [openClass], []⟩ = .ok d ∧
      d.element? "a" = some (.node openClass) := ⟨_, rfl, rfl⟩
  obtain ⟨hcheck, hchange⟩ := changeData_validated
  have hopen : formOfClass.Conforms openClass.data := (hcheck _ _).1.mp rfl
  have hfinal : formOfClass.Conforms (.object [("kind", .string "final")]) := (hcheck _ _).1.mp rfl
  have hmisshapen : ¬ formOfClass.Conforms misshapen := fun h => nomatch (hcheck _ _).1.mpr h
  have hordered : Value.Ordered (.object [("kind", .string "final")]) :=
    .object (List.pairwise_singleton _ _) (by simp [Value.Ordered.string])
  have hstrict := hchange strict ⟨d, .start⟩ "a" _ formOfClass rfl hfound rfl
  have horder := (hcheck _ misshapen).2.2 distinct_formOfClass
  rw [check_misshapen, List.pairwise_pair] at horder
  obtain ⟨w', hmerged, _⟩ := (hstrict _ .merge).2.2 hopen hfinal hordered
  exact ⟨d, hd, ⟨w', hmerged⟩, (hstrict _ .replace).2.1 hmisshapen, horder.1⟩

end Operation

end DiagramEditor
