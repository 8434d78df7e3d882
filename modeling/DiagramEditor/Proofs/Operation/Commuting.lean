import DiagramEditor.Proofs.Operation.Frame
import DiagramEditor.Proofs.Visual.Bindings

/-!
# Edits that commute

What an edit decides rests on nothing but which elements there are, on the index, and on the
part it is about. So two edits that are not about one part of one element may be made in
either order, and neither learns of the other.
-/

set_option autoImplicit false

namespace DiagramEditor

open Json

namespace Patch

variable {p q : Patch}

theorem onNode_of_ne {n : Node} (h : n.id ≠ p.place.1) : p.onNode n = n := by
  cases p <;> simp_all [onNode, place]

theorem onEdge_of_ne {e : Edge} (h : e.id ≠ p.place.1) : p.onEdge e = e := by
  cases p <;> simp_all [onEdge, place]

theorem onNode_comm (h : p.place ≠ q.place) (n : Node) : p.onNode (q.onNode n) = q.onNode (p.onNode n) := by
  by_cases hp : n.id = p.place.1
  · by_cases hq : n.id = q.place.1
    · -- two parts of one node
      cases p <;> cases q <;> simp_all [onNode, place, Diagram.Node.withBounds]
    · rw [onNode_of_ne hq, onNode_of_ne (p := q) (by rwa [id_onNode])]
  · rw [onNode_of_ne hp, onNode_of_ne (by rwa [id_onNode])]

theorem onEdge_comm (h : p.place ≠ q.place) (e : Edge) : p.onEdge (q.onEdge e) = q.onEdge (p.onEdge e) := by
  by_cases hp : e.id = p.place.1
  · by_cases hq : e.id = q.place.1
    · -- two parts of one edge
      cases p <;> cases q <;> simp_all [onEdge, place]
    · rw [onEdge_of_ne hq, onEdge_of_ne (p := q) (by rwa [id_onEdge])]
  · rw [onEdge_of_ne hp, onEdge_of_ne (by rwa [id_onEdge])]

@[simp] theorem tag_onElement (p : Patch) (e : Element) : (p.onElement e).tag = e.tag := by
  cases e with
  | node n => exact tag_onNode p n
  | edge e => exact tag_onEdge p e

@[simp] theorem kind_onElement (p : Patch) (e : Element) : (p.onElement e).kind = e.kind := by
  cases e <;> rfl

@[simp] theorem data_onElement_eq (p : Patch) (e : Element) (v : Value) : data (p.onElement e) v = data e v := by
  cases e with
  | node n => exact congrArg (nodeData · v) (id_onNode p n)
  | edge e => exact congrArg (edgeData · v) (id_onEdge p e)

/-- Data stays unless it is what is written. -/
theorem data_onElement {e : Element} (h : p.place ≠ (e.id, .data)) : (p.onElement e).data = e.data := by
  cases e with
  | node n =>
    cases p with
    | bounds id position size =>
      simp only [onElement, onNode]
      split <;> rfl
    | nodeData id v => simp [onElement, onNode, show n.id ≠ id from fun hid => h (hid ▸ rfl)]
    | _ => rfl
  | edge e =>
    cases p with
    | routing id points =>
      simp only [onElement, onEdge]
      split <;> rfl
    | edgeData id v => simp [onElement, onEdge, show e.id ≠ id from fun hid => h (hid ▸ rfl)]
    | _ => rfl

theorem on_comm (h : p.place ≠ q.place) (m : Model) : p.on (q.on m) = q.on (p.on m) := by
  simp only [on, List.map_map, Function.comp_def, onNode_comm h, onEdge_comm h]

end Patch

namespace Diagram

variable {d : Diagram}

theorem patchAll_patch {ps : List Patch} {q : Patch} (h : ∀ p ∈ ps, p.place ≠ q.place) :
    (d.patch q).patchAll ps = (d.patchAll ps).patch q := by
  induction ps generalizing d with
  | nil => rfl
  | cons p ps ih =>
    have hswap : (d.patch q).patch p = (d.patch p).patch q :=
      congrArg (Diagram.mk · d.index) (Patch.on_comm (h p List.mem_cons_self) d.model)
    show ((d.patch q).patch p).patchAll ps = _
    rw [hswap, ih fun p hp => h p (List.mem_cons_of_mem _ hp)]
    rfl

/-- Patches to different places may be made in either order. -/
theorem patchAll_comm {ps qs : List Patch} (h : ∀ p ∈ ps, ∀ q ∈ qs, p.place ≠ q.place) :
    (d.patchAll qs).patchAll ps = (d.patchAll ps).patchAll qs := by
  induction qs generalizing d with
  | nil => rfl
  | cons q qs ih =>
    show ((d.patch q).patchAll qs).patchAll ps = ((d.patchAll ps).patch q).patchAll qs
    rw [ih fun p hp q hq => h p hp q (List.mem_cons_of_mem _ hq)]
    rw [patchAll_patch fun p hp => h p hp q List.mem_cons_self]

end Diagram

namespace Operation

open Edit Diagram

variable {op op' : Operation} {c : EditContext} {d : Diagram} {w : Workspace}

/-- The elements an operation is about. -/
def Targets (op : Operation) (d : Diagram) (id : ElementId) : Prop := ∃ part, op.isAbout d id part

/-! ### What a decision rests on -/

/-- Nothing that is written makes an element come or go. -/
theorem planEach_patch {α : Type} {found : Model → ElementId → Bool} {element : α → ElementId} {patch : α → Patch}
    (hfound : ∀ (p : Patch) m id, found (p.on m) id = found m id) (changes : List α) (d : Diagram)
    (p : Patch) : planEach found element patch changes (d.patch p) = planEach found element patch changes d := by
  have hsame : found (d.patch p).model = found d.model := funext (hfound p d.model)
  rw [planEach, planEach, hsame]

theorem labelTarget?_patch (d : Diagram) (p : Patch) (label : String) :
    labelTarget? (d.patch p) label = (labelTarget? d label).map fun t => (p.onElement t.1, t.2) := by
  have hindex : (d.patch p).index = d.index := rfl
  rw [labelTarget?, labelTarget?, hindex]
  simp only [element?_patch, Option.bind_eq_bind, Option.map_bind, Option.bind_map, Function.comp_def, Option.pure_def,
    Option.map_some]

/-- A decision stands when something else is written. -/
theorem plan_patch (hop : op.isEdit = true) {p : Patch} (h : ¬ op.isAbout d p.place.1 p.place.2) :
    op.plan c (d.patch p) = op.plan c d := by
  cases op with
  | changeBounds bounds => exact planEach_patch Patch.hasNode_on bounds d p
  | changeRouting routings => exact planEach_patch Patch.hasEdge_on routings d p
  | editLabel label text =>
    rw [plan, plan, labelTarget?_patch]
    cases htarget : labelTarget? d label with
    | none => rfl
    | some target =>
      obtain ⟨e, path⟩ := target
      have hdata : (p.onElement e).data = e.data := Patch.data_onElement fun hplace => h (by
        rw [hplace]
        exact (owner_of_labelTarget? htarget).1)
      simp only [Option.map_some, planLabel, hdata, Patch.data_onElement_eq]
  | changeData id data mode =>
    rw [plan, plan, element?_patch]
    cases he : d.element? id with
    | none => rfl
    | some e =>
      have hdata : (p.onElement e).data = e.data := Patch.data_onElement fun hplace => h (by
        rw [hplace]
        exact id_of_element? he)
      have hissues : dataIssues c (p.onElement e) = dataIssues c e := by
        funext data
        simp only [dataIssues, Patch.kind_onElement, Patch.tag_onElement]
      simp only [Option.map_some, planData, hdata, hissues, Patch.data_onElement_eq]
  | _ => cases hop

theorem isAbout_patch (p : Patch) : op.isAbout (d.patch p) = op.isAbout d := by
  cases op <;> rfl

theorem plan_patchAll (hop : op.isEdit = true) {ps : List Patch} (h : ∀ p ∈ ps, ¬ op.isAbout d p.place.1 p.place.2) :
    op.plan c (d.patchAll ps) = op.plan c d := by
  induction ps generalizing d with
  | nil => rfl
  | cons p ps ih =>
    have hrest : ∀ q ∈ ps, ¬ op.isAbout (d.patch p) q.place.1 q.place.2 := fun q hq => by
      rw [isAbout_patch]
      exact h q (List.mem_cons_of_mem _ hq)
    exact (ih hrest).trans (plan_patch hop (h p List.mem_cons_self))

/-! ### Two edits -/

/-- Made in either order, two operations get the answers they would have got alone, and leave the same. -/
structure Commute (c : EditContext) (w : Workspace) (op op' : Operation) : Prop where
  first : (op.apply c (op'.apply c w).2).1 = (op.apply c w).1
  second : (op'.apply c (op.apply c w).2).1 = (op'.apply c w).1
  left : (op'.apply c (op.apply c w).2).2 = (op.apply c (op'.apply c w).2).2

theorem commute_of_apart (hop : op.isEdit = true) (hop' : op'.isEdit = true)
    (hapart : ∀ id part, op.isAbout w.diagram id part → ¬ op'.isAbout w.diagram id part) : Commute c w op op' := by
  have hplan : op.plan c (w.diagram.patchAll (written (op'.plan c w.diagram))) = op.plan c w.diagram :=
    plan_patchAll hop fun p hp habout => hapart _ _ habout (isAbout_of_plan p hp)
  have hplan' : op'.plan c (w.diagram.patchAll (written (op.plan c w.diagram))) = op'.plan c w.diagram :=
    plan_patchAll hop' fun p hp => hapart _ _ (isAbout_of_plan p hp)
  have hplaces : ∀ q ∈ written (op'.plan c w.diagram), ∀ p ∈ written (op.plan c w.diagram), q.place ≠ p.place :=
    fun q hq p hp hplace => hapart _ _ (isAbout_of_plan p hp) (hplace ▸ isAbout_of_plan q hq)
  refine ⟨?_, ?_, ?_⟩ <;> simp only [apply_eq_carryOut hop, apply_eq_carryOut hop', carryOut, hplan, hplan']
  rw [patchAll_comm hplaces]

/-- Edits of different elements may be made in either order, refused or not: each is answered as if it
were alone, and model and index come out the same. So may new bounds and new data, also of the same node. -/
theorem edits_commute (c : EditContext) (w : Workspace) :
    (∀ op op' : Operation, op.isEdit = true → op'.isEdit = true →
      (∀ id, op.Targets w.diagram id → ¬ op'.Targets w.diagram id) → Commute c w op op') ∧
      ∀ bounds id data mode, Commute c w (changeBounds bounds) (changeData id data mode) := by
  refine ⟨fun op op' hop hop' hapart => ?_, fun bounds id data mode => ?_⟩
  · exact commute_of_apart hop hop' fun id part h h' => hapart id ⟨part, h⟩ ⟨part, h'⟩
  · refine commute_of_apart rfl rfl fun place part h h' => ?_
    cases part with
    | bounds => exact h'
    | routing => exact h
    | ends => exact h
    | data => exact h

/-- A class with the label of an attribute, and a node beside it. -/
def labelled : Diagram :=
  (empty "sample").after
    [.insertNode .sample, .insertNode ⟨"m", "", .origin, none, .emptyObject⟩, .render .sample]

/-- The label of the class is edited and the node is moved twice; then the class is moved and given other
data. -/
theorem sample_edits_commute :
    labelled.Reachable ∧
      ((editLabel "n_child0_group0_attribute1" "c").apply ⟨.sample, .permissive⟩ ⟨labelled, .start⟩).1.isOk = true ∧
      Commute ⟨.sample, .permissive⟩ ⟨labelled, .start⟩
        (changeBounds [⟨"m", some ⟨1, 2⟩, none⟩, ⟨"m", some ⟨3, 4⟩, none⟩])
        (editLabel "n_child0_group0_attribute1" "c") ∧
      Commute ⟨.sample, .permissive⟩ ⟨labelled, .start⟩
        (changeBounds [⟨"n", some ⟨1, 2⟩, none⟩]) (changeData "n" (.string "A") .replace) := by
  have howner : labelled.index.nearest? "n_child0_group0_attribute1" = some "n" := by decide +kernel
  obtain ⟨hapart, hsame⟩ := edits_commute ⟨.sample, .permissive⟩ ⟨labelled, .start⟩
  refine ⟨⟨_, _, .empty "sample", rfl⟩, by decide +kernel, hapart _ _ rfl rfl ?_, hsame _ _ _ _⟩
  rintro id ⟨part, h⟩ ⟨part', h'⟩
  have hmoved : id = "m" := by
    cases part with
    | bounds => simpa [isAbout] using h
    | _ => exact h.elim
  have hedited : id = "n" := by
    cases part' with
    | data => exact Option.some.inj (h'.symm.trans howner)
    | _ => exact h'.elim
  exact absurd (hmoved.symm.trans hedited) (by decide)

end Operation

end DiagramEditor
