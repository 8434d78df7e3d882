import DiagramEditor.Proofs.Diagram.Effects
import DiagramEditor.Proofs.Operation.Cut
import DiagramEditor.Proofs.Operation.EditLabel
import DiagramEditor.Proofs.Operation.Refusal

/-!
# What an operation leaves alone

An operation that is carried out tells what it has made and what it has removed. All other
elements stay in their order, before the new ones, and are what they were but for the part
of them the operation is about.
-/

set_option autoImplicit false

namespace DiagramEditor

open Json

/-- The same node, but for the parts that are free. -/
structure Node.SameBut (free : Part → Prop) (n n' : Node) : Prop where
  id : n'.id = n.id
  tag : n'.tag = n.tag
  bounds : ¬ free .bounds → n'.position = n.position ∧ n'.size = n.size
  data : ¬ free .data → n'.data = n.data

/-- The same edge, but for the parts that are free. -/
structure Edge.SameBut (free : Part → Prop) (e e' : Edge) : Prop where
  id : e'.id = e.id
  tag : e'.tag = e.tag
  ends : ¬ free .ends → e'.source = e.source ∧ e'.target = e.target
  routing : ¬ free .routing → e'.routing = e.routing
  data : ¬ free .data → e'.data = e.data

namespace Node.SameBut

variable {free : Part → Prop} {n n' n'' : Node}

theorem refl (n : Node) : n.SameBut free n := ⟨rfl, rfl, fun _ => ⟨rfl, rfl⟩, fun _ => rfl⟩

theorem trans (h : n.SameBut free n') (h' : n'.SameBut free n'') : n.SameBut free n'' where
  id := h'.id.trans h.id
  tag := h'.tag.trans h.tag
  bounds hb := ⟨(h'.bounds hb).1.trans (h.bounds hb).1, (h'.bounds hb).2.trans (h.bounds hb).2⟩
  data hd := (h'.data hd).trans (h.data hd)

/-- A patch changes nothing but what it is to. -/
theorem patch {free : ElementId → Part → Prop} {p : Patch} (h : free p.place.1 p.place.2) (n : Node) :
    n.SameBut (free n.id) (p.onNode n) := by
  cases p with
  | bounds id position size =>
    simp only [Patch.onNode]
    split
    · rename_i hid
      obtain rfl := eq_of_beq hid
      exact ⟨rfl, rfl, fun hb => absurd h hb, fun _ => rfl⟩
    · exact .refl n
  | nodeData id v =>
    simp only [Patch.onNode]
    split
    · rename_i hid
      obtain rfl := eq_of_beq hid
      exact ⟨rfl, rfl, fun _ => ⟨rfl, rfl⟩, fun hd => absurd h hd⟩
    · exact .refl n
  | _ => exact .refl n

end Node.SameBut

namespace Edge.SameBut

variable {free : Part → Prop} {e e' e'' : Edge}

theorem refl (e : Edge) : e.SameBut free e := ⟨rfl, rfl, fun _ => ⟨rfl, rfl⟩, fun _ => rfl, fun _ => rfl⟩

theorem trans (h : e.SameBut free e') (h' : e'.SameBut free e'') : e.SameBut free e'' where
  id := h'.id.trans h.id
  tag := h'.tag.trans h.tag
  ends he := ⟨(h'.ends he).1.trans (h.ends he).1, (h'.ends he).2.trans (h.ends he).2⟩
  routing hr := (h'.routing hr).trans (h.routing hr)
  data hd := (h'.data hd).trans (h.data hd)

theorem patch {free : ElementId → Part → Prop} {p : Patch} (h : free p.place.1 p.place.2) (e : Edge) :
    e.SameBut (free e.id) (p.onEdge e) := by
  cases p with
  | routing id points =>
    simp only [Patch.onEdge]
    split
    · rename_i hid
      obtain rfl := eq_of_beq hid
      exact ⟨rfl, rfl, fun _ => ⟨rfl, rfl⟩, fun hr => absurd h hr, fun _ => rfl⟩
    · exact .refl e
  | edgeData id v =>
    simp only [Patch.onEdge]
    split
    · rename_i hid
      obtain rfl := eq_of_beq hid
      exact ⟨rfl, rfl, fun _ => ⟨rfl, rfl⟩, fun _ => rfl, fun hd => absurd h hd⟩
    · exact .refl e
  | _ => exact .refl e

end Edge.SameBut

namespace Model

/-- The same elements in the same order, but for the parts of them that are free. -/
structure SameBut (free : ElementId → Part → Prop) (m m' : Model) : Prop where
  id : m'.id = m.id
  nodes : List.Forall₂ (fun n n' => n.SameBut (free n.id) n') m.nodes m'.nodes
  edges : List.Forall₂ (fun e e' => e.SameBut (free e.id) e') m.edges m'.edges

/-- What is left without the elements of these ids. -/
def dropping (m : Model) (gone : List ElementId) : Model :=
  { m with nodes := m.nodes.filter (·.id ∉ gone), edges := m.edges.filter (·.id ∉ gone) }

/-- The model with more elements after those it has. -/
def adding (m : Model) (nodes : List Node) (edges : List Edge) : Model :=
  { m with nodes := m.nodes ++ nodes, edges := m.edges ++ edges }

theorem dropping_nil (m : Model) : m.dropping [] = m := by simp [dropping]

theorem adding_nil (m : Model) : m.adding [] [] = m := by simp [adding]

theorem mem_ids_dropping {m : Model} {gone : List ElementId} {id : ElementId} :
    id ∈ (m.dropping gone).ids ↔ id ∈ m.ids ∧ id ∉ gone := by
  simp only [ids, nodeIds, edgeIds, dropping, List.mem_append, List.mem_map, List.mem_filter, decide_eq_true_eq]
  constructor
  · rintro (⟨n, ⟨hn, hid⟩, rfl⟩ | ⟨e, ⟨he, hid⟩, rfl⟩)
    · exact ⟨.inl ⟨n, hn, rfl⟩, hid⟩
    · exact ⟨.inr ⟨e, he, rfl⟩, hid⟩
  · rintro ⟨⟨n, hn, rfl⟩ | ⟨e, he, rfl⟩, hid⟩
    · exact .inl ⟨n, ⟨hn, hid⟩, rfl⟩
    · exact .inr ⟨e, ⟨he, hid⟩, rfl⟩

theorem ids_adding_perm (m : Model) (nodes : List Node) (edges : List Edge) :
    (m.adding nodes edges).ids.Perm (m.ids ++ (nodes.map Node.id ++ edges.map Edge.id)) := by
  rw [ids, ids, nodeIds, edgeIds, adding, List.map_append, List.map_append, List.append_assoc, List.append_assoc]
  refine List.Perm.append_left _ ?_
  rw [← List.append_assoc, ← List.append_assoc]
  exact List.perm_append_comm.append_right _

end Model

/-- A relation that holds step by step holds from the first to the last. -/
theorem forall₂_trans_of {α β : Type} (key : α → β) {R : β → α → α → Prop}
    (hkey : ∀ {b a a'}, R b a a' → key a' = key a) (htrans : ∀ {b a a' a''}, R b a a' → R b a' a'' → R b a a'')
    {l l' l'' : List α} (h : List.Forall₂ (fun a a' => R (key a) a a') l l')
    (h' : List.Forall₂ (fun a a' => R (key a) a a') l' l'') : List.Forall₂ (fun a a' => R (key a) a a') l l'' := by
  induction h generalizing l'' with
  | nil => exact h'
  | cons hfirst _ ih =>
    cases h' with
    | cons hnext hrest => exact .cons (htrans hfirst (hkey hfirst ▸ hnext)) (ih hrest)

namespace Model.SameBut

variable {free : ElementId → Part → Prop} {m m' m'' : Model}

theorem refl (m : Model) : m.SameBut free m :=
  ⟨rfl, List.forall₂_same.mpr fun n _ => .refl n, List.forall₂_same.mpr fun e _ => .refl e⟩

theorem trans (h : m.SameBut free m') (h' : m'.SameBut free m'') : m.SameBut free m'' where
  id := h'.id.trans h.id
  nodes := forall₂_trans_of (R := fun id => Node.SameBut (free id)) Node.id (fun h => h.id) (fun h h' => h.trans h')
    h.nodes h'.nodes
  edges := forall₂_trans_of (R := fun id => Edge.SameBut (free id)) Edge.id (fun h => h.id) (fun h h' => h.trans h')
    h.edges h'.edges

theorem patch {p : Patch} (h : free p.place.1 p.place.2) (m : Model) : m.SameBut free (p.on m) where
  id := rfl
  nodes := by
    rw [Patch.on, List.forall₂_map_right_iff, List.forall₂_same]
    exact fun n _ => .patch h n
  edges := by
    rw [Patch.on, List.forall₂_map_right_iff, List.forall₂_same]
    exact fun e _ => .patch h e

/-- A change of the edge of an id, of nothing but what is free. -/
theorem updateEdge {id : ElementId} {f : Edge → Edge} (hf : ∀ e : Edge, e.SameBut (free id) (f e)) (m : Model) :
    m.SameBut free (m.updateEdge id f) where
  id := rfl
  nodes := List.forall₂_same.mpr fun n _ => .refl n
  edges := by
    rw [Model.updateEdge, List.forall₂_map_right_iff, List.forall₂_same]
    intro e _
    by_cases hid : e.id = id
    · subst hid
      simpa using hf e
    · simpa [hid] using Edge.SameBut.refl e

theorem nodeIds_eq (h : m.SameBut free m') : m'.nodeIds = m.nodeIds := by
  have hids : List.Forall₂ (fun n n' : Node => n'.id = n.id) m.nodes m'.nodes := h.nodes.imp fun _ _ hn => hn.id
  rw [nodeIds, nodeIds, ← List.forall₂_eq_eq_eq, List.forall₂_map_left_iff, List.forall₂_map_right_iff]
  exact hids.flip

theorem edgeIds_eq (h : m.SameBut free m') : m'.edgeIds = m.edgeIds := by
  have hids : List.Forall₂ (fun e e' : Edge => e'.id = e.id) m.edges m'.edges := h.edges.imp fun _ _ he => he.id
  rw [edgeIds, edgeIds, ← List.forall₂_eq_eq_eq, List.forall₂_map_left_iff, List.forall₂_map_right_iff]
  exact hids.flip

theorem ids_eq (h : m.SameBut free m') : m'.ids = m.ids := by rw [ids, ids, h.nodeIds_eq, h.edgeIds_eq]

end Model.SameBut

namespace Operation

open Edit Diagram

/-- The part of an element that an operation is about. -/
def isAbout (d : Diagram) : Operation → ElementId → Part → Prop
  | changeBounds bounds, id, .bounds => id ∈ bounds.map (·.element)
  | changeRouting routings, id, .routing => id ∈ routings.map (·.element)
  | reconnectEdge edge _ _, id, .ends => id = edge
  | changeData element _ _, id, .data => id = element
  | editLabel label _, id, .data => d.index.nearest? label = some id
  | refreshShowcase, id, .data => id = showcaseId
  | _, _, _ => False

/-- What is told of a change from one model to the next. -/
structure Accounts (free : ElementId → Part → Prop) (m new : Model) (out : Outcome) : Prop where
  created : ∀ id, id ∈ out.created ↔ id ∈ new.ids ∧ id ∉ m.ids
  removed : ∀ id, id ∈ out.removed ↔ id ∈ m.ids ∧ id ∉ new.ids
  created_once : out.created.Nodup
  removed_once : out.removed.Nodup
  stays : ∃ kept nodes edges, (m.dropping out.removed).SameBut free kept ∧ new = kept.adding nodes edges ∧
    out.created = nodes.map Node.id ++ edges.map Edge.id

namespace Accounts

variable {free : ElementId → Part → Prop} {m new : Model}

/-- When no id is given twice in the new model, its elements tell what was created. -/
theorem of_stays {out : Outcome} (kept : Model) (nodes : List Node) (edges : List Edge) (hnew : new.ids.Nodup)
    (hgone : ∀ id ∈ out.removed, id ∈ m.ids) (honce : out.removed.Nodup)
    (hapart : ∀ id ∈ out.removed, id ∉ out.created) (hkept : (m.dropping out.removed).SameBut free kept)
    (hn : new = kept.adding nodes edges) (hc : out.created = nodes.map Node.id ++ edges.map Edge.id) :
    Accounts free m new out := by
  have hperm : new.ids.Perm (kept.ids ++ out.created) := by
    rw [hn, hc]
    exact kept.ids_adding_perm nodes edges
  obtain ⟨_, hcreated, hdisjoint⟩ := List.nodup_append.mp (hperm.nodup_iff.mp hnew)
  have hmem : ∀ id, id ∈ new.ids ↔ (id ∈ m.ids ∧ id ∉ out.removed) ∨ id ∈ out.created := fun id => by
    rw [hperm.mem_iff, List.mem_append, hkept.ids_eq, Model.mem_ids_dropping]
  have hfresh : ∀ id ∈ out.created, id ∉ m.ids := by
    intro id hid hold
    by_cases hr : id ∈ out.removed
    · exact hapart id hr hid
    · exact hdisjoint id (hkept.ids_eq ▸ Model.mem_ids_dropping.mpr ⟨hold, hr⟩) id hid rfl
  refine ⟨fun id => ?_, fun id => ?_, hcreated, honce, kept, nodes, edges, hkept, hn, hc⟩
  · rw [hmem]
    have := hfresh id
    tauto
  · rw [hmem]
    have := hgone id
    have := hapart id
    tauto

/-- Elements have changed, none has come or gone. -/
theorem of_sameBut (hnew : new.ids.Nodup) (h : m.SameBut free new) : Accounts free m new .nothing :=
  of_stays new [] [] hnew (fun _ hid => nomatch hid) List.nodup_nil (fun _ hid => nomatch hid)
    (by rw [Outcome.nothing, Model.dropping_nil]; exact h) (Model.adding_nil _).symm rfl

/-- Elements have come, and all others are as they were. -/
theorem of_adding (nodes : List Node) (edges : List Edge) (hnew : new.ids.Nodup) (h : new = m.adding nodes edges) :
    Accounts free m new { Outcome.nothing with created := nodes.map Node.id ++ edges.map Edge.id } :=
  of_stays m nodes edges hnew (fun _ hid => nomatch hid) List.nodup_nil (fun _ hid => nomatch hid)
    (by rw [Outcome.nothing, Model.dropping_nil]; exact .refl m) h rfl

/-- Elements have gone, and all others are as they were. -/
theorem of_loses {ids removed : List ElementId} (hm : m.Closed) (h : m.Loses ids removed) (hn : new = m.without ids)
    (clipboard : Option Clipboard) : Accounts free m new ⟨[], removed, clipboard⟩ := by
  have hdrop : m.without ids = m.dropping removed := h.without_eq hm
  refine of_stays (m.dropping removed) [] [] (hn ▸ (hm.without ids).ids) (fun id hid => ((h.lost id).mp hid).1) h.nodup
    (fun _ _ hid => nomatch hid) (.refl _) ?_ rfl
  rw [hn, hdrop, Model.adding_nil]

end Accounts

/-! ### Edits -/

variable {d d' : Diagram} {free : ElementId → Part → Prop} {id : ElementId}

theorem sameBut_patchAll {ps : List Patch} (h : ∀ p ∈ ps, free p.place.1 p.place.2) :
    d.model.SameBut free (d.patchAll ps).model := by
  induction ps generalizing d with
  | nil => exact .refl _
  | cons p ps ih =>
    have hfirst : d.model.SameBut free (d.patch p).model := .patch (h p List.mem_cons_self) d.model
    exact hfirst.trans (ih fun q hq => h q (List.mem_cons_of_mem _ hq))

theorem sameBut_setData {data : Value} (hfree : free id .data) (hd : d.setData id data = .ok d') :
    d.model.SameBut free d'.model := by
  cases he : d.element? id with
  | none =>
    rw [setData, he] at hd
    cases hd
  | some e =>
    rw [setData_eq_patch he] at hd
    obtain rfl := Except.ok.inj hd
    refine .patch ?_ d.model
    rw [Patch.place_data, id_of_element? he]
    exact hfree

/-- An edit writes to nothing but what it is about. -/
theorem isAbout_of_plan {op : Operation} {c : EditContext} : ∀ p ∈ written (op.plan c d), op.isAbout d p.place.1 p.place.2 := by
  intro p hp
  cases hplan : op.plan c d with
  | error e => simp [hplan, written] at hp
  | ok ps =>
    replace hp : p ∈ ps := by simpa [hplan, written] using hp
    cases op with
    | changeBounds bounds =>
      rw [of_planEach hplan, List.mem_map] at hp
      obtain ⟨b, hb, rfl⟩ := hp
      exact List.mem_map_of_mem hb
    | changeRouting routings =>
      rw [of_planEach hplan, List.mem_map] at hp
      obtain ⟨r, hr, rfl⟩ := hp
      exact List.mem_map_of_mem hr
    | editLabel label text =>
      obtain ⟨e, path, v, htarget, rfl⟩ := of_planLabel hplan
      rw [List.mem_singleton.mp hp, Patch.place_data]
      exact (owner_of_labelTarget? htarget).1
    | changeData id data mode =>
      obtain ⟨e, v, he, rfl⟩ := of_planData hplan
      rw [List.mem_singleton.mp hp, Patch.place_data]
      exact id_of_element? he
    | _ =>
      obtain rfl := Except.ok.inj hplan
      cases hp

/-! ### The operations -/

variable {w w' : Workspace} {out : Outcome}

theorem accounts_createNode (h : w.diagram.InStep) (h' : w'.diagram.InStep) {l : Language} {tag : TypeTag}
    {location : Option Point} (hop : (runCreateNode l tag location).on w = (.ok out, w')) :
    Accounts free w.diagram.model w'.diagram.model out := by
  rw [runCreateNode] at hop
  obtain ⟨type, _, hop⟩ := of_on_ofExcept_bind hop
  rw [on_bind_ok (on_freshId w), on_bind_ok (on_diagram _)] at hop
  obtain ⟨hd, rfl⟩ := of_on_change_pure hop
  have hmodel := (h.inserted_node hd).1
  rw [Model.addNode, ← List.append_nil w.diagram.model.edges] at hmodel
  -- the outcome is compared last: before the node is known this would compute its id
  have hmade : Accounts free w.diagram.model w'.diagram.model _ := .of_adding [_] [] h'.closed.ids hmodel
  exact hmade

theorem accounts_createEdge (h : w.diagram.InStep) (h' : w'.diagram.InStep) {l : Language} {tag : TypeTag}
    {source target : ElementId} (hop : (runCreateEdge l tag source target).on w = (.ok out, w')) :
    Accounts free w.diagram.model w'.diagram.model out := by
  rw [runCreateEdge] at hop
  obtain ⟨type, _, hop⟩ := of_on_ofExcept_bind hop
  rw [on_bind_ok (on_freshId w), on_bind_ok (on_diagram _)] at hop
  obtain ⟨hd, rfl⟩ := of_on_change_pure hop
  have hmodel := (h.inserted_edge hd).1
  rw [Model.addEdge, ← List.append_nil w.diagram.model.nodes] at hmodel
  have hmade : Accounts free w.diagram.model w'.diagram.model _ := .of_adding [] [_] h'.closed.ids hmodel
  exact hmade

theorem accounts_delete (h : w.diagram.InStep) {ids : List ElementId} (hop : (runDelete ids).on w = (.ok out, w'))
    (clipboard : Option Clipboard) :
    Accounts free w.diagram.model w'.diagram.model { out with clipboard := clipboard } := by
  have hids : ∀ id ∈ ids, id ∈ w.diagram.model.ids := by
    rw [runDelete, on_bind_ok (on_diagram w)] at hop
    exact fun id hid => h.isSome_element?_iff.mp ((of_on_require_bind hop).1 id hid)
  obtain ⟨d, removed, hdelete, hd⟩ := on_runDelete h hids
  obtain ⟨hout, rfl⟩ := Prod.mk.inj (hdelete.symm.trans hop)
  obtain rfl := Except.ok.inj hout
  exact .of_loses h.closed hd.loses hd.model clipboard

theorem accounts_cut (h : w.diagram.InStep) {ids : List ElementId} (hop : (runCut ids).on w = (.ok out, w')) :
    Accounts free w.diagram.model w'.diagram.model out := by
  rw [runCut, on_bind_ok (on_diagram w)] at hop
  obtain ⟨f, _, hop⟩ := of_on_ofExcept_bind hop
  obtain ⟨gone, w₁, hdelete, hop⟩ := of_on_bind hop
  obtain ⟨rfl, rfl⟩ : { gone with clipboard := some f.encode } = out ∧ w₁ = w' := by simpa using hop
  exact accounts_delete h hdelete _

theorem accounts_edit {op : Operation} (hedit : op.isEdit = true) (h' : w'.diagram.InStep) {c : EditContext}
    (hop : (op.run c).on w = (.ok out, w')) :
    Accounts (op.isAbout w.diagram) w.diagram.model w'.diagram.model out := by
  have hrun : (op.run c).on w = carryOut w (op.plan c w.diagram) := apply_eq_carryOut hedit c w
  obtain ⟨hout, rfl⟩ := Prod.mk.inj (hrun.symm.trans hop)
  cases hplan : op.plan c w.diagram with
  | error e =>
    rw [hplan] at hout
    cases hout
  | ok ps =>
    rw [hplan] at hout
    obtain rfl := Except.ok.inj hout
    exact .of_sameBut (hplan ▸ h'.closed.ids) (hplan ▸ sameBut_patchAll isAbout_of_plan)

theorem accounts_reconnect (h : w.diagram.InStep) (h' : w'.diagram.InStep) {edge source target : ElementId}
    (hfree : free edge .ends)
    (hop : (attempt (relink edge source target) >>= fun _ => pure Outcome.nothing).on w = (.ok out, w')) :
    Accounts free w.diagram.model w'.diagram.model out := by
  have hsame : ∀ e : Edge, e.SameBut (free edge) { e with source := source, target := target } := fun e =>
    ⟨rfl, rfl, fun he => absurd hfree he, fun _ => rfl, fun _ => rfl⟩
  obtain ⟨_, w₁, hrelink, hop⟩ := of_on_bind hop
  obtain ⟨rfl, rfl⟩ : Outcome.nothing = out ∧ w₁ = w' := by simpa using hop
  rw [on_attempt] at hrelink
  obtain ⟨hok, rfl⟩ := Prod.mk.inj hrelink
  refine .of_sameBut h'.closed.ids ?_
  show w.diagram.model.SameBut free (w.diagram.relink edge source target).2.model
  rw [(h.relinked hok).1]
  exact .updateEdge hsame _

theorem accounts_setData (h' : w'.diagram.InStep) {data : Value} (hfree : free id .data)
    (hop : (change (setData id data) >>= fun _ => pure Outcome.nothing).on w = (.ok out, w')) :
    Accounts free w.diagram.model w'.diagram.model out := by
  obtain ⟨hd, rfl⟩ := of_on_change_pure hop
  exact .of_sameBut h'.closed.ids (sameBut_setData hfree hd)

theorem accounts_refreshShowcase (h' : w'.diagram.InStep) {l : Language} (hfree : free showcaseId .data)
    (hop : (runRefreshShowcase l).on w = (.ok out, w')) :
    Accounts free w.diagram.model w'.diagram.model out := by
  rw [runRefreshShowcase, on_bind_ok (on_diagram w)] at hop
  cases he : w.diagram.element? showcaseId with
  | none => simp [he] at hop
  | some element =>
    simp only [he] at hop
    obtain ⟨type, _, hop⟩ := of_on_ofExcept_bind hop
    exact accounts_setData h' hfree hop

theorem accounts_paste (h : w.diagram.InStep) (h' : w'.diagram.InStep) {clipboard : Clipboard}
    {location : Option Point} (hop : (runPaste clipboard location).on w = (.ok out, w')) :
    Accounts free w.diagram.model w'.diagram.model out := by
  rw [runPaste] at hop
  obtain ⟨f, _, hop⟩ := of_on_ofExcept_bind hop
  rw [on_bind_ok (on_instantiate f location w)] at hop
  generalize (f.instantiate w.diagram.model.hasNode location w.ids).1 = fresh at hop
  obtain ⟨_, w₁, hnodes, hop⟩ := of_on_bind hop
  obtain ⟨_, w₂, hedges, hop⟩ := of_on_bind hop
  obtain ⟨rfl, rfl⟩ : { Outcome.nothing with created := fresh.ids } = out ∧ w₂ = w' := by simpa using hop
  -- the nodes first, then the edges, each put after those before it
  obtain ⟨hstep, hmodel⟩ := of_on_changeEach
    (P := fun done d => d.InStep ∧ d.model = w.diagram.model.adding done [])
    (fun n _ done d d' hd hins => by
      refine ⟨hd.1.of_insertNode hins, ?_⟩
      rw [(hd.1.inserted_node hins).1, hd.2, Model.addNode, Model.adding, Model.adding, List.append_assoc])
    hnodes [] ⟨h, (Model.adding_nil _).symm⟩
  obtain ⟨_, hlast⟩ := of_on_changeEach
    (P := fun done d => d.InStep ∧ d.model = w.diagram.model.adding fresh.nodes done)
    (fun e _ done d d' hd hins => by
      refine ⟨hd.1.of_insertEdge hins, ?_⟩
      rw [(hd.1.inserted_edge hins).1, hd.2, Model.addEdge, Model.adding, Model.adding, List.append_assoc])
    hedges [] ⟨hstep, hmodel⟩
  exact .of_adding fresh.nodes fresh.edges h'.closed.ids hlast

/-- Every operation accounts for what it does, and is about no more than it says. -/
theorem accounts_run (h : w.diagram.InStep) (c : EditContext) (op : Operation)
    (hop : (op.run c).on w = (.ok out, w')) :
    Accounts (op.isAbout w.diagram) w.diagram.model w'.diagram.model out := by
  have h' : w'.diagram.InStep := by
    have hkept := keeps_run c op w h
    rwa [hop] at hkept
  cases op with
  | createNode tag location => exact accounts_createNode h h' hop
  | createEdge tag source target => exact accounts_createEdge h h' hop
  | deleteElements ids => exact accounts_delete h hop out.clipboard
  | changeBounds bounds => exact accounts_edit rfl h' hop
  | changeRouting routings => exact accounts_edit rfl h' hop
  | reconnectEdge edge source target => exact accounts_reconnect h h' rfl hop
  | editLabel label text => exact accounts_edit rfl h' hop
  | changeData element data mode => exact accounts_edit rfl h' hop
  | cut ids => exact accounts_cut h hop
  | paste clipboard location => exact accounts_paste h h' hop
  | refreshShowcase => exact accounts_refreshShowcase h' rfl hop

/-- After an operation that is carried out, created are just the elements that were not there before,
in the order in which they came, and removed those that are there no more. The others are what and
where they were, but for the part the operation is about. -/
theorem accounts_apply {d : Diagram} (h : d.Reachable) (op : Operation) (c : EditContext) (s : IdSupply)
    {out : Outcome} {w : Workspace} (hop : op.apply c ⟨d, s⟩ = (.ok out, w)) :
    Accounts (op.isAbout d) d.model w.diagram.model out :=
  accounts_run (w := ⟨d, s⟩) (InStep.of_reachable h) c op hop

/-- With the node `a` its edges go, each once, and the node `b` stays. -/
theorem sample_accounts_delete :
    sample.Reachable ∧ ∃ w, (deleteElements ["a", "ab"]).apply plain ⟨sample, .start⟩ =
        (.ok ⟨[], ["a", "aa", "ab"], none⟩, w) ∧
      Accounts ((deleteElements ["a", "ab"]).isAbout sample) sample.model w.diagram.model
        ⟨[], ["a", "aa", "ab"], none⟩ := by
  have h : sample.Reachable := ⟨sample, [], start_sample, rfl⟩
  have hop : (deleteElements ["a", "ab"]).apply plain ⟨sample, .start⟩ =
      (.ok ⟨[], ["a", "aa", "ab"], none⟩, ((deleteElements ["a", "ab"]).apply plain ⟨sample, .start⟩).2) := rfl
  exact ⟨h, _, hop, accounts_apply h _ plain .start hop⟩

end Operation

end DiagramEditor
