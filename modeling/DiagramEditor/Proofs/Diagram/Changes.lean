import DiagramEditor.Proofs.Diagram.InStep

/-!
# Changes of a diagram

Each change that a diagram in step allows leaves it in step, and what becomes of the
model is told in terms of the model alone. New ends of an edge are checked before the
model is touched, and the index takes whatever has passed that check.
-/

set_option autoImplicit false

namespace DiagramEditor

namespace Diagram

variable {d : Diagram}

/-- A diagram of a model is that model, with the index built for it. -/
theorem of_ofModel_ok {m : Model} (hd : ofModel m = .ok d) :
    m.check = .ok () ∧ Index.build m = .ok d.index ∧ d.model = m := by
  rw [ofModel] at hd
  cases hc : m.check with
  | error e => simp [hc] at hd
  | ok _ =>
    cases hb : Index.build m with
    | error e => simp [hc, hb] at hd
    | ok x =>
      simp only [hc, hb, Except.ok.injEq] at hd
      exact hd ▸ ⟨rfl, rfl, rfl⟩

namespace InStep

theorem empty (id : String) : (Diagram.empty id).InStep where
  index := Index.sound_empty
  nodes := rfl
  links := List.Perm.refl _
  owners := by simp [Diagram.empty, Index.empty]

theorem owners_of_filter {x : Index} {m : Model} {gone : List ElementId} (h : d.InStep)
    (hv : x.visuals = d.index.visuals.filter (·.2.owner ∉ gone))
    (hm : ∀ id ∈ d.model.ids, id ∉ gone → id ∈ m.ids) : ∀ p ∈ x.visuals, p.2.owner ∈ m.ids := by
  intro p hp
  rw [hv] at hp
  obtain ⟨hp, hgone⟩ := List.mem_filter.mp hp
  exact hm _ (h.owners p hp) (by simpa using hgone)

theorem insertNode (h : d.InStep) {n : Node} (hid : n.id ∉ d.model.ids) :
    ∃ d', d.insertNode n = .ok d' ∧ d'.InStep ∧ d'.model = d.model.addNode n := by
  have hmodel := Model.contains_eq_false_iff.mpr hid
  obtain ⟨y, hy, hb⟩ := h.index.insertNode ((h.contains_eq n.id).trans hmodel)
  refine ⟨⟨d.model.addNode n, y⟩, ?_, ?_, rfl⟩
  · rw [Diagram.insertNode, hmodel]
    simp only [hy]
    rfl
  · refine ⟨hb.sound, ?_, ?_, h.owners_of_filter hb.visuals ?_⟩
    · exact hb.nodes.trans ((congrArg (· ++ [n.id]) h.nodes).trans (Model.nodeIds_addNode _ n).symm)
    · show y.links.Perm (d.model.edges.map Edge.link)
      rw [hb.links]
      exact h.links
    · intro id hm _
      show id ∈ (d.model.addNode n).nodeIds ++ d.model.edgeIds
      rw [Model.nodeIds_addNode]
      rcases List.mem_append.mp hm with hm | hm <;> simp [hm]

theorem insertEdge (h : d.InStep) {e : Edge} (hid : e.id ∉ d.model.ids) (hs : e.source ∈ d.model.nodeIds)
    (ht : e.target ∈ d.model.nodeIds) :
    ∃ d', d.insertEdge e = .ok d' ∧ d'.InStep ∧ d'.model = d.model.addEdge e := by
  have hmodel := Model.contains_eq_false_iff.mpr hid
  obtain ⟨y, hy, hb⟩ := h.index.insertEdge ((h.contains_eq e.id).trans hmodel)
    (h.nodes.symm ▸ hs) (h.nodes.symm ▸ ht)
  refine ⟨⟨d.model.addEdge e, y⟩, ?_, ?_, rfl⟩
  · rw [Diagram.insertEdge, hmodel]
    simp only [hy]
    rfl
  · refine ⟨hb.sound, hb.nodes.trans h.nodes, ?_, h.owners_of_filter hb.visuals ?_⟩
    · show y.links.Perm ((d.model.edges ++ [e]).map Edge.link)
      rw [hb.links, List.map_append]
      exact (h.links.cons e.link).trans (List.perm_append_singleton _ _).symm
    · intro id hm _
      show id ∈ d.model.nodeIds ++ (d.model.addEdge e).edgeIds
      rw [Model.edgeIds_addEdge]
      rcases List.mem_append.mp hm with hm | hm <;> simp [hm]

theorem of_insertNode (h : d.InStep) {n : Node} {d' : Diagram} (hd : d.insertNode n = .ok d') : d'.InStep := by
  cases hid : d.model.contains n.id with
  | true => simp [Diagram.insertNode, hid] at hd
  | false =>
    obtain ⟨d'', hd'', hstep, _⟩ := h.insertNode (Model.contains_eq_false_iff.mp hid)
    exact Except.ok.inj (hd''.symm.trans hd) ▸ hstep

theorem of_insertEdge (h : d.InStep) {e : Edge} {d' : Diagram} (hd : d.insertEdge e = .ok d') : d'.InStep := by
  cases hid : d.model.contains e.id with
  | true => simp [Diagram.insertEdge, hid] at hd
  | false =>
    cases hx : d.index.insertEdge e with
    | error fault => simp [Diagram.insertEdge, hid, hx] at hd
    | ok x =>
      obtain ⟨_, hs, ht, _⟩ := h.index.of_insertEdge hx
      rw [h.nodes] at hs ht
      obtain ⟨d'', hd'', hstep, _⟩ := h.insertEdge (Model.contains_eq_false_iff.mp hid) hs ht
      exact Except.ok.inj (hd''.symm.trans hd) ▸ hstep

/-- An index that was built is in step with its model. -/
theorem of_build {m : Model} {x : Index} (h : Index.build m = .ok x) : InStep ⟨m, x⟩ := by
  obtain ⟨hx, hnodes, hvisuals⟩ := Index.of_build h
  refine ⟨hx.sound, hnodes, ?_, ?_⟩
  · show x.links.Perm (m.edges.map Edge.link)
    rw [hx.links]
    exact m.edges.reverse_perm.map Edge.link
  · show ∀ p ∈ x.visuals, p.2.owner ∈ m.ids
    simp [hvisuals]

/-- A diagram of a model is in step from the start. -/
theorem of_ofModel {m : Model} (hd : ofModel m = .ok d) : d.InStep := by
  obtain ⟨_, hb, rfl⟩ := of_ofModel_ok hd
  exact of_build hb

theorem incident_eq_nil (h : d.InStep) {id : ElementId} (hid : id ∉ d.model.nodeIds) : d.index.incident id = [] := by
  rw [Index.incident]
  cases hslot : d.index.nodeSlot? id with
  | none => rfl
  | some slot =>
    have hm := h.index.isSome_nodeSlot?_iff.mp (by simp [hslot] : (d.index.nodeSlot? id).isSome)
    exact absurd (h.nodes ▸ hm) hid

theorem mem_incident_iff (h : d.InStep) {e : Edge} (he : e ∈ d.model.edges) {id : ElementId} :
    e.id ∈ d.index.incident id ↔ e.source = id ∨ e.target = id := by
  rw [← Edge.touches_link]
  exact h.index.link_id_mem_incident_iff (h.link_mem he)

theorem incident_subset (h : d.InStep) {node id : ElementId} (hid : id ∈ d.index.incident node) :
    id ∈ d.model.edgeIds :=
  h.edges.mem_iff.mp (h.index.incident_subset hid)

/-- With an element just its incident edges leave the model. -/
theorem mem_ids_without_iff (h : d.InStep) {id other : ElementId} (ho : other ∈ d.model.ids) :
    other ∈ (d.model.without [id]).ids ↔ other ∉ id :: d.index.incident id := by
  constructor
  · intro hleft hgone
    rcases List.mem_cons.mp hgone with rfl | hgone
    · exact Model.not_mem_ids_without (by simp) hleft
    · rcases List.mem_append.mp hleft with hn | he
      · exact h.closed.not_edge_of_node (Model.mem_nodeIds_without.mp hn).1 (h.incident_subset hgone)
      · obtain ⟨e, hm, rfl⟩ := List.mem_map.mp he
        obtain ⟨hm, _, hs, ht⟩ := Model.mem_edges_without.mp hm
        rcases (h.mem_incident_iff hm).mp hgone with hend | hend
        · exact hs (by simp [hend])
        · exact ht (by simp [hend])
  · intro hgone
    rw [List.mem_cons, not_or] at hgone
    rcases List.mem_append.mp ho with hn | he
    · exact List.mem_append.mpr (Or.inl (Model.mem_nodeIds_without.mpr ⟨hn, by simpa using hgone.1⟩))
    · obtain ⟨e, hm, rfl⟩ := List.mem_map.mp he
      have hends := not_or.mp fun hor => hgone.2 ((h.mem_incident_iff hm).mpr hor)
      refine List.mem_append.mpr (Or.inr (List.mem_map_of_mem (Model.mem_edges_without.mpr ⟨hm, ?_⟩)))
      simpa using ⟨hgone.1, hends⟩

/-- What `remove` makes of the model where the element is a node. -/
theorem without_node (h : d.InStep) {id : ElementId} (hid : id ∈ d.model.nodeIds) :
    (d.index.incident id).foldl Model.eraseEdge (d.model.eraseNode id) = d.model.without [id] := by
  rw [Model.foldl_eraseEdge, Model.eraseNode, Model.without]
  congr 1
  · apply List.filter_congr
    intro n _
    by_cases hn : n.id = id <;> simp [hn]
  · apply List.filter_congr
    intro e he
    have hne : e.id ≠ id := fun heq =>
      h.closed.not_edge_of_node hid (heq ▸ List.mem_map_of_mem (f := Edge.id) he)
    have hiff : e.id ∈ d.index.incident id ↔ e.source = id ∨ e.target = id := h.mem_incident_iff he
    simp [hne, hiff]

/-- What `remove` makes of the model where the element is an edge. -/
theorem without_edge (h : d.InStep) {id : ElementId} (hid : id ∈ d.model.edgeIds) :
    d.model.eraseEdge id = d.model.without [id] := by
  have hne : ∀ other ∈ d.model.nodeIds, other ≠ id := fun other ho heq =>
    h.closed.not_edge_of_node ho (heq ▸ hid)
  have hnodes : d.model.nodes.filter (·.id ∉ [id]) = d.model.nodes := by
    apply List.filter_eq_self.mpr
    intro n hn
    simpa using hne n.id (List.mem_map_of_mem hn)
  rw [Model.eraseEdge, Model.without, hnodes]
  congr 1
  apply List.filter_congr
  intro e he
  have hends := h.closed.ends e he
  by_cases heq : e.id = id <;> simp [heq, hne _ hends.1, hne _ hends.2]

theorem remove_node (h : d.InStep) {id : ElementId} (hn : id ∈ d.model.nodeIds) :
    ∃ d', d.remove id = .ok (d', id :: d.index.incident id) ∧ d'.InStep ∧
      d'.model = d.model.without [id] := by
  obtain ⟨hgone, hb⟩ := h.index.removeNode (h.nodes.symm ▸ hn)
  refine ⟨⟨d.model.without [id], (d.index.removeNode id).1⟩, ?_, ⟨hb.sound, ?_, ?_, ?_⟩, rfl⟩
  · simp only [Diagram.remove, h.kind?_eq_node_iff.mpr hn, hgone, h.without_node hn]
  · refine hb.nodes.trans ?_
    rw [h.nodes, Model.nodeIds, Model.nodeIds, Model.without, List.filter_map]
    simp [Function.comp_def]
  · show (d.index.removeNode id).1.links.Perm ((d.model.without [id]).edges.map Edge.link)
    rw [hb.links]
    refine (h.links.filter _).trans ?_
    rw [List.filter_map, ← h.without_node hn, Model.foldl_eraseEdge]
    have hf : d.model.edges.filter ((fun l => decide (¬ l.touches id)) ∘ Edge.link) =
        d.model.edges.filter (·.id ∉ d.index.incident id) := by
      apply List.filter_congr
      intro e he
      have hiff : e.id ∈ d.index.incident id ↔ e.link.touches id :=
        (h.mem_incident_iff he).trans Edge.touches_link.symm
      exact decide_eq_decide.mpr (not_congr hiff.symm)
    rw [hf]
    exact List.Perm.refl _
  · exact h.owners_of_filter hb.visuals fun other ho hgone' => (h.mem_ids_without_iff ho).mpr hgone'

theorem remove_edge (h : d.InStep) {id : ElementId} (he : id ∈ d.model.edgeIds) :
    ∃ d', d.remove id = .ok (d', id :: d.index.incident id) ∧ d'.InStep ∧
      d'.model = d.model.without [id] := by
  have hnil : d.index.incident id = [] := h.incident_eq_nil fun hn => h.closed.not_edge_of_node hn he
  obtain ⟨_, hb⟩ := h.index.removeEdge (h.edges.mem_iff.mpr he)
  refine ⟨⟨d.model.without [id], (d.index.removeEdge id).1⟩, ?_, ⟨hb.sound, ?_, ?_, ?_⟩, rfl⟩
  · simp only [Diagram.remove, h.kind?_eq_edge_iff.mpr he, h.without_edge he, hnil]
  · refine (hb.nodes.trans h.nodes).trans ?_
    rw [← h.without_edge he]
    rfl
  · show (d.index.removeEdge id).1.links.Perm ((d.model.without [id]).edges.map Edge.link)
    rw [hb.links, ← h.without_edge he]
    refine (h.links.filter _).trans ?_
    rw [List.filter_map, Model.eraseEdge]
    have hf : d.model.edges.filter ((fun l => decide (l.id ≠ id)) ∘ Edge.link) =
        d.model.edges.filter (·.id != id) := by
      apply List.filter_congr
      intro e _
      by_cases heq : e.id = id <;> simp [Edge.link, heq]
    rw [hf]
  · refine h.owners_of_filter hb.visuals fun other ho hgone => (h.mem_ids_without_iff ho).mpr ?_
    rw [hnil]
    exact hgone

/-- Removing an element takes its incident edges along, in their order, and nothing else. -/
theorem remove (h : d.InStep) {id : ElementId} (hid : id ∈ d.model.ids) :
    ∃ d', d.remove id = .ok (d', id :: d.index.incident id) ∧ d'.InStep ∧
      d'.model = d.model.without [id] := by
  rcases List.mem_append.mp hid with hn | he
  · exact h.remove_node hn
  · exact h.remove_edge he

theorem remove_absent (h : d.InStep) {id : ElementId} (hid : id ∉ d.model.ids) :
    d.remove id = .error (.notFound id) := by
  rw [Diagram.remove, h.kind?_eq_none_iff.mpr hid]

theorem nodup_removed (h : d.InStep) {id : ElementId} (hid : id ∈ d.model.ids) :
    (id :: d.index.incident id).Nodup := by
  refine List.nodup_cons.mpr ⟨?_, h.index.nodup_incident id⟩
  intro hm
  rcases List.mem_append.mp hid with hn | he
  · exact h.closed.not_edge_of_node hn (h.incident_subset hm)
  · have hn : id ∉ d.model.nodeIds := fun hn => h.closed.not_edge_of_node hn he
    simp [h.incident_eq_nil hn] at hm

/-- The removed ids are those the model had and has no more. -/
theorem mem_removed_iff (h : d.InStep) {id other : ElementId} (hid : id ∈ d.model.ids) :
    other ∈ id :: d.index.incident id ↔ other ∈ d.model.ids ∧ other ∉ (d.model.without [id]).ids := by
  constructor
  · intro hm
    have ho : other ∈ d.model.ids := by
      rcases List.mem_cons.mp hm with rfl | hi
      · exact hid
      · exact List.mem_append.mpr (Or.inr (h.incident_subset hi))
    exact ⟨ho, fun hleft => (h.mem_ids_without_iff ho).mp hleft hm⟩
  · rintro ⟨ho, hleft⟩
    exact Classical.not_not.mp fun hm => hleft ((h.mem_ids_without_iff ho).mpr hm)

theorem setBounds (h : d.InStep) {id : ElementId} {position : Option Point} {size : Option Size} {d' : Diagram}
    (hd : d.setBounds id position size = .ok d') : d'.InStep := by
  rw [Diagram.setBounds] at hd
  split at hd
  · rw [← Except.ok.inj hd]
    exact h.updateNode (by intro n; rfl) id
  · cases hd

theorem setRouting (h : d.InStep) {id : ElementId} {points : List Point} {d' : Diagram}
    (hd : d.setRouting id points = .ok d') : d'.InStep := by
  rw [Diagram.setRouting] at hd
  split at hd
  · rw [← Except.ok.inj hd]
    exact h.updateEdge (by intro e; rfl) id
  · cases hd

theorem setData (h : d.InStep) {id : ElementId} {data : Json.Value} {d' : Diagram}
    (hd : d.setData id data = .ok d') : d'.InStep := by
  rw [Diagram.setData] at hd
  cases he : d.element? id with
  | none => simp [he] at hd
  | some element =>
    cases element with
    | node n =>
      simp only [he] at hd
      rw [← Except.ok.inj hd]
      exact h.updateNode (by intro n; rfl) id
    | edge e =>
      simp only [he] at hd
      rw [← Except.ok.inj hd]
      exact h.updateEdge (by intro e; rfl) id

theorem render (h : d.InStep) {l : Language} {d' : Diagram} {r : Rendering} (hd : d.render l = .ok (d', r)) :
    d'.InStep := by
  rw [Diagram.render] at hd
  cases hr : l.render d.model with
  | error e => simp [hr] at hd
  | ok made =>
    simp only [hr, Except.ok.injEq, Prod.mk.injEq] at hd
    obtain ⟨rfl, rfl⟩ := hd
    refine ⟨h.index.indexVisuals made.graph, h.nodes, h.links, ?_⟩
    intro p hp
    have howner := Index.owner_of_indexVisuals hp
    rw [Language.render_roots hr] at howner
    exact howner

/-- Relinking one edge moves its link to the front and changes no other. -/
theorem links_updateEdge (h : d.InStep) {e : Edge} (he : e ∈ d.model.edges) (source target : ElementId) :
    (({ e with source := source, target := target } : Edge).link ::
        d.index.links.filter (·.id ≠ e.id)).Perm
      ((d.model.updateEdge e.id fun e => { e with source := source, target := target }).edges.map Edge.link) := by
  obtain ⟨before, after, hsplit, hnew, hother⟩ := h.closed.edges_updateEdge he
    fun e => { e with source := source, target := target }
  have hlinks : (d.index.links.filter (·.id ≠ e.id)).Perm ((before ++ after).map Edge.link) := by
    refine (h.links.filter _).trans ?_
    have hgone : ((before ++ e :: after).map Edge.link).filter (·.id ≠ e.id) =
        ((before ++ after).map Edge.link).filter (·.id ≠ e.id) := by
      simp [Edge.link]
    have hstay : ((before ++ after).map Edge.link).filter (·.id ≠ e.id) = (before ++ after).map Edge.link := by
      apply List.filter_eq_self.mpr
      intro l hl
      obtain ⟨other, ho, rfl⟩ := List.mem_map.mp hl
      exact decide_eq_true (hother other ho)
    rw [hsplit, hgone, hstay]
  rw [hnew, List.map_append, List.map_cons]
  rw [List.map_append] at hlinks
  exact (hlinks.cons _).trans List.perm_middle.symm

/-- Whatever becomes of a request for new ends, model and index stay in step, and a
refusal leaves the diagram as it was. -/
theorem relink (h : d.InStep) (id source target : ElementId) :
    (d.relink id source target).2.InStep ∧
      ∀ fault, (d.relink id source target).1 = .error fault → (d.relink id source target).2 = d := by
  rw [Diagram.relink]
  cases he : d.model.edge? id with
  | none => exact ⟨h, fun _ _ => rfl⟩
  | some e =>
    obtain ⟨hm, rfl⟩ := Model.id_of_edge? he
    cases hf : [source, target].find? (d.index.kind? · != some .node) with
    | some node => exact ⟨h, fun _ _ => rfl⟩
    | none =>
      have hends : d.index.kind? source = some .node ∧ d.index.kind? target = some .node := by
        simpa [List.find?_eq_none] using hf
      rw [h.index.kind?_eq_node_iff, h.index.kind?_eq_node_iff] at hends
      have hid : e.id ∈ d.index.edgeIds := h.edges.mem_iff.mpr (List.mem_map_of_mem hm)
      obtain ⟨y, hy, hb⟩ :=
        h.index.reconnect (e := { e with source := source, target := target }) hid hends.1 hends.2
      simp only [hy]
      refine ⟨⟨hb.sound, hb.nodes.trans h.nodes, ?_, h.owners_of_filter hb.visuals ?_⟩, ?_⟩
      · show y.links.Perm _
        rw [hb.links]
        exact h.links_updateEdge hm source target
      · intro other ho _
        show other ∈ d.model.nodeIds ++ (d.model.updateEdge e.id _).edgeIds
        have hids := Model.edgeIds_updateEdge (m := d.model)
          (f := fun e' => { e' with source := source, target := target }) (fun _ => rfl) e.id
        rw [hids]
        exact ho
      · rintro fault ⟨⟩

end InStep

end Diagram

end DiagramEditor
