import DiagramEditor.Proofs.Diagram.Effects
import DiagramEditor.Proofs.Index.Recency
import DiagramEditor.Proofs.Runs

/-!
# The edges of a node in the order of linking

A call may link edges: those it puts into the model, one after the other, and the one it
gives new ends, even the ends it has. In a diagram the edges of a node are listed by the
history of all this, the edge linked last first, and removing a node removes the edges so
listed.
-/

set_option autoImplicit false

namespace DiagramEditor

/-- Ids stand in the order of a history in which the latest comes first. -/
def Follows (history ids : List ElementId) : Prop :=
  ids.Pairwise fun a b => history.idxOf a < history.idxOf b

namespace Follows

variable {history ids : List ElementId}

theorem link (h : Follows history ids) {id : ElementId} (hid : id ∉ ids) : Follows (id :: history) (id :: ids) := by
  have hlater : ∀ other ∈ ids, (id :: history).idxOf other = history.idxOf other + 1 := by
    intro other ho
    exact List.idxOf_cons_ne _ fun he => hid (he ▸ ho)
  refine List.pairwise_cons.mpr ⟨fun other ho => ?_, h.imp_of_mem fun {a b} ha hb hab => ?_⟩
  · rw [List.idxOf_cons_self, hlater other ho]
    exact Nat.succ_pos _
  · rw [hlater a ha, hlater b hb]
    exact Nat.succ_lt_succ hab

theorem linkAll (h : Follows history ids) {new : List ElementId} (hn : (new ++ ids).Nodup) :
    Follows (new ++ history) (new ++ ids) := by
  induction new with
  | nil => exact h
  | cons id rest ih =>
    obtain ⟨hid, hrest⟩ := List.nodup_cons.mp hn
    exact (ih hrest).link hid

end Follows

namespace Diagram

variable {d d' : Diagram} {log : List ElementId}

/-- The edges the model has won, the last one first. -/
def newEdges (d d' : Diagram) : List ElementId := (d'.model.edgeIds.filter (· ∉ d.model.edgeIds)).reverse

/-- The edge a call gives new ends, and these ends. -/
def Call.newEnds? : Call → Option (ElementId × ElementId × ElementId)
  | .relink id source target => some (id, source, target)
  | .apply (.reconnectEdge id source target) _ _ => some (id, source, target)
  | _ => none

/-- The edges a call links, the one linked last first. -/
def linkedBy (d : Diagram) (c : Call) : List ElementId :=
  match c.newEnds? with
  | some (id, source, target) => if (d.relink id source target).1.isOk then [id] else []
  | none => d.newEdges (d.call c)

/-- What calls link, put before what was linked earlier. -/
def linkedAfter (d : Diagram) (log : List ElementId) : List Call → List ElementId
  | [] => log
  | c :: rest => (d.call c).linkedAfter (d.linkedBy c ++ log) rest

/-- No edge is linked, and those that stay keep their order. -/
def Unlinks (d d' : Diagram) : Prop := d'.InStep ∧ d'.index.edgeIds.Sublist d.index.edgeIds

/-- Edges are put in, each before all others, and none is removed. -/
def Links (d d' : Diagram) : Prop :=
  d'.InStep ∧ ∃ new, d'.model.edgeIds = d.model.edgeIds ++ new ∧ d'.index.edgeIds = new.reverse ++ d.index.edgeIds

namespace Unlinks

theorem refl (h : d.InStep) : d.Unlinks d := ⟨h, List.Sublist.refl _⟩

theorem same {d₁ : Diagram} (h : d.Unlinks d') (h₁ : d₁.InStep) (he : d₁.index.edgeIds = d'.index.edgeIds) :
    d.Unlinks d₁ := ⟨h₁, he ▸ h.2⟩

theorem newEdges_eq (h : d.InStep) (hu : d.Unlinks d') : d.newEdges d' = [] := by
  rw [newEdges, List.reverse_eq_nil_iff, List.filter_eq_nil_iff]
  intro id hid
  have hold : id ∈ d.model.edgeIds := h.edges.mem_iff.mp (hu.2.subset (hu.1.edges.mem_iff.mpr hid))
  simpa using hold

theorem follows (h : d.InStep) (hu : d.Unlinks d') (hf : Follows log d.index.edgeIds) :
    Follows (d.newEdges d' ++ log) d'.index.edgeIds := by
  rw [hu.newEdges_eq h]
  exact hf.sublist hu.2

theorem insertNode {d₁ : Diagram} (h : d.Unlinks d') {n : Node} (hd : d'.insertNode n = .ok d₁) : d.Unlinks d₁ :=
  h.same (h.1.of_insertNode hd) (h.1.inserted_node hd).2

theorem remove {d₁ : Diagram} (h : d.Unlinks d') {id : ElementId} {gone : List ElementId}
    (hd : d'.remove id = .ok (d₁, gone)) : d.Unlinks d₁ :=
  ⟨h.1.of_remove hd, (h.1.removed hd).2.2.trans h.2⟩

theorem setBounds {d₁ : Diagram} (h : d.Unlinks d') {id : ElementId} {position : Option Point} {size : Option Size}
    (hd : d'.setBounds id position size = .ok d₁) : d.Unlinks d₁ :=
  h.same (h.1.setBounds hd) (by rw [of_setBounds hd])

theorem setRouting {d₁ : Diagram} (h : d.Unlinks d') {id : ElementId} {points : List Point}
    (hd : d'.setRouting id points = .ok d₁) : d.Unlinks d₁ :=
  h.same (h.1.setRouting hd) (by rw [of_setRouting hd])

theorem setData {d₁ : Diagram} (h : d.Unlinks d') {id : ElementId} {data : Json.Value}
    (hd : d'.setData id data = .ok d₁) : d.Unlinks d₁ :=
  h.same (h.1.setData hd) (by rw [index_setData hd])

end Unlinks

namespace Links

theorem refl (h : d.InStep) : d.Links d := ⟨h, [], by simp, by simp⟩

theorem newEdges_eq {new : List ElementId} (hn : d'.model.edgeIds.Nodup)
    (he : d'.model.edgeIds = d.model.edgeIds ++ new) : d.newEdges d' = new.reverse := by
  rw [he, List.nodup_append] at hn
  have hold : d.model.edgeIds.filter (· ∉ d.model.edgeIds) = [] := by
    rw [List.filter_eq_nil_iff]
    intro id hid
    simpa using hid
  have hnew : new.filter (· ∉ d.model.edgeIds) = new := by
    rw [List.filter_eq_self]
    intro id hid
    simpa using fun hm => hn.2.2 id hm id hid rfl
  rw [newEdges, he, List.filter_append, hold, hnew, List.nil_append]

theorem follows (hl : d.Links d') (hf : Follows log d.index.edgeIds) :
    Follows (d.newEdges d' ++ log) d'.index.edgeIds := by
  obtain ⟨h', new, hmodel, hindex⟩ := hl
  rw [newEdges_eq h'.closed.nodup_edges hmodel, hindex]
  exact hf.linkAll (hindex ▸ h'.index.nodup_edges)

theorem insertNode {d₁ : Diagram} (h : d.Links d') {n : Node} (hd : d'.insertNode n = .ok d₁) : d.Links d₁ := by
  obtain ⟨h', new, hmodel, hindex⟩ := h
  obtain ⟨hm, hx⟩ := h'.inserted_node hd
  exact ⟨h'.of_insertNode hd, new, by rw [hm]; exact hmodel, hx.trans hindex⟩

theorem insertEdge {d₁ : Diagram} (h : d.Links d') {e : Edge} (hd : d'.insertEdge e = .ok d₁) : d.Links d₁ := by
  obtain ⟨h', new, hmodel, hindex⟩ := h
  obtain ⟨hm, hx⟩ := h'.inserted_edge hd
  refine ⟨h'.of_insertEdge hd, new ++ [e.id], ?_, ?_⟩
  · rw [hm, Model.edgeIds_addEdge, hmodel, List.append_assoc]
  · rw [hx, hindex, List.reverse_append]
    rfl

end Links

theorem InStep.follows_newEdges (h : d.InStep) (hm : d.Unlinks d' ∨ d.Links d') (hf : Follows log d.index.edgeIds) :
    Follows (d.newEdges d' ++ log) d'.index.edgeIds := by
  rcases hm with hu | hl
  · exact hu.follows h hf
  · exact hl.follows hf

theorem InStep.moves_orElse (h : d.InStep) {made : Except EditError Diagram}
    (hm : ∀ d', made = .ok d' → d.Unlinks d' ∨ d.Links d') : d.Unlinks (d.orElse made) ∨ d.Links (d.orElse made) := by
  cases made with
  | error e => exact .inl (.refl h)
  | ok d' => exact hm d' rfl

open Operation in
/-- An operation either takes edges away or puts them in, unless it gives an edge new ends. -/
theorem InStep.moves_run (h : d.InStep) {op : Operation} (c : EditContext) (ids : IdSupply)
    (hop : (Call.apply op c ids).newEnds? = none) :
    d.Unlinks (d.call (.apply op c ids)) ∨ d.Links (d.call (.apply op c ids)) := by
  have hnode : ∀ n d₁ d₂, d.Unlinks d₁ → d₁.insertNode n = .ok d₂ → d.Unlinks d₂ := fun _ _ _ hu hd => hu.insertNode hd
  have hremove : ∀ id d₁ d₂ gone, d.Unlinks d₁ → d₁.remove id = .ok (d₂, gone) → d.Unlinks d₂ :=
    fun _ _ _ _ hu hd => hu.remove hd
  have hdata : ∀ id data d₁ d₂, d.Unlinks d₁ → d₁.setData id data = .ok d₂ → d.Unlinks d₂ :=
    fun _ _ _ _ hu hd => hu.setData hd
  have hlinkNode : ∀ n d₁ d₂, d.Links d₁ → d₁.insertNode n = .ok d₂ → d.Links d₂ := fun _ _ _ hl hd => hl.insertNode hd
  have hlinkEdge : ∀ e d₁ d₂, d.Links d₁ → d₁.insertEdge e = .ok d₂ → d.Links d₂ := fun _ _ _ hl hd => hl.insertEdge hd
  have hstart : d.Unlinks d := .refl h
  have hbegin : d.Links d := .refl h
  cases op with
  | createNode tag location => exact .inl (keeps_createNode hnode _ _ _ ⟨d, ids⟩ hstart)
  | createEdge tag source target => exact .inr (keeps_createEdge hlinkEdge _ _ _ _ ⟨d, ids⟩ hbegin)
  | deleteElements gone => exact .inl (keeps_delete hremove gone ⟨d, ids⟩ hstart)
  | changeBounds bounds => exact .inl (keeps_each _ _ (fun _ _ _ hu hd => hu.setBounds hd) bounds ⟨d, ids⟩ hstart)
  | changeRouting routings => exact .inl (keeps_each _ _ (fun _ _ _ hu hd => hu.setRouting hd) routings ⟨d, ids⟩ hstart)
  | reconnectEdge edge source target => cases hop
  | editLabel label text => exact .inl (keeps_editLabel hdata label text ⟨d, ids⟩ hstart)
  | changeData element data mode => exact .inl (keeps_changeData hdata c element data mode ⟨d, ids⟩ hstart)
  | cut gone => exact .inl (keeps_cut hremove gone ⟨d, ids⟩ hstart)
  | paste clipboard location => exact .inr (keeps_paste hlinkNode hlinkEdge clipboard location ⟨d, ids⟩ hbegin)
  | refreshShowcase => exact .inl (keeps_refreshShowcase hdata _ ⟨d, ids⟩ hstart)

theorem InStep.moves_call (h : d.InStep) {c : Call} (hc : c.newEnds? = none) :
    d.Unlinks (d.call c) ∨ d.Links (d.call c) := by
  have hstart : d.Unlinks d := .refl h
  cases c with
  | apply op context ids => exact h.moves_run context ids hc
  | render language =>
    refine h.moves_orElse fun d' hd => .inl ?_
    obtain ⟨rendering, hr⟩ := of_map_fst_ok hd
    exact ⟨h.render hr, (edgeIds_of_render hr) ▸ List.Sublist.refl _⟩
  | insertNode n => exact h.moves_orElse fun _ hd => .inl (hstart.insertNode hd)
  | insertEdge e => exact h.moves_orElse fun _ hd => .inr ((Links.refl h).insertEdge hd)
  | remove id =>
    refine h.moves_orElse fun d' hd => .inl ?_
    obtain ⟨removed, hr⟩ := of_map_fst_ok hd
    exact hstart.remove hr
  | setBounds id position size => exact h.moves_orElse fun _ hd => .inl (hstart.setBounds hd)
  | setRouting id points => exact h.moves_orElse fun _ hd => .inl (hstart.setRouting hd)
  | relink id source target => cases hc
  | setData id data => exact h.moves_orElse fun _ hd => .inl (hstart.setData hd)

theorem call_of_newEnds {c : Call} {id source target : ElementId} (hc : c.newEnds? = some (id, source, target)) :
    d.call c = (d.relink id source target).2 := by
  cases c with
  | relink _ _ _ =>
    cases hc
    rfl
  | apply op context ids =>
    cases op with
    | reconnectEdge _ _ _ =>
      cases hc
      show ((Edit.attempt _ >>= fun _ => pure Outcome.nothing : Edit Outcome).on ⟨d, ids⟩).2.diagram = _
      rw [Edit.on_bind, Edit.on_attempt]
      dsimp only
      cases (d.relink id source target).1 <;> rfl
    | _ => cases hc
  | _ => cases hc

/-- A call keeps the edges of the index in the order of linking. -/
theorem InStep.follows_call (h : d.InStep) (c : Call) (hf : Follows log d.index.edgeIds) :
    Follows (d.linkedBy c ++ log) (d.call c).index.edgeIds := by
  rw [linkedBy]
  cases hc : c.newEnds? with
  | none => exact h.follows_newEdges (h.moves_call hc) hf
  | some ends =>
    obtain ⟨id, source, target⟩ := ends
    rw [call_of_newEnds hc]
    cases hr : (d.relink id source target).1 with
    | error fault =>
      rw [(h.relink id source target).2 fault hr]
      simpa [hr, Except.isOk, Except.toBool] using hf
    | ok _ =>
      have hgone : id ∉ d.index.edgeIds.filter (· ≠ id) := by simp
      rw [(h.relinked hr).2]
      simpa [hr, Except.isOk, Except.toBool] using Follows.link (hf.sublist List.filter_sublist) hgone

theorem InStep.follows_after (h : d.InStep) (calls : List Call) (hf : Follows log d.index.edgeIds) :
    Follows (d.linkedAfter log calls) (d.after calls).index.edgeIds := by
  induction calls generalizing d log with
  | nil => exact hf
  | cons c rest ih => exact ih (h.call c) (h.follows_call c hf)

/-- To begin with the edges were linked in the order of the model. -/
theorem follows_start (h : Start d) : Follows d.model.edgeIds.reverse d.index.edgeIds := by
  cases h with
  | empty id => exact List.Pairwise.nil
  | ofModel accepted =>
    have hnodup := (InStep.of_ofModel accepted).index.nodup_edges
    rw [edgeIds_of_ofModel accepted] at hnodup ⊢
    have hnil : Follows [] [] := List.Pairwise.nil
    simpa using hnil.linkAll (by simpa using hnodup)

/-- The edges of the model in the order of the index. -/
def linkedEdges (d : Diagram) : List Edge := d.index.edgeIds.filterMap d.model.edge?

namespace InStep

theorem linkedEdges_perm (h : d.InStep) : d.linkedEdges.Perm d.model.edges := by
  have hall : d.model.edgeIds.filterMap d.model.edge? = d.model.edges := by
    rw [Model.edgeIds, List.filterMap_map]
    refine (List.filterMap_congr fun e he => ?_).trans List.filterMap_some
    exact h.closed.edge?_eq_some_iff.mpr ⟨he, rfl⟩
  exact hall ▸ h.edges.filterMap d.model.edge?

theorem linking (h : d.InStep) : d.index.Linking d.linkedEdges where
  sound := h.index
  links := by
    rw [linkedEdges, ← Index.links_ids, List.filterMap_map, List.map_filterMap]
    refine (List.filterMap_some.symm.trans (List.filterMap_congr fun l hl => ?_))
    obtain ⟨e, he, rfl⟩ := List.mem_map.mp (h.links.mem_iff.mp hl)
    have hfound : d.model.edge? e.link.id = some e := h.closed.edge?_eq_some_iff.mpr ⟨he, rfl⟩
    rw [Function.comp, hfound]
    rfl

/-- Removing a node leaves every other node, and every edge that is not listed at it. -/
theorem remove_incident (h : d.InStep) {node : ElementId} (hn : node ∈ d.model.nodeIds) :
    ∃ left, d.remove node = .ok (left, node :: d.index.incident node) ∧
      left.model.nodes = d.model.nodes.filter (·.id ≠ node) ∧
      left.model.edges = d.model.edges.filter (·.id ∉ d.index.incident node) := by
  obtain ⟨left, hleft, _, hmodel⟩ := h.remove_node hn
  rw [← h.without_node hn, Model.foldl_eraseEdge] at hmodel
  refine ⟨left, hleft, ?_, by rw [hmodel]; rfl⟩
  rw [hmodel]
  exact List.filter_congr fun n _ => by by_cases hid : n.id = node <;> simp [hid]

end InStep

/-- What is listed at a node are the edges it is an end of, each once, those it is the source of
first, and of each kind the one linked last first. In an index this is told from the calls it has
gone through; in a diagram the edges are those of the model in the order of all linking, and they go
when the node is removed. -/
theorem incident_in_order :
    (∀ (calls : List Index.Call) (node : ElementId),
      (Index.empty.after calls).incident node = (edgesAt (Index.empty.linkedAfter [] calls) node).map Edge.id ∧
        ((Index.empty.after calls).incident node).Nodup) ∧
    ∀ (start : Diagram) (calls : List Call), Start start →
      ∃ es : List Edge, es.Perm (start.after calls).model.edges ∧
        Follows (start.linkedAfter start.model.edgeIds.reverse calls) (es.map Edge.id) ∧
        ∀ node, (start.after calls).index.incident node = (edgesAt es node).map Edge.id ∧
          ((start.after calls).index.incident node).Nodup ∧
          (node ∈ (start.after calls).model.nodeIds →
            ∃ left, (start.after calls).remove node = .ok (left, node :: (start.after calls).index.incident node) ∧
              left.model.nodes = (start.after calls).model.nodes.filter (·.id ≠ node) ∧
              left.model.edges =
                (start.after calls).model.edges.filter (·.id ∉ (start.after calls).index.incident node)) := by
  constructor
  · intro calls node
    have h := Index.Linking.empty.after calls
    exact ⟨h.incident_eq node, h.sound.nodup_incident node⟩
  · intro start calls hstart
    have h := (InStep.of_start hstart).after calls
    have hfollows := (InStep.of_start hstart).follows_after calls (follows_start hstart)
    refine ⟨(start.after calls).linkedEdges, h.linkedEdges_perm, h.linking.edgeIds ▸ hfollows, fun node => ?_⟩
    exact ⟨h.linking.incident_eq node, h.index.nodup_incident node, h.remove_incident⟩

/-- The edge `ab` is given the ends it has, and a second edge from `a` to `b` comes in. -/
def relinking : List Call := [.relink "ab" "a" "b", .insertEdge ⟨"new", "", "a", "b", [], .emptyObject⟩]

/-- The new edge is listed before `ab`, and `ab` before the loop, though that was linked after it at first. -/
theorem sample_incident_in_order :
    Start sample ∧ (sample.after relinking).index.incident "a" = ["new", "ab", "aa"] ∧
      ∃ es : List Edge, es.Perm (sample.after relinking).model.edges ∧
        Follows ["new", "ab", "aa", "ab"] (es.map Edge.id) ∧
        (sample.after relinking).index.incident "a" = (edgesAt es "a").map Edge.id := by
  obtain ⟨es, hperm, hfollows, hlisted⟩ := incident_in_order.2 sample relinking start_sample
  have hlog : sample.linkedAfter sample.model.edgeIds.reverse relinking = ["new", "ab", "aa", "ab"] := by decide
  exact ⟨start_sample, by decide, es, hperm, hlog ▸ hfollows, (hlisted "a").1⟩

end Diagram

end DiagramEditor
