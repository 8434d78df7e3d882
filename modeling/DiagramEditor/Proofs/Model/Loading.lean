import DiagramEditor.Proofs.Diagram.Changes
import DiagramEditor.Proofs.Model.Values

/-!
# What a model is refused for

A model is checked where its parts are put together, where its document is read, and where an
index or a diagram is made of it. Each of these looks for repeated ids and loose ends in an order
of its own and in tables of its own. All of them accept the closed models and no others, and what
a model is refused for is really in it.
-/

set_option autoImplicit false

namespace DiagramEditor

open Json

namespace Model

variable {m : Model}

/-- The error tells something that is wrong with the model: an id that more than one of its
elements has, or an end of one of its edges that is none of its nodes. -/
inductive Flaw (m : Model) : EditError → Prop
  | shared {id : ElementId} : 2 ≤ m.ids.count id → Flaw m (.duplicateId id)
  | loose {e : Edge} {node : ElementId} : e ∈ m.edges → node ∈ [e.source, e.target] → node ∉ m.nodeIds →
      Flaw m (.danglingReference e.id node)

theorem Closed.not_shared (h : m.Closed) {id : ElementId} : ¬ 2 ≤ m.ids.count id :=
  Nat.not_le.mpr (Nat.lt_succ_of_le (List.nodup_iff_count_le_one.mp h.ids id))

theorem Flaw.not_closed {e : EditError} (h : m.Flaw e) : ¬ m.Closed := by
  intro hclosed
  cases h with
  | shared hcount => exact hclosed.not_shared hcount
  | loose he hnode habsent =>
    obtain ⟨hs, ht⟩ := hclosed.ends _ he
    rcases List.mem_pair.mp hnode with rfl | rfl
    · exact habsent hs
    · exact habsent ht

/-- An id that is looked for in two lists and is in both stands twice in the two together. -/
theorem two_le_count_append {id : ElementId} {before after : List ElementId} (hb : id ∈ before) (ha : id ∈ after) :
    2 ≤ (before ++ after).count id := by
  rw [List.count_append]
  exact Nat.add_le_add (List.count_pos_iff.mpr hb) (List.count_pos_iff.mpr ha)

theorem two_le_count_of_nodeIds {id : ElementId} (h : 2 ≤ m.nodeIds.count id) : 2 ≤ m.ids.count id :=
  h.trans ((List.sublist_append_left m.nodeIds m.edgeIds).count_le id)

theorem two_le_count_of_edgeIds {id : ElementId} (h : 2 ≤ m.edgeIds.count id) : 2 ≤ m.ids.count id :=
  h.trans ((List.sublist_append_right m.nodeIds m.edgeIds).count_le id)

/-! ### The check of ends -/

theorem danglingEnd?_eq_none_iff {e : Edge} :
    m.danglingEnd? e = none ↔ e.source ∈ m.nodeIds ∧ e.target ∈ m.nodeIds := by
  simp [danglingEnd?, ← hasNode_iff]

theorem of_danglingEnd? {e : Edge} {node : ElementId} (h : m.danglingEnd? e = some node) :
    node ∈ [e.source, e.target] ∧ node ∉ m.nodeIds := by
  refine ⟨List.mem_of_find?_eq_some h, ?_⟩
  rw [← hasNode_iff]
  simpa using List.find?_some h

theorem checkEnds_eq_ok_iff {es : List Edge} :
    m.checkEnds es = .ok () ↔ ∀ e ∈ es, e.source ∈ m.nodeIds ∧ e.target ∈ m.nodeIds := by
  induction es with
  | nil => simp [checkEnds]
  | cons e rest ih =>
    rw [checkEnds, List.forall_mem_cons, ← danglingEnd?_eq_none_iff, ← ih]
    cases m.danglingEnd? e <;> simp

theorem flaw_of_checkEnds {es : List Edge} (hes : ∀ e ∈ es, e ∈ m.edges) {fault : EditError}
    (h : m.checkEnds es = .error fault) : m.Flaw fault := by
  induction es with
  | nil => cases h
  | cons e rest ih =>
    rw [List.forall_mem_cons] at hes
    rw [checkEnds] at h
    cases hend : m.danglingEnd? e with
    | none => exact ih hes.2 (by simpa [hend] using h)
    | some node =>
      obtain ⟨hnode, habsent⟩ := of_danglingEnd? hend
      rw [hend] at h
      exact Except.error.inj h ▸ .loose hes.1 hnode habsent

theorem check_eq_ok_iff : m.check = .ok () ↔
    (∀ e ∈ m.edges, e.id ∉ m.nodeIds) ∧ ∀ e ∈ m.edges, e.source ∈ m.nodeIds ∧ e.target ∈ m.nodeIds := by
  have hshared : m.edges.find? (m.hasNode ·.id) = none ↔ ∀ e ∈ m.edges, e.id ∉ m.nodeIds := by
    simp [List.find?_eq_none, ← hasNode_iff]
  rw [check, ← hshared, ← checkEnds_eq_ok_iff]
  cases m.edges.find? (m.hasNode ·.id) <;> simp

theorem flaw_of_check {fault : EditError} (h : m.check = .error fault) : m.Flaw fault := by
  rw [check] at h
  cases hshared : m.edges.find? (m.hasNode ·.id) with
  | none =>
    rw [hshared] at h
    exact flaw_of_checkEnds (fun _ he => he) h
  | some e =>
    rw [hshared] at h
    have hnode : e.id ∈ m.nodeIds := hasNode_iff.mp (by simpa using List.find?_some hshared)
    have hedge : e.id ∈ m.edgeIds := List.mem_map_of_mem (List.mem_of_find?_eq_some hshared)
    exact Except.error.inj h ▸ .shared (two_le_count_append hnode hedge)

/-- Of a model whose nodes have different ids, and edges have, the check tells whether it is closed. -/
theorem closed_iff : m.Closed ↔ m.nodeIds.Nodup ∧ m.edgeIds.Nodup ∧ m.check = .ok () := by
  rw [check_eq_ok_iff]
  constructor
  · refine fun h => ⟨h.nodup_nodes, h.nodup_edges, fun e he hnode => ?_, h.ends⟩
    exact h.not_edge_of_node hnode (List.mem_map_of_mem he)
  · rintro ⟨hnodes, hedges, hapart, hends⟩
    refine ⟨hnodes.append hedges fun id hn he => ?_, hends⟩
    obtain ⟨e, hm, rfl⟩ := List.mem_map.mp he
    exact hapart e hm hn

/-! ### Acceptance -/

/-- What accepts a model only if it is closed, and tells what is wrong with it if not. -/
structure Exact {α : Type} (accept : Model → Except EditError α) (m : Model) : Prop where
  closed : ∀ a, accept m = .ok a → m.Closed
  flaw : ∀ e, accept m = .error e → m.Flaw e

namespace Exact

variable {α : Type} {accept : Model → Except EditError α}

theorem of_closed (h : Exact accept m) (hm : m.Closed) : ∃ a, accept m = .ok a := by
  cases ha : accept m with
  | ok a => exact ⟨a, rfl⟩
  | error e => exact absurd hm (h.flaw e ha).not_closed

theorem of_not_closed (h : Exact accept m) (hm : ¬ m.Closed) : ∃ e, accept m = .error e ∧ m.Flaw e := by
  cases ha : accept m with
  | ok a => exact absurd (h.closed a ha) hm
  | error e => exact ⟨e, rfl, h.flaw e ha⟩

end Exact

/-- The id found first is in what was seen or comes twice in the list. -/
theorem two_le_count_of_repeated? {seen ids : List ElementId} {id : ElementId} (h : repeated? seen ids = some id) :
    2 ≤ (seen ++ ids).count id := by
  induction ids generalizing seen with
  | nil => cases h
  | cons first rest ih =>
    by_cases hseen : first ∈ seen
    · rw [repeated?, if_pos (by simpa using hseen)] at h
      obtain rfl := Option.some.inj h
      exact two_le_count_append hseen List.mem_cons_self
    · rw [repeated?, if_neg (by simpa using hseen)] at h
      exact (List.perm_middle.count_eq id).symm ▸ ih h

/-- The first id that two nodes have, or two edges. -/
def repeatedId? (m : Model) : Option ElementId := (repeated? [] m.nodeIds).or (repeated? [] m.edgeIds)

theorem repeatedId?_eq_none_iff : m.repeatedId? = none ↔ m.nodeIds.Nodup ∧ m.edgeIds.Nodup := by
  rw [repeatedId?, Option.or_eq_none_iff, repeated?_eq_none_iff, repeated?_eq_none_iff]
  simp

theorem two_le_count_of_repeatedId? {id : ElementId} (h : m.repeatedId? = some id) : 2 ≤ m.ids.count id := by
  rcases Option.or_eq_some_iff.mp h with hnode | ⟨_, hedge⟩
  · exact two_le_count_of_nodeIds (two_le_count_of_repeated? hnode)
  · exact two_le_count_of_edgeIds (two_le_count_of_repeated? hedge)

/-! ### What accepts a model -/

theorem ofParts_eq (m : Model) : ofParts m.id m.nodes m.edges =
    match m.repeatedId? with
    | some id => .error (.duplicateId id)
    | none => m.check.map fun _ => m := by
  rw [ofParts, repeatedId?, nodeIds, edgeIds]
  cases repeated? [] (m.nodes.map (·.id)) with
  | some id => rfl
  | none =>
    cases repeated? [] (m.edges.map (·.id)) with
    | some id => rfl
    | none => cases hcheck : m.check <;> simp [hcheck, Except.map]

theorem exact_ofParts (m : Model) : Exact (fun m => ofParts m.id m.nodes m.edges) m where
  closed := by
    intro a h
    rw [ofParts_eq] at h
    cases hid : m.repeatedId? with
    | some id => simp [hid] at h
    | none =>
      cases hcheck : m.check with
      | error e => simp [hid, hcheck, Except.map] at h
      | ok u =>
        obtain ⟨hn, he⟩ := repeatedId?_eq_none_iff.mp hid
        exact closed_iff.mpr ⟨hn, he, hcheck⟩
  flaw := by
    intro e h
    rw [ofParts_eq] at h
    cases hid : m.repeatedId? with
    | some id =>
      simp only [hid, Except.error.injEq] at h
      exact h ▸ .shared (two_le_count_of_repeatedId? hid)
    | none =>
      cases hcheck : m.check with
      | error fault =>
        simp only [hid, hcheck, Except.map, Except.error.injEq] at h
        exact h ▸ flaw_of_check hcheck
      | ok u => simp [hid, hcheck, Except.map] at h

/-- The parts of a closed model make up that model. -/
theorem ofParts_of_closed (h : m.Closed) : ofParts m.id m.nodes m.edges = .ok m := by
  obtain ⟨hn, he, hcheck⟩ := closed_iff.mp h
  simp only [ofParts_eq, repeatedId?_eq_none_iff.mpr ⟨hn, he⟩, hcheck, Except.map]

end Model

namespace Index.Sound

variable {x : Index} {m : Model}

/-- Before any edge only an id that comes twice among the nodes is refused. -/
theorem flaw_of_insertNode (h : x.Sound) (hx : x.edgeIds = []) {n : Node} {rest : List Node}
    (hids : x.nodeIds ++ (n :: rest).map Node.id = m.nodeIds) {fault : EditError}
    (hy : x.insertNode n = .error fault) : m.Flaw fault := by
  rw [Index.insertNode] at hy
  cases hid : x.contains n.id with
  | false => simp [hid] at hy
  | true =>
    simp only [hid, if_pos, Except.error.injEq] at hy
    rw [h.contains_iff, hx, List.append_nil] at hid
    have htwice : 2 ≤ m.nodeIds.count n.id := hids ▸ Model.two_le_count_append hid List.mem_cons_self
    exact hy ▸ .shared (Model.two_le_count_of_nodeIds htwice)

theorem flaw_of_insertNodes (h : x.Sound) (hx : x.edgeIds = []) {ns : List Node}
    (hids : x.nodeIds ++ ns.map Node.id = m.nodeIds) {fault : EditError} (hy : x.insertNodes ns = .error fault) :
    m.Flaw fault := by
  induction ns generalizing x with
  | nil => cases hy
  | cons n rest ih =>
    rw [Index.insertNodes] at hy
    cases hn : x.insertNode n with
    | error e =>
      simp only [hn, Except.error.injEq] at hy
      exact hy ▸ h.flaw_of_insertNode hx hids hn
    | ok y =>
      rw [hn] at hy
      obtain ⟨_, hb⟩ := h.of_insertNode hn
      refine ih hb.sound ?_ ?_ hy
      · rw [hb.edgeIds, ← hx, links_ids]
      · rw [hb.nodes, ← hids, List.map_cons, List.append_assoc, List.singleton_append]

/-- An end without a slot is none of the nodes. -/
theorem flaw_of_ends (h : x.Sound) (hnodes : x.nodeIds = m.nodeIds) {e : Edge} (he : e ∈ m.edges) {fault : EditError}
    (hy : x.ends e = .error fault) : m.Flaw fault := by
  have habsent : ∀ {node : ElementId}, x.nodeSlot? node = none → node ∉ m.nodeIds := by
    intro node hnone
    rw [← hnodes, ← h.isSome_nodeSlot?_iff, hnone]
    exact Bool.false_ne_true
  cases hs : x.nodeSlot? e.source with
  | none =>
    simp only [ends, hs, Except.error.injEq] at hy
    exact hy ▸ .loose he (by simp) (habsent hs)
  | some source =>
    cases ht : x.nodeSlot? e.target with
    | none =>
      simp only [ends, hs, ht, Except.error.injEq] at hy
      exact hy ▸ .loose he (by simp) (habsent ht)
    | some target => simp [ends, hs, ht] at hy

theorem flaw_of_insertEdge (h : x.Sound) (hnodes : x.nodeIds = m.nodeIds) {e : Edge} {rest : List Edge}
    (hids : (x.edgeIds ++ (e :: rest).map Edge.id).Perm m.edgeIds) (he : e ∈ m.edges) {fault : EditError}
    (hy : x.insertEdge e = .error fault) : m.Flaw fault := by
  rw [Index.insertEdge] at hy
  cases hid : x.contains e.id with
  | true =>
    simp only [hid, if_pos, Except.error.injEq] at hy
    rw [h.contains_iff, List.mem_append, hnodes] at hid
    rcases hid with hnode | hedge
    · exact hy ▸ .shared (Model.two_le_count_append hnode (List.mem_map_of_mem he))
    · have htwice : 2 ≤ m.edgeIds.count e.id :=
        hids.count_eq e.id ▸ Model.two_le_count_append hedge List.mem_cons_self
      exact hy ▸ .shared (Model.two_le_count_of_edgeIds htwice)
  | false =>
    cases hends : x.ends e with
    | error cause =>
      simp only [hid, hends, Bool.false_eq_true, if_false, Except.error.injEq] at hy
      exact hy ▸ h.flaw_of_ends hnodes he hends
    | ok slots => simp [hid, hends] at hy

/-- The edges indexed and those still to come are those of the model; the index has the last one first. -/
theorem flaw_of_insertEdges (h : x.Sound) (hnodes : x.nodeIds = m.nodeIds) {es : List Edge}
    (hids : (x.edgeIds ++ es.map Edge.id).Perm m.edgeIds) (hes : ∀ e ∈ es, e ∈ m.edges) {fault : EditError}
    (hy : x.insertEdges es = .error fault) : m.Flaw fault := by
  induction es generalizing x with
  | nil => cases hy
  | cons e rest ih =>
    rw [List.forall_mem_cons] at hes
    rw [Index.insertEdges] at hy
    cases he : x.insertEdge e with
    | error e =>
      simp only [he, Except.error.injEq] at hy
      exact hy ▸ h.flaw_of_insertEdge hnodes hids hes.1 he
    | ok y =>
      rw [he] at hy
      obtain ⟨_, _, _, hb⟩ := h.of_insertEdge he
      refine ih hb.sound (hb.nodes.trans hnodes) ?_ hes.2 hy
      rw [hb.edgeIds, List.map_cons, links_ids]
      exact List.perm_middle.symm.trans hids

end Index.Sound

namespace Model

variable {m : Model}

theorem exact_build (m : Model) : Exact Index.build m where
  closed := fun _ h => (Diagram.InStep.of_build h).closed
  flaw := by
    intro e h
    rw [Index.build] at h
    cases hn : Index.insertNodes m.nodes Index.empty with
    | error fault =>
      simp only [hn, Except.error.injEq] at h
      exact h ▸ Index.sound_empty.flaw_of_insertNodes rfl rfl hn
    | ok x =>
      -- all nodes are in, and no edge is: all ids of edges are still to come
      rw [hn] at h
      have hb := Index.sound_empty.of_insertNodes hn
      have hedges : x.edgeIds = [] := hb.edgeIds
      exact hb.sound.flaw_of_insertEdges hb.nodes (by rw [hedges]; exact .refl _) (fun _ he => he) h

theorem exact_ofModel (m : Model) : Exact Diagram.ofModel m where
  closed := fun d h => (exact_build m).closed d.index (Diagram.of_ofModel_ok h).2.1
  flaw := by
    intro e h
    rw [Diagram.ofModel] at h
    cases hcheck : m.check with
    | error fault =>
      simp only [hcheck, Except.error.injEq] at h
      exact h ▸ flaw_of_check hcheck
    | ok u =>
      cases hx : Index.build m with
      | error fault =>
        simp only [hcheck, hx, Except.error.injEq] at h
        exact h ▸ (exact_build m).flaw fault hx
      | ok x => simp [hcheck, hx] at h

end Model

/-! ### What a document gives -/

/-- Every node and every edge can be written; ids and ends may be anything. -/
structure Model.Writable (m : Model) : Prop where
  nodes : ∀ n ∈ m.nodes, n.Writable
  edges : ∀ e ∈ m.edges, e.Writable

namespace Decoder

variable {α : Type} {d : Decoder α} {toValue : α → Value} {id : α → String} {as : List α}

/-- Reading a document and putting parts together find the same id first. -/
theorem distinct_eq_orFault (seen : List String) :
    distinct id seen as = orFault () ((Model.repeated? seen (as.map id)).map .duplicateElement) := by
  induction as generalizing seen with
  | nil => rfl
  | cons a rest ih =>
    rw [distinct, List.map_cons, Model.repeated?]
    split
    · rfl
    · exact ih (id a :: seen)

theorem elements_ofValue (h : ∀ a ∈ as, d.Gives (toValue a) a) :
    elements id d (Tree.ofValue (.array (as.map toValue))) =
      orFault as ((Model.repeated? [] (as.map id)).map .duplicateElement) := by
  have hlist : list d (Tree.ofValue (.array (as.map toValue))) = .ok as := gives_list h
  rw [elements, hlist]
  simp only [bind, Except.bind, distinct_eq_orFault]
  cases Model.repeated? [] (as.map id) <;> rfl

end Decoder

namespace Model

variable {m : Model}

/-- The document of a model gives that model, unless two nodes have an id or two edges. -/
theorem decode_ofValue (h : m.Writable) :
    Decoder.ofValue decode m.toValue = orFault m (m.repeatedId?.map .duplicateElement) := by
  have hnodes : Decoder.elements (·.id) Node.decode (Tree.ofValue (.array (m.nodes.map Node.toValue))) =
      orFault m.nodes ((repeated? [] m.nodeIds).map .duplicateElement) :=
    Decoder.elements_ofValue fun n hn => (h.nodes n hn).gives
  have hedges : Decoder.elements (·.id) Edge.decode (Tree.ofValue (.array (m.edges.map Edge.toValue))) =
      orFault m.edges ((repeated? [] m.edgeIds).map .duplicateElement) :=
    Decoder.elements_ofValue fun e he => (h.edges e he).gives
  rw [Tree.ofValue] at hnodes hedges
  rw [Decoder.ofValue, repeatedId?]
  cases hn : repeated? [] m.nodeIds <;> cases he : repeated? [] m.edgeIds <;>
    simp [toValue, Tree.ofValue, Tree.ofMembers, decode, Record.decode, Record.readMembers, Record.missing?, fields,
      Field.required, Field.defaulted, Field.make, Field.answersTo, Decoder.string, Except.map, hnodes, hedges, hn, he,
      WireError.inValue]

/-! ### Loading -/

inductive LoadFault where
  | document (e : WireError)
  | model (e : EditError)

/-- Reads the document of a model and hands the model on. -/
def load {α : Type} (accept : Model → Except EditError α) (v : Value) : Except LoadFault α :=
  match Decoder.ofValue decode v with
  | .error e => .error (.document e)
  | .ok m =>
    match accept m with
    | .error e => .error (.model e)
    | .ok a => .ok a

/-- The fault tells something that is wrong with the model. -/
inductive LoadFault.Tells (m : Model) : LoadFault → Prop
  | document {id : ElementId} : 2 ≤ m.ids.count id → Tells m (.document (.duplicateElement id))
  | model {e : EditError} : m.Flaw e → Tells m (.model e)

theorem decode_of_closed (h : m.Writable) (hm : m.Closed) : Decoder.ofValue decode m.toValue = .ok m := by
  rw [decode_ofValue h, repeatedId?_eq_none_iff.mpr ⟨hm.nodup_nodes, hm.nodup_edges⟩]
  rfl

section

variable {α : Type} {accept : Model → Except EditError α}

/-- A closed model is read, and it is the very model that is handed on. -/
theorem load_of_closed (h : m.Writable) (hm : m.Closed) {a : α} (ha : accept m = .ok a) :
    load accept m.toValue = .ok a := by
  simp only [load, decode_of_closed h hm, ha]

/-- Any other model is refused while it is read or when it is handed on. -/
theorem Exact.load_of_not_closed (ha : Exact accept m) (h : m.Writable) (hm : ¬ m.Closed) :
    ∃ fault, load accept m.toValue = .error fault ∧ fault.Tells m := by
  rw [load, decode_ofValue h]
  cases hid : m.repeatedId? with
  | some id => exact ⟨_, rfl, .document (two_le_count_of_repeatedId? hid)⟩
  | none =>
    obtain ⟨e, he, hflaw⟩ := ha.of_not_closed hm
    exact ⟨.model e, by simp [he], .model hflaw⟩

end

/-- A model that has passed its check passes the making of the index, and its index passes the
check against it. -/
theorem ofModel_of_check (hn : m.nodeIds.Nodup) (he : m.edgeIds.Nodup) (hcheck : m.check = .ok ()) :
    ∃ x, Index.build m = .ok x ∧ Diagram.ofModel m = .ok ⟨m, x⟩ ∧ x.mismatch? m = none := by
  obtain ⟨x, hx⟩ := (exact_build m).of_closed (closed_iff.mpr ⟨hn, he, hcheck⟩)
  refine ⟨x, hx, ?_, (Diagram.InStep.of_build hx).mismatch?_eq_none⟩
  simp only [Diagram.ofModel, hcheck, hx]

/-- Nodes and edges with finite coordinates are put together, or loaded into an index or a diagram,
if all ids differ and both ends of every edge are nodes. Then each gives the same model, in the given
order, and what has passed the check of a model passes all that follows. If not, each is refused for
an id that is there twice or an end that is missing. -/
theorem loading_agrees (h : m.Writable) :
    (m.Closed →
      ofParts m.id m.nodes m.edges = .ok m ∧ Decoder.ofValue decode m.toValue = .ok m ∧
        ∃ x, load Index.build m.toValue = .ok x ∧ load Diagram.ofModel m.toValue = .ok ⟨m, x⟩) ∧
      (¬ m.Closed →
        (∃ e, ofParts m.id m.nodes m.edges = .error e ∧ m.Flaw e) ∧
          (∃ fault, load Index.build m.toValue = .error fault ∧ fault.Tells m) ∧
            ∃ fault, load Diagram.ofModel m.toValue = .error fault ∧ fault.Tells m) ∧
        ∀ checked : Model, checked.nodeIds.Nodup → checked.edgeIds.Nodup → checked.check = .ok () →
          ∃ x, Index.build checked = .ok x ∧ Diagram.ofModel checked = .ok ⟨checked, x⟩ ∧
            x.mismatch? checked = none := by
  refine ⟨fun hm => ?_, fun hm => ⟨?_, ?_, ?_⟩, fun checked => ofModel_of_check⟩
  · obtain ⟨hn, he, hcheck⟩ := closed_iff.mp hm
    obtain ⟨x, hx, hd, _⟩ := ofModel_of_check hn he hcheck
    exact ⟨ofParts_of_closed hm, decode_of_closed h hm, x, load_of_closed h hm hx, load_of_closed h hm hd⟩
  · exact (exact_ofParts m).of_not_closed hm
  · exact (exact_build m).load_of_not_closed h hm
  · exact (exact_ofModel m).load_of_not_closed h hm

/-- Two nodes and an edge from the first. -/
def leading (target : ElementId) : Model where
  id := "sample"
  nodes := [⟨"a", "", ⟨10, 20⟩, some .standard, .emptyObject⟩, ⟨"b", "", ⟨110, 20⟩, none, .emptyObject⟩]
  edges := [⟨"e", "", "a", target, [⟨60, 40⟩], .emptyObject⟩]

theorem writable_leading (target : ElementId) : (leading target).Writable := by
  have hdata : Value.Ordered .emptyObject := .object List.Pairwise.nil (by simp)
  refine ⟨?_, ?_⟩
  · rw [leading, List.forall_mem_cons, List.forall_mem_singleton]
    exact ⟨⟨by decide +kernel, by decide +kernel, hdata⟩, by decide +kernel, by simp, hdata⟩
  · rw [leading, List.forall_mem_singleton]
    have hpoint : Point.IsFinite ⟨60, 40⟩ := by decide +kernel
    exact ⟨List.forall_mem_singleton.mpr hpoint, hdata⟩

theorem sample_loading_agrees :
    (leading "b").Writable ∧ (leading "c").Writable ∧
      (∃ x, load Diagram.ofModel (leading "b").toValue = .ok ⟨leading "b", x⟩) ∧
      (∃ fault, load Diagram.ofModel (leading "c").toValue = .error fault ∧ fault.Tells (leading "c")) ∧
      ∃ x, Index.build (leading "b") = .ok x ∧ Diagram.ofModel (leading "b") = .ok ⟨leading "b", x⟩ ∧
        x.mismatch? (leading "b") = none := by
  have hb := writable_leading "b"
  have hc := writable_leading "c"
  have hclosed : (leading "b").Closed := closed_iff.mpr ⟨by decide, by decide, rfl⟩
  have hloose : ¬ (leading "c").Closed :=
    (flaw_of_check (rfl : (leading "c").check = .error (.danglingReference "e" "c"))).not_closed
  obtain ⟨_, _, x, _, hmade⟩ := (loading_agrees hb).1 hclosed
  obtain ⟨_, _, hrefused⟩ := (loading_agrees hc).2.1 hloose
  exact ⟨hb, hc, ⟨x, hmade⟩, hrefused, (loading_agrees hb).2.2 (leading "b") (by decide) (by decide) rfl⟩

end Model

end DiagramEditor
