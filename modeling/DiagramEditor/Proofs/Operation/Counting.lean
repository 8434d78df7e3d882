import DiagramEditor.Proofs.Diagram.Effects
import DiagramEditor.Proofs.Runs

/-!
# The numbers of new elements

A new element is given the number of elements of its kind and type, itself counted in, and
its data starts from the defaults of the type with that number put in. No number is kept:
it is counted anew each time. A call puts elements behind those that are there or takes
some of them out, and no element ever changes its type, so the numbers go up for as long
as no element of that kind and type is removed.
-/

set_option autoImplicit false

namespace DiagramEditor

namespace Model

variable {m m' m'' : Model} {kind : ElementKind} {tag : TypeTag}

/-- The elements of a kind, each with its type. -/
def tagged (m : Model) : ElementKind → List (ElementId × TypeTag)
  | .node => m.nodes.map fun n => (n.id, n.tag)
  | .edge => m.edges.map fun e => (e.id, e.tag)

/-- The elements of a kind and type. -/
def idsOf (m : Model) (kind : ElementKind) (tag : TypeTag) : List ElementId :=
  ((m.tagged kind).filter (·.2 == tag)).map Prod.fst

theorem length_idsOf (m : Model) (kind : ElementKind) (tag : TypeTag) :
    (m.idsOf kind tag).length = m.count kind tag := by
  rw [idsOf, List.length_map, ← List.countP_eq_length_filter]
  cases kind <;> simp [tagged, count, List.countP_map, Function.comp_def]

/-- The model with an element put behind those of its kind. -/
def add (m : Model) : Element → Model
  | .node n => m.addNode n
  | .edge e => m.addEdge e

theorem tagged_addNode (m : Model) (n : Node) :
    (m.addNode n).tagged .node = m.tagged .node ++ [(n.id, n.tag)] ∧ (m.addNode n).tagged .edge = m.tagged .edge := by
  simp [tagged, addNode]

theorem tagged_addEdge (m : Model) (e : Edge) :
    (m.addEdge e).tagged .edge = m.tagged .edge ++ [(e.id, e.tag)] ∧ (m.addEdge e).tagged .node = m.tagged .node := by
  simp [tagged, addEdge]

/-- An element that is put in is counted once, with its own kind and type. -/
theorem count_add (m : Model) (element : Element) :
    (m.add element).count element.kind element.tag = m.count element.kind element.tag + 1 := by
  cases element <;> simp [add, count, addNode, addEdge, Element.kind, Element.tag]

theorem tagged_updateNode {f : Node → Node} (hid : ∀ n, (f n).id = n.id) (htag : ∀ n, (f n).tag = n.tag)
    (id : ElementId) : (m.updateNode id f).tagged = m.tagged := by
  funext kind
  cases kind with
  | node =>
    rw [tagged, tagged, updateNode, List.map_map]
    refine List.map_congr_left fun n _ => ?_
    by_cases h : n.id = id <;> simp [h, hid, htag]
  | edge => rfl

theorem tagged_updateEdge {f : Edge → Edge} (hid : ∀ e, (f e).id = e.id) (htag : ∀ e, (f e).tag = e.tag)
    (id : ElementId) : (m.updateEdge id f).tagged = m.tagged := by
  funext kind
  cases kind with
  | node => rfl
  | edge =>
    rw [tagged, tagged, updateEdge, List.map_map]
    refine List.map_congr_left fun e _ => ?_
    by_cases h : e.id = id <;> simp [h, hid, htag]

/-- Elements are put behind those that are there. -/
def Grows (m m' : Model) : Prop := ∀ kind, m.tagged kind <+: m'.tagged kind

/-- Elements are taken out. -/
def Shrinks (m m' : Model) : Prop :=
  ∀ kind, ∃ gone : List ElementId, m'.tagged kind = (m.tagged kind).filter (·.1 ∉ gone)

namespace Grows

theorem refl (m : Model) : m.Grows m := fun _ => List.prefix_rfl

theorem trans (h : m.Grows m') (h' : m'.Grows m'') : m.Grows m'' := fun kind => (h kind).trans (h' kind)

theorem of_eq (h : m'.tagged = m.tagged) : m.Grows m' := fun _ => h ▸ List.prefix_rfl

theorem add (m : Model) (element : Element) : m.Grows (m.add element) := by
  intro kind
  cases element with
  | node n =>
    cases kind with
    | node => exact ⟨_, (tagged_addNode m n).1.symm⟩
    | edge => exact (tagged_addNode m n).2 ▸ List.prefix_rfl
  | edge e =>
    cases kind with
    | node => exact (tagged_addEdge m e).2 ▸ List.prefix_rfl
    | edge => exact ⟨_, (tagged_addEdge m e).1.symm⟩

theorem idsOf_prefix (h : m.Grows m') (kind : ElementKind) (tag : TypeTag) : m.idsOf kind tag <+: m'.idsOf kind tag :=
  ((h kind).filter _).map _

end Grows

namespace Shrinks

theorem refl (m : Model) : m.Shrinks m := fun _ => ⟨[], by simp⟩

theorem trans (h : m.Shrinks m') (h' : m'.Shrinks m'') : m.Shrinks m'' := by
  intro kind
  obtain ⟨gone, hgone⟩ := h kind
  obtain ⟨more, hmore⟩ := h' kind
  refine ⟨gone ++ more, ?_⟩
  rw [hmore, hgone, List.filter_filter]
  exact List.filter_congr fun p _ => by simp [Bool.and_comm]

theorem eraseEdges (m : Model) (ids : List ElementId) : m.Shrinks (ids.foldl Model.eraseEdge m) := by
  rw [foldl_eraseEdge]
  intro kind
  cases kind with
  | node => exact refl m .node
  | edge => exact ⟨ids, by simp [tagged, List.filter_map, Function.comp_def]⟩

theorem eraseNode (m : Model) (id : ElementId) : m.Shrinks (m.eraseNode id) := by
  intro kind
  cases kind with
  | node => exact ⟨[id], by simp [tagged, Model.eraseNode, List.filter_map, Function.comp_def, bne, beq_eq_decide]⟩
  | edge => exact refl m .edge

/-- Where an element of that kind and type is still there it is still of that type, so they are all
the same. -/
theorem idsOf_eq (h : m.Shrinks m')
    (hkept : ∀ id ∈ m.idsOf kind tag, id ∈ (m'.tagged kind).map Prod.fst) : m'.idsOf kind tag = m.idsOf kind tag := by
  obtain ⟨gone, hgone⟩ := h kind
  rw [idsOf, idsOf, hgone, List.filter_filter]
  refine congrArg (List.map Prod.fst) (List.filter_congr fun p hp => ?_)
  cases htag : p.2 == tag with
  | false => rfl
  | true =>
    obtain ⟨q, hq, hid⟩ := List.mem_map.mp (hkept p.1 (List.mem_map_of_mem (List.mem_filter.mpr ⟨hp, htag⟩)))
    rw [hgone, List.mem_filter, hid] at hq
    exact hq.2

end Shrinks

end Model

/-- The kind and type of the element an operation makes. -/
def Operation.made? : Operation → Option (ElementKind × TypeTag)
  | .createNode tag _ => some (.node, tag)
  | .createEdge tag _ _ => some (.edge, tag)
  | _ => none

/-- An element is put in whose data are the defaults of its type for that number. -/
def Model.Gains (l : Language) (kind : ElementKind) (tag : TypeTag) (number : Nat) (m m' : Model) : Prop :=
  ∃ type element, l.find? kind tag = some type ∧ element.kind = kind ∧ element.tag = tag ∧
    element.data = type.instantiate number ∧ m' = m.add element

namespace Diagram

variable {d d' : Diagram} {kind : ElementKind} {tag : TypeTag}

theorem add_of_insertNode {n : Node} (hd : d.insertNode n = .ok d') : d'.model = d.model.add (.node n) := by
  rw [insertNode] at hd
  split at hd
  · cases hd
  · split at hd
    · cases hd
    · exact Except.ok.inj hd ▸ rfl

theorem add_of_insertEdge {e : Edge} (hd : d.insertEdge e = .ok d') : d'.model = d.model.add (.edge e) := by
  rw [insertEdge] at hd
  split at hd
  · cases hd
  · split at hd
    · cases hd
    · exact Except.ok.inj hd ▸ rfl

theorem shrinks_of_remove {id : ElementId} {removed : List ElementId} (hd : d.remove id = .ok (d', removed)) :
    d.model.Shrinks d'.model := by
  rw [remove] at hd
  split at hd
  · obtain ⟨rfl, _⟩ := Prod.mk.inj (Except.ok.inj hd)
    exact (Model.Shrinks.eraseNode d.model id).trans (.eraseEdges _ _)
  · obtain ⟨rfl, _⟩ := Prod.mk.inj (Except.ok.inj hd)
    exact .eraseEdges d.model [id]
  · cases hd

theorem tagged_setBounds {id : ElementId} {position : Option Point} {size : Option Size}
    (hd : d.setBounds id position size = .ok d') : d'.model.tagged = d.model.tagged := by
  rw [of_setBounds hd]
  refine Model.tagged_updateNode ?_ ?_ id <;> exact fun _ => rfl

theorem tagged_setRouting {id : ElementId} {points : List Point} (hd : d.setRouting id points = .ok d') :
    d'.model.tagged = d.model.tagged := by
  rw [of_setRouting hd]
  refine Model.tagged_updateEdge ?_ ?_ id <;> exact fun _ => rfl

theorem tagged_setData {id : ElementId} {data : Json.Value} (hd : d.setData id data = .ok d') :
    d'.model.tagged = d.model.tagged := by
  rw [setData] at hd
  split at hd
  · obtain rfl := Except.ok.inj hd
    refine Model.tagged_updateNode ?_ ?_ id <;> exact fun _ => rfl
  · obtain rfl := Except.ok.inj hd
    refine Model.tagged_updateEdge ?_ ?_ id <;> exact fun _ => rfl
  · cases hd

/-- Refused or not, new ends for an edge leave it the edge it is. -/
theorem tagged_relink (d : Diagram) (id source target : ElementId) :
    (d.relink id source target).2.model.tagged = d.model.tagged := by
  rw [relink]
  split
  · rfl
  · split
    · rfl
    · dsimp only
      have hsame := Model.tagged_updateEdge (m := d.model)
        (f := fun e => { e with source := source, target := target }) (fun _ => rfl) (fun _ => rfl) id
      split <;> exact hsame

end Diagram

namespace Operation

open Diagram Edit

variable {w w' : Workspace} {out : Outcome}

/-- An operation puts elements in, takes some out or does neither, also where it is refused half way. -/
theorem grows_or_shrinks (op : Operation) (c : EditContext) (w : Workspace) :
    w.diagram.model.Grows (op.apply c w).2.diagram.model ∨
      w.diagram.model.Shrinks (op.apply c w).2.diagram.model := by
  have hnode : ∀ (n : Node) (d d' : Diagram), w.diagram.model.Grows d.model → d.insertNode n = .ok d' →
      w.diagram.model.Grows d'.model := fun n d _ hg hd => hg.trans (add_of_insertNode hd ▸ .add d.model (.node n))
  have hedge : ∀ (e : Edge) (d d' : Diagram), w.diagram.model.Grows d.model → d.insertEdge e = .ok d' →
      w.diagram.model.Grows d'.model := fun e d _ hg hd => hg.trans (add_of_insertEdge hd ▸ .add d.model (.edge e))
  have hremove : ∀ id (d d' : Diagram) removed, w.diagram.model.Shrinks d.model → d.remove id = .ok (d', removed) →
      w.diagram.model.Shrinks d'.model := fun _ _ _ _ hs hd => hs.trans (shrinks_of_remove hd)
  have hdata : ∀ id data (d d' : Diagram), w.diagram.model.Grows d.model → d.setData id data = .ok d' →
      w.diagram.model.Grows d'.model := fun _ _ _ _ hg hd => hg.trans (.of_eq (tagged_setData hd))
  have hstart : w.diagram.model.Grows w.diagram.model := .refl _
  have hbegin : w.diagram.model.Shrinks w.diagram.model := .refl _
  cases op with
  | createNode tag location => exact .inl (keeps_createNode hnode _ _ _ w hstart)
  | createEdge tag source target => exact .inl (keeps_createEdge hedge _ _ _ _ w hstart)
  | deleteElements ids => exact .inr (keeps_delete hremove ids w hbegin)
  | changeBounds bounds =>
    have hbounds : ∀ (b : Bounds) (d d' : Diagram), w.diagram.model.Grows d.model →
        d.setBounds b.element b.position b.size = .ok d' → w.diagram.model.Grows d'.model := fun _ _ _ hg hd =>
      hg.trans (.of_eq (tagged_setBounds hd))
    exact .inl (keeps_each _ _ hbounds bounds w hstart)
  | changeRouting routings =>
    have hrouting : ∀ (r : Routing) (d d' : Diagram), w.diagram.model.Grows d.model →
        d.setRouting r.element r.points = .ok d' → w.diagram.model.Grows d'.model := fun _ _ _ hg hd =>
      hg.trans (.of_eq (tagged_setRouting hd))
    exact .inl (keeps_each _ _ hrouting routings w hstart)
  | reconnectEdge edge source target =>
    have hrelink : ∀ d : Diagram, w.diagram.model.Grows d.model →
        w.diagram.model.Grows (d.relink edge source target).2.model := fun d hg =>
      hg.trans (.of_eq (tagged_relink d edge source target))
    exact .inl (Keeps.bind (Keeps.attempt hrelink) (fun _ => Keeps.pure _) w hstart)
  | editLabel label text => exact .inl (keeps_editLabel hdata label text w hstart)
  | changeData element data mode => exact .inl (keeps_changeData hdata c element data mode w hstart)
  | cut ids => exact .inr (keeps_cut hremove ids w hbegin)
  | paste clipboard location => exact .inl (keeps_paste hnode hedge clipboard location w hstart)
  | refreshShowcase => exact .inl (keeps_refreshShowcase hdata _ w hstart)

theorem find?_of_typeOf {l : Language} {kind : ElementKind} {tag : TypeTag} {type : ElementType}
    (h : typeOf l kind tag = .ok type) : l.find? kind tag = some type := by
  rw [typeOf] at h
  split at h
  · exact (Except.ok.inj h) ▸ ‹_›
  · cases h

theorem gains_createNode {l : Language} {tag : TypeTag} {location : Option Point}
    (hop : (runCreateNode l tag location).on w = (.ok out, w')) :
    Model.Gains l .node tag (w.diagram.model.count .node tag + 1) w.diagram.model w'.diagram.model := by
  rw [runCreateNode] at hop
  obtain ⟨type, htype, hop⟩ := of_on_ofExcept_bind hop
  rw [on_bind_ok (on_freshId w), on_bind_ok (on_diagram _)] at hop
  obtain ⟨hd, _⟩ := of_on_change_pure hop
  exact ⟨type, _, find?_of_typeOf htype, rfl, rfl, rfl, add_of_insertNode hd⟩

theorem gains_createEdge {l : Language} {tag : TypeTag} {source target : ElementId}
    (hop : (runCreateEdge l tag source target).on w = (.ok out, w')) :
    Model.Gains l .edge tag (w.diagram.model.count .edge tag + 1) w.diagram.model w'.diagram.model := by
  rw [runCreateEdge] at hop
  obtain ⟨type, htype, hop⟩ := of_on_ofExcept_bind hop
  rw [on_bind_ok (on_freshId w), on_bind_ok (on_diagram _)] at hop
  obtain ⟨hd, _⟩ := of_on_change_pure hop
  exact ⟨type, _, find?_of_typeOf htype, rfl, rfl, rfl, add_of_insertEdge hd⟩

theorem gains_of_made? {op : Operation} {c : EditContext} {kind : ElementKind} {tag : TypeTag}
    (hmade : op.made? = some (kind, tag)) (hop : (op.apply c w).1 = .ok out) :
    Model.Gains c.language kind tag (w.diagram.model.count kind tag + 1) w.diagram.model
      (op.apply c w).2.diagram.model := by
  have hrun : (op.run c).on w = (.ok out, (op.apply c w).2) := Prod.ext hop rfl
  cases op with
  | createNode _ _ =>
    cases hmade
    exact gains_createNode hrun
  | createEdge _ _ _ =>
    cases hmade
    exact gains_createEdge hrun
  | _ => cases hmade

end Operation

namespace Diagram

variable {d d' : Diagram} {kind : ElementKind} {tag : TypeTag}

theorem grows_or_shrinks_call (d : Diagram) (call : Call) :
    d.model.Grows (d.call call).model ∨ d.model.Shrinks (d.call call).model := by
  have horElse : ∀ {made : Except EditError Diagram},
      (∀ d', made = .ok d' → d.model.Grows d'.model ∨ d.model.Shrinks d'.model) →
        d.model.Grows (d.orElse made).model ∨ d.model.Shrinks (d.orElse made).model := by
    intro made h
    cases made with
    | error e => exact .inl (.refl _)
    | ok d' => exact h d' rfl
  cases call with
  | apply op context ids => exact op.grows_or_shrinks context ⟨d, ids⟩
  | render language =>
    refine horElse fun d' hd => .inl (.of_eq ?_)
    obtain ⟨rendering, hr⟩ := of_map_fst_ok hd
    rw [model_of_render hr]
  | insertNode n => exact horElse fun _ hd => .inl (add_of_insertNode hd ▸ .add d.model (.node n))
  | insertEdge e => exact horElse fun _ hd => .inl (add_of_insertEdge hd ▸ .add d.model (.edge e))
  | remove id =>
    refine horElse fun d' hd => .inr ?_
    obtain ⟨removed, hr⟩ := of_map_fst_ok hd
    exact shrinks_of_remove hr
  | setBounds id position size => exact horElse fun _ hd => .inl (.of_eq (tagged_setBounds hd))
  | setRouting id points => exact horElse fun _ hd => .inl (.of_eq (tagged_setRouting hd))
  | relink id source target => exact .inl (.of_eq (tagged_relink d id source target))
  | setData id data => exact horElse fun _ hd => .inl (.of_eq (tagged_setData hd))

/-- The number a call gives the element of that kind and type it makes. -/
def number? (kind : ElementKind) (tag : TypeTag) (d : Diagram) : Call → Option Nat
  | .apply op c ids =>
    if op.made? = some (kind, tag) ∧ (op.apply c ⟨d, ids⟩).1.isOk then some (d.model.count kind tag + 1) else none
  | _ => none

/-- The numbers given to elements of that kind and type, one after the other. -/
def numbers (kind : ElementKind) (tag : TypeTag) : Diagram → List Call → List Nat
  | _, [] => []
  | d, call :: rest => (d.number? kind tag call).toList ++ numbers kind tag (d.call call) rest

/-- None of the calls removes an element of that kind and type. -/
def Retains (kind : ElementKind) (tag : TypeTag) : Diagram → List Call → Prop
  | _, [] => True
  | d, call :: rest =>
    (∀ id ∈ d.model.idsOf kind tag, id ∈ ((d.call call).model.tagged kind).map Prod.fst) ∧
      Retains kind tag (d.call call) rest

instance decidableRetains (kind : ElementKind) (tag : TypeTag) :
    (d : Diagram) → (calls : List Call) → Decidable (d.Retains kind tag calls)
  | _, [] => .isTrue trivial
  | d, call :: rest =>
    have := decidableRetains kind tag (d.call call) rest
    inferInstanceAs (Decidable (_ ∧ _))

theorem number?_eq_some {op : Operation} {c : EditContext} {ids : IdSupply} {out : Outcome}
    (hmade : op.made? = some (kind, tag)) (hop : (op.apply c ⟨d, ids⟩).1 = .ok out) :
    d.number? kind tag (.apply op c ids) = some (d.model.count kind tag + 1) := by
  rw [number?, if_pos ⟨hmade, by rw [hop]; rfl⟩]

theorem count_of_number? {call : Call} {n : Nat} (h : d.number? kind tag call = some n) :
    n = d.model.count kind tag + 1 ∧ (d.call call).model.count kind tag = n := by
  cases call with
  | apply op c ids =>
    rw [number?] at h
    split at h
    · rename_i hmade
      obtain rfl := Option.some.inj h
      cases hop : (op.apply c ⟨d, ids⟩).1 with
      | error e => simp [hop, Except.isOk, Except.toBool] at hmade
      | ok out =>
        obtain ⟨type, element, _, rfl, rfl, _, hmodel⟩ := Operation.gains_of_made? hmade.1 hop
        exact ⟨rfl, (congrArg (Model.count · _ _) hmodel).trans (Model.count_add _ _)⟩
    · cases h
  | _ => cases h

namespace Retains

theorem idsOf_prefix_call {call : Call}
    (h : ∀ id ∈ d.model.idsOf kind tag, id ∈ ((d.call call).model.tagged kind).map Prod.fst) :
    d.model.idsOf kind tag <+: (d.call call).model.idsOf kind tag := by
  rcases d.grows_or_shrinks_call call with hg | hs
  · exact hg.idsOf_prefix kind tag
  · exact hs.idsOf_eq h ▸ List.prefix_rfl

theorem of_append {before rest : List Call} (h : d.Retains kind tag (before ++ rest)) : d.Retains kind tag before := by
  induction before generalizing d with
  | nil => trivial
  | cons call before ih => exact ⟨h.1, ih h.2⟩

/-- While none of them is removed, others come behind them. -/
theorem idsOf_prefix {calls : List Call} (h : d.Retains kind tag calls) :
    d.model.idsOf kind tag <+: (d.after calls).model.idsOf kind tag := by
  induction calls generalizing d with
  | nil => exact List.prefix_rfl
  | cons call rest ih => exact (idsOf_prefix_call h.1).trans (ih h.2)

theorem count_le_call {call : Call} {rest : List Call} (h : d.Retains kind tag (call :: rest)) :
    d.model.count kind tag ≤ (d.call call).model.count kind tag := by
  rw [← Model.length_idsOf, ← Model.length_idsOf]
  exact (idsOf_prefix_call h.1).length_le

/-- What is made later has a number above the count so far. -/
theorem count_lt {calls : List Call} (h : d.Retains kind tag calls) :
    ∀ n ∈ d.numbers kind tag calls, d.model.count kind tag < n := by
  induction calls generalizing d with
  | nil => simp [numbers]
  | cons call rest ih =>
    intro n hn
    rcases List.mem_append.mp hn with hfirst | hlater
    · have hn := (count_of_number? (Option.mem_toList.mp hfirst)).1
      omega
    · exact Nat.lt_of_le_of_lt h.count_le_call (ih h.2 n hlater)

theorem numbers_pairwise {calls : List Call} (h : d.Retains kind tag calls) :
    (d.numbers kind tag calls).Pairwise (· < ·) := by
  induction calls generalizing d with
  | nil => exact List.Pairwise.nil
  | cons call rest ih =>
    rw [numbers]
    cases hnumber : d.number? kind tag call with
    | none => exact ih h.2
    | some n =>
      refine List.pairwise_cons.mpr ⟨fun later hlater => ?_, ih h.2⟩
      exact (count_of_number? hnumber).2 ▸ count_lt h.2 later hlater

end Retains

/-- As long as no element of a kind and type is removed, the numbers given to new ones go up and begin above
the count there was. Each operation that makes one gives its number to the default data: one more than there were
at first and have come since. Elements of the other kind play no part in it. -/
theorem numbers_increase {calls : List Call} (h : d.Retains kind tag calls) :
    (d.numbers kind tag calls).Pairwise (· < ·) ∧
      (∀ n ∈ d.numbers kind tag calls, d.model.count kind tag < n) ∧
      ∀ before op c ids rest out, calls = before ++ .apply op c ids :: rest → op.made? = some (kind, tag) →
        (op.apply c ⟨d.after before, ids⟩).1 = .ok out →
          ∃ n new, (d.after before).number? kind tag (.apply op c ids) = some n ∧
            Model.Gains c.language kind tag n (d.after before).model ((d.after before).call (.apply op c ids)).model ∧
            (d.after before).model.idsOf kind tag = d.model.idsOf kind tag ++ new ∧
            n = d.model.count kind tag + new.length + 1 ∧
            ∀ other : Diagram, other.model.tagged kind = (d.after before).model.tagged kind →
              ∀ n', other.number? kind tag (.apply op c ids) = some n' → n' = n := by
  refine ⟨h.numbers_pairwise, h.count_lt, ?_⟩
  rintro before op c ids rest out rfl hmade hop
  obtain ⟨new, hnew⟩ := h.of_append.idsOf_prefix
  have hcount : (d.after before).model.count kind tag = d.model.count kind tag + new.length := by
    rw [← Model.length_idsOf, ← Model.length_idsOf, ← hnew, List.length_append]
  have hgains := Operation.gains_of_made? (w := ⟨d.after before, ids⟩) hmade hop
  refine ⟨_, new, number?_eq_some hmade hop, hgains, hnew.symm, by rw [hcount], ?_⟩
  intro other hother n' hn'
  rw [(count_of_number? hn').1, ← Model.length_idsOf, ← Model.length_idsOf, Model.idsOf, hother, Model.idsOf]

/-- A language with a node type and an edge type of one tag, each of which starts with its number. -/
def numbered : EditContext where
  language :=
    let data := .string "$\x7bautoincrement\x7d"
    ⟨⟨"numbered", "", 1, [], []⟩, [⟨"task", .node, "Task", .labelled "node" "Task", none, some data, [], none⟩],
      [⟨"task", .edge, "Task", .labelled "edge" "Task", none, some data, [], none⟩]⟩
  policy := .validate

/-- Two nodes are made; between them an edge of that tag, a node whose id is taken, and a node of another type
is removed, with the edge. -/
theorem sample_numbers_increase :
    let calls : List Call :=
      [.apply (.createNode "task" none) numbered .start, .apply (.createEdge "task" "a" "b") numbered ⟨.numbered, 2⟩,
        .apply (.createNode "task" none) numbered .start, .apply (.deleteElements ["a"]) numbered .start,
        .render numbered.language, .apply (.createNode "task" none) numbered ⟨.numbered, 3⟩]
    sample.Retains .node "task" calls ∧ sample.numbers .node "task" calls = [1, 2] ∧ [1, 2].Pairwise (· < ·) := by
  intro calls
  have h : sample.Retains .node "task" calls := by decide +kernel
  have hnumbers : sample.numbers .node "task" calls = [1, 2] := by decide +kernel
  exact ⟨h, hnumbers, hnumbers ▸ (numbers_increase h).1⟩

end Diagram

end DiagramEditor
