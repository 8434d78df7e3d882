import DiagramEditor.Keyed.Diagram

/-!
# Changes under keys

As long as every element stands under its own id, a diagram over maps is told apart from the
diagram without keys by nothing: each lookup finds the same, each change is refused for the
same reason or leads to the same, and it leaves every element under its own id again.
-/

set_option autoImplicit false

namespace DiagramEditor

open Json

/-! ### Maps -/

theorem Table.get?_eq_find? {κ α : Type} [DecidableEq κ] (key : κ) (t : Table κ α) :
    get? key t = (t.find? (·.1 == key)).map Prod.snd := by
  induction t with
  | nil => rfl
  | cons p rest ih =>
    obtain ⟨k, a⟩ := p
    by_cases hk : k = key
    · simp [get?, hk]
    · simpa [get?, hk] using ih

/-- What is asked of the keys can be asked of the ids. -/
theorem Table.find?_map_snd {α : Type} [Keyed α] {t : Table ElementId α} (h : ∀ p ∈ t, p.1 = Keyed.key p.2)
    (found : ElementId → Bool) :
    (t.map Prod.snd).find? (found <| Keyed.key ·) = (t.find? (found ·.1)).map Prod.snd := by
  induction t with
  | nil => rfl
  | cons p rest ih =>
    rw [List.forall_mem_cons] at h
    rw [List.map_cons, List.find?_cons, List.find?_cons, ih h.2, h.1]
    cases found (Keyed.key p.2) <;> rfl

namespace KeyedMap

variable {α : Type} {m : KeyedMap α} {key : ElementId} {f : α → α}

theorem own_empty [Keyed α] : (empty : KeyedMap α).Own := by
  simp [Own, empty]

theorem length_values (m : KeyedMap α) : m.values.length = m.size := List.length_map _

theorem values_put (h : m.has key = false) (a : α) : (m.put key a).values = m.values ++ [a] := by
  have hnone : Table.get? key m.entries = none := Option.isSome_eq_false_iff.mp h |> Option.isNone_iff_eq_none.mp
  simp [values, put, Table.put_of_get?_eq_none a hnone]

namespace Own

variable [Keyed α]

theorem get? (h : m.Own) (key : ElementId) : m.get? key = m.values.find? (Keyed.key · == key) :=
  (Table.get?_eq_find? key m.entries).trans (Table.find?_map_snd h (· == key)).symm

theorem has (h : m.Own) (key : ElementId) : m.has key = m.values.any (Keyed.key · == key) := by
  rw [KeyedMap.has, h.get?, List.isSome_find?]

theorem put (h : m.Own) (a : α) : (m.put (Keyed.key a) a).Own := by
  intro p hp
  rcases Table.mem_of_mem_put hp with rfl | hp
  · rfl
  · exact h p hp

theorem erase (h : m.Own) (key : ElementId) : (m.erase key).Own := by
  exact fun p hp => h p (Table.mem_of_mem_erase hp)

theorem values_erase (h : m.Own) (key : ElementId) :
    (m.erase key).values = m.values.filter (Keyed.key · != key) := by
  have hkept : (m.erase key).entries = m.entries.filter fun p => Keyed.key p.2 != key := by
    refine (Table.erase_eq_filter key m.entries).trans (List.filter_congr fun p hp => ?_)
    rw [h p hp, Bool.eq_iff_iff, decide_eq_true_eq, bne_iff_ne]
  rw [values, hkept, values, List.filter_map]
  rfl

/-- A change that leaves the id alone leaves what is changed where it stands. -/
theorem adjust (h : m.Own) (hf : ∀ a, Keyed.key (f a) = Keyed.key a) (key : ElementId) : (m.adjust key f).Own := by
  intro p hp
  obtain ⟨q, hq, rfl⟩ := List.mem_map.mp hp
  dsimp only
  split
  · rw [hf]
    exact h q hq
  · exact h q hq

theorem values_adjust (h : m.Own) (key : ElementId) (f : α → α) :
    (m.adjust key f).values = m.values.map fun a => if Keyed.key a == key then f a else a := by
  simp only [values, KeyedMap.adjust, List.map_map]
  refine List.map_congr_left fun p hp => ?_
  simp only [Function.comp_apply, ← h p hp]

end Own

end KeyedMap

/-! ### Models -/

namespace KeyedModel

variable {m : KeyedModel}

theorem own_empty (id : String) : (empty id).Own := ⟨KeyedMap.own_empty, KeyedMap.own_empty⟩

theorem size_plain (m : KeyedModel) : m.plain.size = m.size := by
  rw [Model.size, plain, m.nodes.length_values, m.edges.length_values, size]

namespace Own

/-! Lookups -/

theorem node? (h : m.Own) (key : ElementId) : m.plain.node? key = m.node? key := (h.nodes.get? key).symm

theorem edge? (h : m.Own) (key : ElementId) : m.plain.edge? key = m.edge? key := (h.edges.get? key).symm

theorem hasNode (h : m.Own) : m.plain.hasNode = m.hasNode := funext fun key => (h.nodes.has key).symm

theorem hasEdge (h : m.Own) : m.plain.hasEdge = m.hasEdge := funext fun key => (h.edges.has key).symm

theorem contains (h : m.Own) : m.plain.contains = m.contains := by
  funext key
  rw [Model.contains, h.hasNode, h.hasEdge, KeyedModel.contains]

theorem checkEnds (h : m.Own) (es : List Edge) : m.plain.checkEnds es = m.checkEnds es := by
  induction es with
  | nil => rfl
  | cons e rest ih =>
    rw [Model.checkEnds, Model.danglingEnd?, h.hasNode, ih]
    rfl

theorem check (h : m.Own) : m.plain.check = m.check := by
  have hshared : m.plain.edges.find? (m.plain.hasNode ·.id) = (m.edges.entries.find? (m.hasNode ·.1)).map Prod.snd := by
    rw [h.hasNode]
    exact Table.find?_map_snd h.edges m.hasNode
  rw [Model.check, KeyedModel.check, hshared]
  cases hfound : m.edges.entries.find? (m.hasNode ·.1) with
  | none => exact h.checkEnds m.plain.edges
  | some p =>
    have hkey : p.1 = p.2.id := h.edges p (List.mem_of_find?_eq_some hfound)
    simp only [Option.map_some, hkey]

/-! Changes -/

theorem addNode (h : m.Own) (n : Node) : (m.addNode n).Own := ⟨h.nodes.put n, h.edges⟩

theorem addEdge (h : m.Own) (e : Edge) : (m.addEdge e).Own := ⟨h.nodes, h.edges.put e⟩

theorem eraseNode (h : m.Own) (key : ElementId) : (m.eraseNode key).Own := ⟨h.nodes.erase key, h.edges⟩

theorem eraseEdge (h : m.Own) (key : ElementId) : (m.eraseEdge key).Own := ⟨h.nodes, h.edges.erase key⟩

theorem updateNode (h : m.Own) {f : Node → Node} (hf : ∀ n, (f n).id = n.id) (key : ElementId) :
    (m.updateNode key f).Own := ⟨h.nodes.adjust hf key, h.edges⟩

theorem updateEdge (h : m.Own) {f : Edge → Edge} (hf : ∀ e, (f e).id = e.id) (key : ElementId) :
    (m.updateEdge key f).Own := ⟨h.nodes, h.edges.adjust hf key⟩

theorem plain_eraseNode (h : m.Own) (key : ElementId) : (m.eraseNode key).plain = m.plain.eraseNode key :=
  congrArg (Model.mk m.id · m.edges.values) (h.nodes.values_erase key)

theorem plain_eraseEdge (h : m.Own) (key : ElementId) : (m.eraseEdge key).plain = m.plain.eraseEdge key :=
  congrArg (Model.mk m.id m.nodes.values) (h.edges.values_erase key)

theorem plain_updateNode (h : m.Own) (key : ElementId) (f : Node → Node) :
    (m.updateNode key f).plain = m.plain.updateNode key f :=
  congrArg (Model.mk m.id · m.edges.values) (h.nodes.values_adjust key f)

theorem plain_updateEdge (h : m.Own) (key : ElementId) (f : Edge → Edge) :
    (m.updateEdge key f).plain = m.plain.updateEdge key f :=
  congrArg (Model.mk m.id m.nodes.values) (h.edges.values_adjust key f)

theorem foldl_eraseEdge (h : m.Own) (keys : List ElementId) :
    (keys.foldl KeyedModel.eraseEdge m).Own ∧
      (keys.foldl KeyedModel.eraseEdge m).plain = keys.foldl Model.eraseEdge m.plain := by
  induction keys generalizing m with
  | nil => exact ⟨h, rfl⟩
  | cons key rest ih =>
    rw [List.foldl_cons, List.foldl_cons, ← h.plain_eraseEdge]
    exact ih (h.eraseEdge key)

end Own

theorem plain_addNode {n : Node} (h : m.contains n.id = false) : (m.addNode n).plain = m.plain.addNode n :=
  congrArg (Model.mk m.id · m.edges.values) (KeyedMap.values_put (Bool.or_eq_false_iff.mp h).1 n)

theorem plain_addEdge {e : Edge} (h : m.contains e.id = false) : (m.addEdge e).plain = m.plain.addEdge e :=
  congrArg (Model.mk m.id m.nodes.values) (KeyedMap.values_put (Bool.or_eq_false_iff.mp h).2 e)

end KeyedModel

/-! ### Diagrams -/

namespace KeyedDiagram

/-- Both are refused for the same reason, or what is made differs in the keys alone, which are
those of the elements. -/
inductive Mirrors : Except EditError KeyedDiagram → Except EditError Diagram → Prop
  | made {d : KeyedDiagram} {p : Diagram} (own : d.model.Own) (plain : d.plain = p) : Mirrors (.ok d) (.ok p)
  | refused (e : EditError) : Mirrors (.error e) (.error e)

variable {d : KeyedDiagram}

theorem element?_plain (h : d.model.Own) (id : ElementId) : d.plain.element? id = d.element? id := by
  rw [Diagram.element?, element?, ← h.node?, ← h.edge?]
  rfl

theorem mirrors_ofModel {m : KeyedModel} (h : m.Own) : Mirrors (ofModel m) (Diagram.ofModel m.plain) := by
  rw [ofModel, Diagram.ofModel, h.check]
  cases m.check with
  | error e => exact .refused e
  | ok _ =>
    cases Index.build m.plain with
    | error e => exact .refused e
    | ok x => exact .made h rfl

theorem mirrors_insertNode (h : d.model.Own) (n : Node) : Mirrors (d.insertNode n) (d.plain.insertNode n) := by
  rw [insertNode, Diagram.insertNode, plain, h.contains]
  cases hnew : d.model.contains n.id with
  | true => exact .refused _
  | false =>
    cases d.index.insertNode n with
    | error e => exact .refused e
    | ok x => exact .made (h.addNode n) (congrArg (Diagram.mk · x) (KeyedModel.plain_addNode hnew))

theorem mirrors_insertEdge (h : d.model.Own) (e : Edge) : Mirrors (d.insertEdge e) (d.plain.insertEdge e) := by
  rw [insertEdge, Diagram.insertEdge, plain, h.contains]
  cases hnew : d.model.contains e.id with
  | true => exact .refused _
  | false =>
    cases d.index.insertEdge e with
    | error e => exact .refused e
    | ok x => exact .made (h.addEdge e) (congrArg (Diagram.mk · x) (KeyedModel.plain_addEdge hnew))

/-- The ids that are removed are told alike. -/
theorem mirrors_remove (h : d.model.Own) (id : ElementId) :
    (∃ e, d.remove id = .error e ∧ d.plain.remove id = .error e) ∨
      ∃ d' removed, d.remove id = .ok (d', removed) ∧ d.plain.remove id = .ok (d'.plain, removed) ∧ d'.model.Own := by
  rw [remove, Diagram.remove, plain]
  cases d.index.kind? id with
  | none => exact .inl ⟨_, rfl, rfl⟩
  | some kind =>
    cases kind with
    | node =>
      dsimp only
      cases d.index.removeNode id with
      | mk x incident =>
        obtain ⟨hown, hplain⟩ := (h.eraseNode id).foldl_eraseEdge incident
        refine .inr ⟨_, _, rfl, ?_, hown⟩
        rw [plain, hplain, h.plain_eraseNode]
    | edge =>
      refine .inr ⟨_, _, rfl, ?_, h.eraseEdge id⟩
      rw [plain, h.plain_eraseEdge]

theorem mirrors_updateNode (h : d.model.Own) {f : Node → Node} (hf : ∀ n, (f n).id = n.id) (id : ElementId) :
    Mirrors (.ok { d with model := d.model.updateNode id f })
      (.ok { d.plain with model := d.plain.model.updateNode id f }) :=
  .made (h.updateNode hf id) (congrArg (Diagram.mk · d.index) (h.plain_updateNode id f))

theorem mirrors_updateEdge (h : d.model.Own) {f : Edge → Edge} (hf : ∀ e, (f e).id = e.id) (id : ElementId) :
    Mirrors (.ok { d with model := d.model.updateEdge id f })
      (.ok { d.plain with model := d.plain.model.updateEdge id f }) :=
  .made (h.updateEdge hf id) (congrArg (Diagram.mk · d.index) (h.plain_updateEdge id f))

theorem mirrors_setBounds (h : d.model.Own) (id : ElementId) (position : Option Point) (size : Option Size) :
    Mirrors (d.setBounds id position size) (d.plain.setBounds id position size) := by
  rw [setBounds, Diagram.setBounds, plain, h.hasNode]
  cases d.model.hasNode id with
  | true =>
    refine mirrors_updateNode h ?_ id
    exact fun _ => rfl
  | false => exact .refused _

theorem mirrors_setRouting (h : d.model.Own) (id : ElementId) (points : List Point) :
    Mirrors (d.setRouting id points) (d.plain.setRouting id points) := by
  rw [setRouting, Diagram.setRouting, plain, h.hasEdge]
  cases d.model.hasEdge id with
  | true =>
    refine mirrors_updateEdge h ?_ id
    exact fun _ => rfl
  | false => exact .refused _

theorem mirrors_setData (h : d.model.Own) (id : ElementId) (data : Value) :
    Mirrors (d.setData id data) (d.plain.setData id data) := by
  rw [setData, Diagram.setData, element?_plain h]
  cases d.element? id with
  | none => exact .refused _
  | some element =>
    cases element with
    | node _ =>
      refine mirrors_updateNode h ?_ id
      exact fun _ => rfl
    | edge _ =>
      refine mirrors_updateEdge h ?_ id
      exact fun _ => rfl

/-- The answer is the same, and so is what is left, refused or not. -/
theorem mirrors_relink (h : d.model.Own) (id source target : ElementId) :
    (d.relink id source target).1 = (d.plain.relink id source target).1 ∧
      (d.relink id source target).2.plain = (d.plain.relink id source target).2 ∧
      (d.relink id source target).2.model.Own := by
  rw [relink, Diagram.relink, plain, h.edge?]
  cases d.model.edge? id with
  | none => exact ⟨rfl, rfl, h⟩
  | some e =>
    dsimp only
    cases [source, target].find? (d.index.kind? · != some .node) with
    | some node => exact ⟨rfl, rfl, h⟩
    | none =>
      have hown := h.updateEdge (f := fun e => { e with source := source, target := target }) (fun _ => rfl) id
      have hplain := h.plain_updateEdge id fun e => { e with source := source, target := target }
      dsimp only
      cases d.index.reconnect { e with source := source, target := target } with
      | error fault => exact ⟨rfl, congrArg (Diagram.mk · d.index) hplain, hown⟩
      | ok x => exact ⟨rfl, congrArg (Diagram.mk · x) hplain, hown⟩

/-- Rendering changes nothing in the model. -/
theorem mirrors_render (h : d.model.Own) (l : Language) :
    Mirrors ((d.render l).map Prod.fst) ((d.plain.render l).map Prod.fst) := by
  rw [render, Diagram.render, plain]
  cases l.render d.model.plain with
  | error e => exact .refused _
  | ok r => exact .made h rfl

/-! ### The check of the index -/

theorem checkEdges_eq (x : Index) {entries : Table ElementId Edge} (h : ∀ p ∈ entries, p.1 = p.2.id) :
    checkEdges x entries = x.checkEdges (entries.map Prod.snd) := by
  induction entries with
  | nil => rfl
  | cons p rest ih =>
    obtain ⟨key, e⟩ := p
    rw [List.forall_mem_cons] at h
    obtain rfl : key = e.id := h.1
    rw [checkEdges, ih h.2]
    rfl

theorem mismatch?_eq (h : d.model.Own) : d.mismatch? = d.index.mismatch? d.model.plain := by
  have hnodes : d.model.plain.nodes.find? (!d.index.isNode ·.id) =
      (d.model.nodes.entries.find? (!d.index.isNode ·.1)).map Prod.snd :=
    Table.find?_map_snd h.nodes (!d.index.isNode ·)
  have hedges : checkEdges d.index d.model.edges.entries = d.index.checkEdges d.model.plain.edges :=
    checkEdges_eq d.index h.edges
  rw [mismatch?, Index.mismatch?, KeyedModel.size_plain, hnodes, hedges, h.contains,
    show d.model.plain.nodes.length = d.model.nodes.size from d.model.nodes.length_values,
    show d.model.plain.edges.length = d.model.edges.size from d.model.edges.length_values]
  cases hfound : d.model.nodes.entries.find? (!d.index.isNode ·.1) with
  | none => rfl
  | some p =>
    have hkey : p.1 = p.2.id := h.nodes p (List.mem_of_find?_eq_some hfound)
    simp only [Option.map_some, hkey]

end KeyedDiagram

end DiagramEditor
