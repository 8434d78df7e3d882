import DiagramEditor.Clipboard
import DiagramEditor.Proofs.Diagram.Changes
import DiagramEditor.Proofs.Ids

/-!
# What is copied and what is pasted

A selection copies just what its deletion takes out of the model. A pasted fragment
is the copied one under new names: the next ids of the supply go to its nodes and
then to those of its edges whose ends are pasted too or still there.
-/

set_option autoImplicit false

namespace DiagramEditor

namespace Fragment

variable {f : Fragment}

theorem nodup_of_ofClipboard {c : Clipboard} (h : ofClipboard c = .ok f) : f.ids.Nodup := by
  rw [ofClipboard] at h
  split at h
  · cases h
  · split at h
    · cases h
    · split at h
      · cases h
      · rename_i hrepeated
        rw [← Except.ok.inj h]
        exact (Model.repeated?_eq_none_iff.mp hrepeated).1

theorem error_of_ofClipboard {c : Clipboard} {e : EditError} (h : ofClipboard c = .error e) :
    ∃ fault, e = .malformedClipboard fault := by
  rw [ofClipboard] at h
  split at h
  · exact ⟨_, (Except.error.inj h).symm⟩
  · split at h
    · exact ⟨_, (Except.error.inj h).symm⟩
    · split at h
      · exact ⟨_, (Except.error.inj h).symm⟩
      · cases h

theorem ofClipboard_encode (hf : decode.ofText f.encode.payload = .ok f) (hn : f.ids.Nodup) :
    ofClipboard f.encode = .ok f := by
  have hfree : Model.repeated? [] f.ids = none := Model.repeated?_eq_none_iff.mpr ⟨hn, by simp⟩
  rw [ofClipboard, if_neg (by simp [encode]), hf]
  simp only [hfree]

/-- The part of a model that is deleted with a list of ids. -/
def spanned (m : Model) (ids : List ElementId) : Fragment where
  nodes := m.nodes.filter (·.id ∈ ids)
  edges := m.edges.filter fun e => e.id ∈ ids ∨ e.source ∈ ids ∨ e.target ∈ ids

theorem ofSelection_eq {d : Diagram} (h : d.InStep) {ids : List ElementId} (hids : ∀ id ∈ ids, id ∈ d.model.ids) :
    ofSelection d ids = .ok (spanned d.model ids) := by
  have hfound : ids.find? (!d.index.contains ·) = none := by
    rw [List.find?_eq_none]
    intro id hid
    simp [h.contains_eq, Model.contains_iff.mpr (hids id hid)]
  have hnode : ∀ id, id ∈ ids.filter (d.index.kind? · == some .node) ↔ id ∈ ids ∧ id ∈ d.model.nodeIds := by
    intro id
    rw [List.mem_filter, beq_iff_eq, h.kind?_eq_node_iff]
  have hedge : ∀ id, id ∈ ids.filter (d.index.kind? · == some .edge) ↔ id ∈ ids ∧ id ∈ d.model.edgeIds := by
    intro id
    rw [List.mem_filter, beq_iff_eq, h.kind?_eq_edge_iff]
  rw [ofSelection, hfound]
  refine congrArg Except.ok ?_
  rw [spanned, Fragment.mk.injEq]
  constructor
  · apply List.filter_congr
    intro n hn
    have hid : n.id ∈ d.model.nodeIds := List.mem_map_of_mem hn
    rw [List.contains_eq_mem]
    exact decide_eq_decide.mpr ((hnode n.id).trans (and_iff_left hid))
  · apply List.filter_congr
    intro e he
    have hid : e.id ∈ d.model.edgeIds := List.mem_map_of_mem he
    obtain ⟨hs, ht⟩ := h.closed.ends e he
    rw [List.contains_eq_mem]
    refine decide_eq_decide.mpr ?_
    rw [List.mem_append, hedge, List.mem_flatMap]
    constructor
    · rintro (⟨hm, _⟩ | ⟨node, hm, hi⟩)
      · exact Or.inl hm
      · rw [hnode] at hm
        rcases (h.mem_incident_iff he).mp hi with rfl | rfl
        · exact Or.inr (Or.inl hm.1)
        · exact Or.inr (Or.inr hm.1)
    · rintro (hm | hm | hm)
      · exact Or.inl ⟨hm, hid⟩
      · exact Or.inr ⟨e.source, (hnode _).mpr ⟨hm, hs⟩, (h.mem_incident_iff he).mpr (Or.inl rfl)⟩
      · exact Or.inr ⟨e.target, (hnode _).mpr ⟨hm, ht⟩, (h.mem_incident_iff he).mpr (Or.inr rfl)⟩

/-! ### New names -/

/-- The new name of an id; one without keeps its own. -/
def renamed (names : Table ElementId ElementId) (id : ElementId) : ElementId := (Table.get? id names).getD id

theorem renamed_of_not_mem {names : Table ElementId ElementId} {id : ElementId} (h : id ∉ names.map Prod.fst) :
    renamed names id = id := by
  rw [renamed, Table.get?_eq_none_iff.mpr h]
  rfl

theorem renamed_mem {names : Table ElementId ElementId} {id : ElementId} (h : id ∈ names.map Prod.fst) :
    renamed names id ∈ names.map Prod.snd := by
  obtain ⟨fresh, hf⟩ := Option.isSome_iff_exists.mp (Table.isSome_get?_iff.mpr h)
  rw [renamed, hf]
  exact List.mem_map_of_mem (f := Prod.snd) (Table.mem_of_get? hf)

/-- Distinct ids are renamed to the given ones, in their order. -/
theorem map_renamed_zip {old fresh : List ElementId} (hn : old.Nodup) (hl : old.length = fresh.length) :
    old.map (renamed (old.zip fresh)) = fresh := by
  induction old generalizing fresh with
  | nil =>
    cases fresh with
    | nil => rfl
    | cons _ _ => cases hl
  | cons id rest ih =>
    cases fresh with
    | nil => cases hl
    | cons new more =>
      obtain ⟨hid, hrest⟩ := List.nodup_cons.mp hn
      have hhead : renamed ((id, new) :: rest.zip more) id = new := by simp [renamed, Table.get?]
      have htail : rest.map (renamed ((id, new) :: rest.zip more)) = rest.map (renamed (rest.zip more)) := by
        apply List.map_congr_left
        intro other ho
        have hne : id ≠ other := fun he => hid (he ▸ ho)
        simp [renamed, Table.get?, hne]
      rw [List.zip_cons_cons, List.map_cons, hhead, htail, ih hrest (Nat.succ.inj hl)]

theorem rename_eq (old : List ElementId) (s : IdSupply) :
    rename old s = (old.zip (s.upcoming old.length), s.skip old.length) := by
  induction old generalizing s with
  | nil => rfl
  | cons id rest ih =>
    simp only [rename, s.takeId_eq, ih, s.skip_skip]
    rw [List.length_cons, IdSupply.upcoming, List.zip_cons_cons, Nat.add_comm 1]

/-- Both ends are pasted or there. -/
def resolves (names : Table ElementId ElementId) (hasNode : ElementId → Bool) (e : Edge) : Bool :=
  (newEnd? names hasNode e.source).isSome && (newEnd? names hasNode e.target).isSome

def pasteEdge (names : Table ElementId ElementId) (dx dy : Float) (e : Edge) (fresh : ElementId) : Edge :=
  { e with
    id := fresh
    source := renamed names e.source
    target := renamed names e.target
    routing := e.routing.map (·.translate dx dy) }

theorem newEnd?_eq_some {names : Table ElementId ElementId} {hasNode : ElementId → Bool} {id fresh : ElementId}
    (h : newEnd? names hasNode id = some fresh) :
    fresh = renamed names id ∧ (id ∈ names.map Prod.fst ∨ hasNode id = true ∧ fresh = id) := by
  rw [newEnd?] at h
  cases hg : Table.get? id names with
  | some new =>
    simp only [hg, Option.some.injEq] at h
    refine ⟨by rw [renamed, hg, ← h]; rfl, Or.inl (Table.isSome_get?_iff.mp (by simp [hg]))⟩
  | none =>
    cases hh : hasNode id with
    | false => simp [hg, hh] at h
    | true =>
      simp only [hg, hh, if_true, Option.some.injEq] at h
      exact ⟨by rw [renamed, hg, ← h]; rfl, Or.inr ⟨rfl, h.symm⟩⟩

theorem isSome_newEnd?_iff {names : Table ElementId ElementId} {hasNode : ElementId → Bool} {id : ElementId} :
    (newEnd? names hasNode id).isSome = true ↔ id ∈ names.map Prod.fst ∨ hasNode id = true := by
  rw [newEnd?, ← Table.isSome_get?_iff]
  cases Table.get? id names with
  | some new => simp
  | none => cases hasNode id <;> simp

theorem pasteEdges_eq (names : Table ElementId ElementId) (hasNode : ElementId → Bool) (dx dy : Float)
    (es : List Edge) (s : IdSupply) :
    pasteEdges names hasNode dx dy es s =
      (List.zipWith (pasteEdge names dx dy) (es.filter (resolves names hasNode))
          (s.upcoming (es.filter (resolves names hasNode)).length),
        s.skip (es.filter (resolves names hasNode)).length) := by
  induction es generalizing s with
  | nil => rfl
  | cons e rest ih =>
    cases hs : newEnd? names hasNode e.source with
    | none => simp [pasteEdges, resolves, hs, ih]
    | some source =>
      cases ht : newEnd? names hasNode e.target with
      | none => simp [pasteEdges, resolves, hs, ht, ih]
      | some target =>
        have hr : resolves names hasNode e = true := by simp [resolves, hs, ht]
        have hnew : pasteEdge names dx dy e (s.nth 0) =
            { e with id := s.nth 0, source := source, target := target,
                     routing := e.routing.map (·.translate dx dy) } := by
          rw [pasteEdge, (newEnd?_eq_some hs).1, (newEnd?_eq_some ht).1]
        simp only [pasteEdges, hs, ht, s.takeId_eq, ih, s.skip_skip, List.filter_cons, hr, if_true,
          List.length_cons, IdSupply.upcoming, List.zipWith_cons_cons, hnew]
        rw [Nat.add_comm 1]

/-! ### Pasted fragments -/

/-- The names of the nodes to paste. -/
def names (f : Fragment) (s : IdSupply) : Table ElementId ElementId :=
  (f.nodes.map Node.id).zip (s.upcoming f.nodes.length)

/-- The edges that are not left out. -/
def kept (f : Fragment) (hasNode : ElementId → Bool) (s : IdSupply) : List Edge :=
  f.edges.filter (resolves (f.names s) hasNode)

theorem instantiate_eq (f : Fragment) (hasNode : ElementId → Bool) (location : Option Point) (s : IdSupply) :
    f.instantiate hasNode location s =
      ({ nodes := f.nodes.map (pasteNode (f.names s) (f.offset location).1 (f.offset location).2)
         edges := List.zipWith (pasteEdge (f.names s) (f.offset location).1 (f.offset location).2)
           (f.kept hasNode s) ((s.skip f.nodes.length).upcoming (f.kept hasNode s).length) },
        s.skip (f.nodes.length + (f.kept hasNode s).length)) := by
  simp only [instantiate, rename_eq, pasteEdges_eq, List.length_map, s.skip_skip]
  rfl

theorem names_fst (f : Fragment) (s : IdSupply) : (f.names s).map Prod.fst = f.nodes.map Node.id := by
  rw [names, List.map_fst_zip (by simp [s.length_upcoming])]

theorem names_snd (f : Fragment) (s : IdSupply) : (f.names s).map Prod.snd = s.upcoming f.nodes.length := by
  rw [names, List.map_snd_zip (by simp [s.length_upcoming])]

theorem ids_pasteNode (hn : (f.nodes.map Node.id).Nodup) (s : IdSupply) (dx dy : Float) :
    (f.nodes.map (pasteNode (f.names s) dx dy)).map Node.id = s.upcoming f.nodes.length := by
  have hl : (f.nodes.map Node.id).length = (s.upcoming f.nodes.length).length := by
    rw [s.length_upcoming, List.length_map]
  have hall := map_renamed_zip hn hl
  rw [List.map_map] at hall ⊢
  exact hall

theorem ids_pasteEdge (names : Table ElementId ElementId) (dx dy : Float) {es : List Edge} {fresh : List ElementId}
    (hl : es.length = fresh.length) : (List.zipWith (pasteEdge names dx dy) es fresh).map Edge.id = fresh := by
  induction es generalizing fresh with
  | nil =>
    cases fresh with
    | nil => rfl
    | cons _ _ => cases hl
  | cons e rest ih =>
    cases fresh with
    | nil => cases hl
    | cons new more =>
      rw [List.zipWith_cons_cons, List.map_cons, ih (Nat.succ.inj hl)]
      rfl

theorem ends_of_mem_pasteEdge {names : Table ElementId ElementId} {dx dy : Float} {es : List Edge}
    {fresh : List ElementId} {e : Edge} (he : e ∈ List.zipWith (pasteEdge names dx dy) es fresh) :
    ∃ old ∈ es, e.source = renamed names old.source ∧ e.target = renamed names old.target := by
  induction es generalizing fresh with
  | nil => cases he
  | cons old rest ih =>
    cases fresh with
    | nil => cases he
    | cons new more =>
      rcases List.mem_cons.mp he with rfl | he
      · exact ⟨old, List.mem_cons_self, rfl, rfl⟩
      · obtain ⟨other, ho, hends⟩ := ih he
        exact ⟨other, List.mem_cons_of_mem _ ho, hends⟩

theorem ids_instantiate (hn : f.ids.Nodup) (hasNode : ElementId → Bool) (location : Option Point) (s : IdSupply) :
    (f.instantiate hasNode location s).1.ids = s.upcoming (f.nodes.length + (f.kept hasNode s).length) := by
  rw [instantiate_eq, ids, s.upcoming_add]
  exact congrArg₂ _ (ids_pasteNode (List.nodup_append.mp hn).1 s _ _)
    (ids_pasteEdge _ _ _ (s.skip _ |>.length_upcoming _).symm)

/-- The fragment can be put into the model: its ids are new and its edges find their ends. -/
structure Fits (f : Fragment) (m : Model) : Prop where
  nodup : f.ids.Nodup
  new : ∀ id ∈ f.ids, id ∉ m.ids
  ends : ∀ e ∈ f.edges, e.source ∈ m.nodeIds ++ f.nodes.map Node.id ∧ e.target ∈ m.nodeIds ++ f.nodes.map Node.id

theorem mem_of_newEnd? {m : Model} {s : IdSupply} {id : ElementId}
    (h : (newEnd? (f.names s) m.hasNode id).isSome = true) :
    renamed (f.names s) id ∈ m.nodeIds ++ s.upcoming f.nodes.length := by
  obtain ⟨fresh, hf⟩ := Option.isSome_iff_exists.mp h
  obtain ⟨rfl, hpasted | ⟨hthere, hsame⟩⟩ := newEnd?_eq_some hf
  · have hm := renamed_mem hpasted
    rw [names_snd] at hm
    exact List.mem_append.mpr (Or.inr hm)
  · rw [hsame]
    exact List.mem_append.mpr (Or.inl (Model.hasNode_iff.mp hthere))

theorem instantiate_fits {m : Model} {s : IdSupply} (hs : s.Fresh m.ids) (hn : f.ids.Nodup)
    (location : Option Point) : (f.instantiate m.hasNode location s).1.Fits m where
  nodup := by
    rw [ids_instantiate hn]
    exact hs.nodup_upcoming _
  new := by
    rw [ids_instantiate hn]
    intro id hid
    exact hs.not_mem_of_upcoming hid
  ends := by
    rw [instantiate_eq]
    show ∀ e ∈ List.zipWith _ _ _, _ ∈ m.nodeIds ++ (f.nodes.map _).map Node.id ∧ _
    rw [ids_pasteNode (List.nodup_append.mp hn).1]
    intro e he
    obtain ⟨old, hold, hsource, htarget⟩ := ends_of_mem_pasteEdge he
    have hboth := (List.mem_filter.mp hold).2
    rw [resolves, Bool.and_eq_true] at hboth
    rw [hsource, htarget]
    exact ⟨mem_of_newEnd? hboth.1, mem_of_newEnd? hboth.2⟩

end Fragment

end DiagramEditor
