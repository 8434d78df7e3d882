import DiagramEditor.Proofs.Clipboard.Rereading
import DiagramEditor.Proofs.Operation.Cut
import DiagramEditor.Proofs.Operation.Insertion
import Mathlib.Data.Set.Function

/-!
# Cutting and pasting back

Pasted where it was cut, a fragment loses no edge: an end of one of its edges is
either cut with it or still in the model. What results is the old model under new
names for the cut elements, moved by one offset.
-/

set_option autoImplicit false

namespace DiagramEditor

open Json

def Node.moved (φ : ElementId → ElementId) (dx dy : Float) (n : Node) : Node :=
  { n with id := φ n.id, position := n.position.translate dx dy }

def Edge.moved (φ : ElementId → ElementId) (dx dy : Float) (e : Edge) : Edge :=
  { e with
    id := φ e.id
    source := φ e.source
    target := φ e.target
    routing := e.routing.map (·.translate dx dy) }

/-- The node under its new name, moved if it is among those cut. -/
def Node.relocated (cut : List ElementId) (φ : ElementId → ElementId) (dx dy : Float) (n : Node) : Node :=
  { n with
    id := φ n.id
    position := if n.id ∈ cut then n.position.translate dx dy else n.position }

/-- The edge under its new name between the new names of its ends, moved if it is
among those cut. -/
def Edge.relocated (cut : List ElementId) (φ : ElementId → ElementId) (dx dy : Float) (e : Edge) : Edge :=
  { e with
    id := φ e.id
    source := φ e.source
    target := φ e.target
    routing := if e.id ∈ cut then e.routing.map (·.translate dx dy) else e.routing }

namespace Model

/-- A model is another one in which the cut elements have new names and are moved. -/
structure Relocates (m new : Model) (cut : List ElementId) (φ : ElementId → ElementId) (dx dy : Float) : Prop where
  bijective : Set.BijOn φ {id | id ∈ m.ids} {id | id ∈ new.ids}
  kept : ∀ id ∈ m.ids, id ∉ cut → φ id = id
  renewed : ∀ id ∈ cut, φ id ∉ m.ids
  nodes : new.nodes.Perm (m.nodes.map (Node.relocated cut φ dx dy))
  edges : new.edges.Perm (m.edges.map (Edge.relocated cut φ dx dy))

/-- A renaming that leads onto distinct ids is a bijection. -/
theorem bijOn_of_perm {m new : Model} {cut : List ElementId} {φ : ElementId → ElementId} {dx dy : Float}
    (hnew : new.ids.Nodup) (hn : new.nodes.Perm (m.nodes.map (Node.relocated cut φ dx dy)))
    (he : new.edges.Perm (m.edges.map (Edge.relocated cut φ dx dy))) :
    Set.BijOn φ {id | id ∈ m.ids} {id | id ∈ new.ids} := by
  have hperm : new.ids.Perm (m.ids.map φ) := by
    have hnodes := hn.map Node.id
    have hedges := he.map Edge.id
    rw [List.map_map] at hnodes hedges
    rw [ids, ids, List.map_append, nodeIds, edgeIds, nodeIds, edgeIds, List.map_map, List.map_map]
    exact hnodes.append hedges
  refine ⟨?_, ?_, ?_⟩
  · intro id hid
    exact hperm.mem_iff.mpr (List.mem_map_of_mem hid)
  · intro id hid other ho heq
    exact List.inj_on_of_nodup_map (hperm.nodup_iff.mp hnew) hid ho heq
  · intro fresh hf
    obtain ⟨id, hid, rfl⟩ := List.mem_map.mp (hperm.mem_iff.mp hf)
    exact ⟨id, hid, rfl⟩

end Model

/-- What a function does to a list, told apart by a property of its members. -/
theorem filter_append_map_perm {α : Type} {p q : α → Bool} {f g : α → α} {l : List α}
    (hkeep : ∀ a ∈ l, p a = true → g a = a) (hmove : ∀ a ∈ l, q a = true → g a = f a)
    (hpq : ∀ a ∈ l, q a = !p a) : (l.filter p ++ (l.filter q).map f).Perm (l.map g) := by
  have hq : l.filter q = l.filter (fun a => !p a) := List.filter_congr hpq
  have hp : (l.filter p).map g = l.filter p := by
    refine (List.map_congr_left fun a ha => ?_).trans (List.map_id _)
    obtain ⟨hm, hpa⟩ := List.mem_filter.mp ha
    exact hkeep a hm hpa
  have hf : (l.filter q).map f = (l.filter q).map g := by
    apply List.map_congr_left
    intro a ha
    obtain ⟨hm, hqa⟩ := List.mem_filter.mp ha
    exact (hmove a hm hqa).symm
  rw [hf, ← hp, ← List.map_append, hq]
  exact (List.filter_append_perm p l).map g

namespace Fragment

variable {f : Fragment} {m : Model} {ids : List ElementId} {s : IdSupply}

/-- The new name of every element of the fragment. -/
def newName (f : Fragment) (s : IdSupply) : ElementId → ElementId := renamed (f.ids.zip (s.upcoming f.ids.length))

theorem length_ids (f : Fragment) : f.ids.length = f.nodes.length + f.edges.length := by
  simp [ids]

theorem zip_ids (f : Fragment) (s : IdSupply) :
    f.ids.zip (s.upcoming f.ids.length) =
      f.names s ++ (f.edges.map Edge.id).zip ((s.skip f.nodes.length).upcoming f.edges.length) := by
  rw [length_ids, s.upcoming_add, ids, List.zip_append (by simp [s.length_upcoming])]
  rfl

theorem newName_eq {id : ElementId} (hid : id ∉ f.edges.map Edge.id) :
    f.newName s id = renamed (f.names s) id := by
  have hkeys : id ∉ ((f.edges.map Edge.id).zip ((s.skip f.nodes.length).upcoming f.edges.length)).map Prod.fst := by
    rw [List.map_fst_zip (by simp [IdSupply.length_upcoming])]
    exact hid
  rw [newName, zip_ids, renamed, renamed, Table.get?_append_of_not_mem hkeys]

theorem newName_of_not_mem {id : ElementId} (hid : id ∉ f.ids) : f.newName s id = id := by
  apply renamed_of_not_mem
  rw [List.map_fst_zip (by simp [IdSupply.length_upcoming])]
  exact hid

theorem map_newName (h : f.ids.Nodup) (s : IdSupply) : f.ids.map (f.newName s) = s.upcoming f.ids.length :=
  map_renamed_zip h (s.length_upcoming _).symm

theorem map_newName_edges (h : f.ids.Nodup) (s : IdSupply) :
    f.edges.map (fun e => f.newName s e.id) = (s.skip f.nodes.length).upcoming f.edges.length := by
  have hall := map_newName h s
  rw [length_ids, s.upcoming_add] at hall
  have hparts : f.nodes.map (fun n => f.newName s n.id) ++ f.edges.map (fun e => f.newName s e.id) =
      f.ids.map (f.newName s) := by
    rw [ids, List.map_append, List.map_map, List.map_map]
    rfl
  rw [hall] at hparts
  exact (List.append_inj hparts (by simp [s.length_upcoming])).2

/-- Back in the model it was cut from, a fragment keeps all its edges. -/
theorem kept_spanned (hm : m.Closed) (ids : List ElementId) (s : IdSupply) :
    (spanned m ids).kept (m.without ids).hasNode s = (spanned m ids).edges := by
  have hend : ∀ id ∈ m.nodeIds,
      (newEnd? ((spanned m ids).names s) (m.without ids).hasNode id).isSome = true := by
    intro id hid
    rw [isSome_newEnd?_iff, names_fst, Model.hasNode_iff, Model.mem_nodeIds_without]
    by_cases hcut : id ∈ ids
    · obtain ⟨n, hn, rfl⟩ := List.mem_map.mp hid
      exact Or.inl (List.mem_map_of_mem (Model.mem_nodes_spanned.mpr ⟨hn, hcut⟩))
    · exact Or.inr ⟨hid, hcut⟩
  apply List.filter_eq_self.mpr
  intro e he
  obtain ⟨hs, ht⟩ := hm.ends e (Model.mem_edges_spanned.mp he).1
  rw [resolves, hend _ hs, hend _ ht]
  rfl

/-- The nodes that are pasted are the cut ones, renamed and moved. -/
theorem nodes_instantiate (hm : m.Closed) (hasNode : ElementId → Bool) (location : Option Point) :
    ((spanned m ids).instantiate hasNode location s).1.nodes =
      (spanned m ids).nodes.map (Node.moved ((spanned m ids).newName s) ((spanned m ids).offset location).1
        ((spanned m ids).offset location).2) := by
  rw [instantiate_eq]
  apply List.map_congr_left
  intro n hn
  have hid : n.id ∉ (spanned m ids).edges.map Edge.id := by
    intro he
    have hne := (List.nodup_append.mp (hm.nodup_spanned ids)).2.2
    exact hne n.id (List.mem_map_of_mem hn) n.id he rfl
  rw [Node.moved, newName_eq hid]
  rfl

/-- The edges that are pasted are the cut ones, renamed and moved. -/
theorem edges_instantiate (hm : m.Closed) (location : Option Point) :
    ((spanned m ids).instantiate (m.without ids).hasNode location s).1.edges =
      (spanned m ids).edges.map (Edge.moved ((spanned m ids).newName s) ((spanned m ids).offset location).1
        ((spanned m ids).offset location).2) := by
  rw [instantiate_eq, kept_spanned hm]
  show List.zipWith _ (spanned m ids).edges _ = _
  rw [← map_newName_edges (hm.nodup_spanned ids) s, List.zipWith_map_right, List.zipWith_self]
  apply List.map_congr_left
  intro e he
  have hnode : ∀ id ∈ m.nodeIds, id ∉ (spanned m ids).edges.map Edge.id := by
    intro id hid hedge
    obtain ⟨e', he', rfl⟩ := List.mem_map.mp hedge
    exact hm.not_edge_of_node hid (List.mem_map_of_mem (Model.mem_edges_spanned.mp he').1)
  -- ends are nodes, so the names of the edges do not matter for them
  obtain ⟨hs, ht⟩ := hm.ends e (Model.mem_edges_spanned.mp he).1
  rw [Edge.moved, newName_eq (hnode _ hs), newName_eq (hnode _ ht)]
  rfl

end Fragment

namespace Model.Loses

variable {m new : Model} {ids removed : List ElementId} {φ : ElementId → ElementId}

/-- The nodes that stay and the moved ones are those of the model. -/
theorem nodes_perm (h : m.Loses ids removed) (hφ : ∀ id, id ∉ removed → φ id = id) (dx dy : Float) :
    ((m.without ids).nodes ++ (Fragment.spanned m ids).nodes.map (Node.moved φ dx dy)).Perm
      (m.nodes.map (Node.relocated removed φ dx dy)) := by
  apply filter_append_map_perm
  · intro n hn hstays
    have hid : n.id ∉ removed := mt (h.node_id_mem_iff hn).mp (of_decide_eq_true hstays)
    rw [Node.relocated, hφ _ hid, if_neg hid]
  · intro n hn hgoes
    have hid : n.id ∈ removed := (h.node_id_mem_iff hn).mpr (of_decide_eq_true hgoes)
    rw [Node.relocated, Node.moved, if_pos hid]
  · intro n _
    simp

/-- The edges that stay and the moved ones are those of the model. -/
theorem edges_perm (h : m.Loses ids removed) (hm : m.Closed) (hφ : ∀ id, id ∉ removed → φ id = id)
    (dx dy : Float) :
    ((m.without ids).edges ++ (Fragment.spanned m ids).edges.map (Edge.moved φ dx dy)).Perm
      (m.edges.map (Edge.relocated removed φ dx dy)) := by
  have hend : ∀ id ∈ m.nodeIds, id ∉ ids → φ id = id := by
    intro id hid hnot
    obtain ⟨n, hn, rfl⟩ := List.mem_map.mp hid
    exact hφ _ (mt (h.node_id_mem_iff hn).mp hnot)
  apply filter_append_map_perm
  · intro e he hstays
    -- an edge that stays has ends that stay, whose names do not change
    obtain ⟨hid, hsource, htarget⟩ := of_decide_eq_true hstays
    have hgone : e.id ∉ removed := by
      rw [h.edge_id_mem_iff hm he]
      tauto
    rw [Edge.relocated, hφ _ hgone, if_neg hgone, hend _ (hm.ends e he).1 hsource,
      hend _ (hm.ends e he).2 htarget]
  · intro e he hgoes
    have hgone : e.id ∈ removed := (h.edge_id_mem_iff hm he).mpr (of_decide_eq_true hgoes)
    rw [Edge.relocated, Edge.moved, if_pos hgone]
  · intro e _
    simp only [← decide_not]
    apply decide_eq_decide.mpr
    tauto

/-- The part that is deleted and put back under new names leaves the model as it was but
for these names and the move. -/
theorem relocates {s : IdSupply} (h : m.Loses ids removed) (hm : m.Closed) (hs : s.Fresh m.ids)
    (location : Option Point) (hnew : new.ids.Nodup)
    (hnodes : new.nodes = (m.without ids).nodes ++
      ((Fragment.spanned m ids).instantiate (m.without ids).hasNode location s).1.nodes)
    (hedges : new.edges = (m.without ids).edges ++
      ((Fragment.spanned m ids).instantiate (m.without ids).hasNode location s).1.edges) :
    m.Relocates new removed ((Fragment.spanned m ids).newName s) ((Fragment.spanned m ids).offset location).1
      ((Fragment.spanned m ids).offset location).2 := by
  have hkept : ∀ id, id ∉ removed → (Fragment.spanned m ids).newName s id = id := by
    intro id hid
    exact Fragment.newName_of_not_mem (mt (h.mem_iff_spanned hm).mpr hid)
  rw [Fragment.nodes_instantiate hm] at hnodes
  rw [Fragment.edges_instantiate hm] at hedges
  have hn := hnodes ▸ h.nodes_perm hkept _ _
  have he := hedges ▸ h.edges_perm hm hkept _ _
  refine ⟨Model.bijOn_of_perm hnew hn he, fun id _ => hkept id, ?_, hn, he⟩
  intro id hid
  have hf := List.mem_map_of_mem (f := (Fragment.spanned m ids).newName s) ((h.mem_iff_spanned hm).mp hid)
  rw [Fragment.map_newName (hm.nodup_spanned ids)] at hf
  exact hs.not_mem_of_upcoming hf

end Model.Loses

namespace Operation

open Edit Diagram

/-- Cut and pasted at once, the elements come back under new ids, joined as before. -/
theorem paste_of_cut_relocates {d : Diagram} (h : d.Reachable) {ids : List ElementId}
    (hids : ∀ id ∈ ids, id ∈ d.model.ids) {s : IdSupply} (hs : s.Fresh d.model.ids)
    (hparse : ∀ f, Fragment.ofSelection d ids = .ok f → Fragment.decode.ofText f.encode.payload = .ok f)
    (location : Option Point) (c c' : EditContext) :
    ∃ f removed left new s' φ dx dy,
      Fragment.ofSelection d ids = .ok f ∧ f.ids.Perm removed ∧ (∀ id ∈ ids, id ∈ removed) ∧
      (cut ids).apply c ⟨d, s⟩ = (.ok ⟨[], removed, some f.encode⟩, ⟨left, s⟩) ∧
      (paste f.encode location).apply c' ⟨left, s⟩ = (.ok ⟨s.upcoming removed.length, [], none⟩, ⟨new, s'⟩) ∧
      (s.upcoming removed.length).Perm (removed.map φ) ∧
      d.model.Relocates new.model removed φ dx dy := by
  have hd := InStep.of_reachable h
  have hn := hd.closed.nodup_spanned ids
  obtain ⟨left, removed, hcut, hleft, hmodel, hloses⟩ := on_runCut (w := ⟨d, s⟩) hd hids
  have hselected := Fragment.ofSelection_eq hd hids
  have hread := Fragment.ofClipboard_encode (hparse _ hselected) hn
  have hfresh : s.Fresh left.model.ids := by
    rw [hmodel]
    exact hs.mono fun id hid => Model.ids_without_subset hid
  obtain ⟨new, hpaste, hnew, hmade⟩ := on_runPaste (w := ⟨left, s⟩) hleft hfresh hread location
  simp only [hmodel] at hpaste hmade
  have hperm := hloses.spanned_perm hd.closed
  have hcount : (Fragment.spanned d.model ids).ids.length = removed.length := hperm.length_eq
  have hcreated : ((Fragment.spanned d.model ids).instantiate (d.model.without ids).hasNode location s).1.ids =
      s.upcoming removed.length := by
    rw [Fragment.ids_instantiate hn, Fragment.kept_spanned hd.closed, ← Fragment.length_ids, hcount]
  rw [hcreated] at hpaste
  refine ⟨_, removed, left, new, _, _, _, _, hselected, hperm,
    fun id hid => hloses.listed hd.closed hid (hids id hid), hcut, hpaste, ?_,
    hloses.relocates hd.closed hs location hnew.closed.ids (by rw [hmade]) (by rw [hmade])⟩
  rw [← hcount, ← Fragment.map_newName hn]
  exact hperm.map _

/-- The node that the edges of the sample leave, with these edges. -/
def sampleFragment : Fragment :=
  ⟨[⟨"a", "", ⟨10, 20⟩, some .standard, .emptyObject⟩],
    [⟨"ab", "", "a", "b", [⟨60, 40⟩], .emptyObject⟩, ⟨"aa", "", "a", "a", [], .emptyObject⟩]⟩

theorem read_sampleFragment : Fragment.decode.ofText sampleFragment.encode.payload = .ok sampleFragment := by
  have hordered : Value.Ordered .emptyObject := .object List.Pairwise.nil (by simp)
  have hfits : sampleFragment.fault? = none := by decide +kernel
  rw [Fragment.ofText_payload (by simpa [sampleFragment] using hordered) (by simpa [sampleFragment] using hordered)
    (by decide +kernel), hfits]

/-- A node is cut with its edges, one of which leads to a node that stays, and pasted somewhere else. -/
theorem sample_paste_of_cut_relocates :
    sample.Reachable ∧ (∀ id ∈ ["a"], id ∈ sample.model.ids) ∧ IdSupply.start.Fresh sample.model.ids ∧
      (∀ f, Fragment.ofSelection sample ["a"] = .ok f → Fragment.decode.ofText f.encode.payload = .ok f) ∧
      ∃ f removed left new s' φ dx dy,
        Fragment.ofSelection sample ["a"] = .ok f ∧ f.ids.Perm removed ∧ (∀ id ∈ ["a"], id ∈ removed) ∧
        (cut ["a"]).apply plain ⟨sample, .start⟩ = (.ok ⟨[], removed, some f.encode⟩, ⟨left, .start⟩) ∧
        (paste f.encode (some ⟨70, 80⟩)).apply plain ⟨left, .start⟩ =
          (.ok ⟨IdSupply.start.upcoming removed.length, [], none⟩, ⟨new, s'⟩) ∧
        (IdSupply.start.upcoming removed.length).Perm (removed.map φ) ∧
        sample.model.Relocates new.model removed φ dx dy := by
  have h : sample.Reachable := ⟨sample, [], start_sample, rfl⟩
  have hids : ∀ id ∈ ["a"], id ∈ sample.model.ids := by decide
  have hs : IdSupply.start.Fresh sample.model.ids := IdSupply.fresh_start (by decide)
  have hparse : ∀ f, Fragment.ofSelection sample ["a"] = .ok f →
      Fragment.decode.ofText f.encode.payload = .ok f := by
    intro f hf
    have hselected : Fragment.ofSelection sample ["a"] = .ok sampleFragment := rfl
    obtain rfl := Except.ok.inj (hselected.symm.trans hf)
    exact read_sampleFragment
  exact ⟨h, hids, hs, hparse, paste_of_cut_relocates h hids hs hparse (some ⟨70, 80⟩) plain plain⟩

end Operation

end DiagramEditor
