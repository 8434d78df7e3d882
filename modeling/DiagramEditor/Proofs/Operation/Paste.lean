import DiagramEditor.Proofs.Operation.CutAndPaste

/-!
# What a paste adds

Whatever a clipboard holds, it is either refused as malformed or pasted whole: every
node of the fragment comes in, and every edge both ends of which come in too or are
already nodes of the model. An id that the fragment and the model share means the node
of the fragment.
-/

set_option autoImplicit false

namespace DiagramEditor

namespace Fragment

variable {f : Fragment} {m : Model} {s : IdSupply}

/-- Where an edge of the fragment may end once the nodes are pasted. -/
def Reaches (f : Fragment) (m : Model) (id : ElementId) : Prop := id ∈ f.nodes.map Node.id ∨ id ∈ m.nodeIds

instance (f : Fragment) (m : Model) (id : ElementId) : Decidable (f.Reaches m id) :=
  inferInstanceAs (Decidable (_ ∨ _))

/-- The edges of the fragment that find both ends. -/
def edgesInto (f : Fragment) (m : Model) : List Edge :=
  f.edges.filter fun e => f.Reaches m e.source ∧ f.Reaches m e.target

theorem isSome_newEnd?_iff_reaches {id : ElementId} :
    (newEnd? (f.names s) m.hasNode id).isSome = true ↔ f.Reaches m id := by
  rw [isSome_newEnd?_iff, names_fst, Model.hasNode_iff, Reaches]

theorem kept_eq_edgesInto (f : Fragment) (m : Model) (s : IdSupply) : f.kept m.hasNode s = f.edgesInto m := by
  apply List.filter_congr
  intro e _
  rw [Bool.eq_iff_iff, resolves, Bool.and_eq_true, isSome_newEnd?_iff_reaches, isSome_newEnd?_iff_reaches,
    decide_eq_true_iff]

theorem map_renamed_names (hn : f.ids.Nodup) (s : IdSupply) :
    f.nodes.map (fun n => renamed (f.names s) n.id) = s.upcoming f.nodes.length := by
  rw [← ids_pasteNode (List.nodup_append.mp hn).1 s 0 0, List.map_map]
  rfl

end Fragment

/-- A model that has taken in a fragment: its nodes under their new names, then those of
its edges that find both ends, under ids of their own. -/
structure Model.TakesIn (m new : Model) (f : Fragment) (φ : ElementId → ElementId) (edgeIds : List ElementId)
    (dx dy : Float) : Prop where
  id : new.id = m.id
  once : (f.nodes.map (fun n => φ n.id) ++ edgeIds).Nodup
  unused : ∀ id ∈ f.nodes.map (fun n => φ n.id) ++ edgeIds, id ∉ m.ids
  others : ∀ id, id ∉ f.nodes.map Node.id → φ id = id
  nodes : new.nodes = m.nodes ++ f.nodes.map (Node.moved φ dx dy)
  count : edgeIds.length = (f.edgesInto m).length
  edges : new.edges =
    m.edges ++ List.zipWith (fun e id => { e.moved φ dx dy with id := id }) (f.edgesInto m) edgeIds

theorem Fragment.takesIn {f : Fragment} {m : Model} {s : IdSupply} (hs : s.Fresh m.ids) (hf : f.ids.Nodup)
    (location : Option Point) (new : Model) (hid : new.id = m.id)
    (hn : new.nodes = m.nodes ++ (f.instantiate m.hasNode location s).1.nodes)
    (he : new.edges = m.edges ++ (f.instantiate m.hasNode location s).1.edges) :
    m.TakesIn new f (renamed (f.names s)) ((s.skip f.nodes.length).upcoming (f.edgesInto m).length)
      (f.offset location).1 (f.offset location).2 := by
  rw [instantiate_eq, kept_eq_edgesInto] at he
  rw [instantiate_eq] at hn
  refine ⟨hid, ?_, ?_, ?_, hn, IdSupply.length_upcoming _ _, he⟩
  · rw [map_renamed_names hf, ← s.upcoming_add]
    exact hs.nodup_upcoming _
  · rw [map_renamed_names hf, ← s.upcoming_add]
    exact fun id hid => hs.not_mem_of_upcoming hid
  · intro id hid
    apply renamed_of_not_mem
    rw [names_fst]
    exact hid

namespace Operation

open Edit Diagram

/-- A clipboard is refused as malformed, and then nothing changes, or it is pasted. -/
theorem paste_adds {d : Diagram} (h : d.Reachable) {s : IdSupply} (hs : s.Fresh d.model.ids) (clipboard : Clipboard)
    (location : Option Point) (c : EditContext) :
    (∀ e, Fragment.ofClipboard clipboard = .error e →
      (∃ fault, e = .malformedClipboard fault) ∧
        (paste clipboard location).apply c ⟨d, s⟩ = (.error e, ⟨d, s⟩)) ∧
    ∀ f, Fragment.ofClipboard clipboard = .ok f →
      ∃ new s' φ edgeIds dx dy,
        (paste clipboard location).apply c ⟨d, s⟩ =
          (.ok ⟨f.nodes.map (fun n => φ n.id) ++ edgeIds, [], none⟩, ⟨new, s'⟩) ∧
        d.model.TakesIn new.model f φ edgeIds dx dy := by
  constructor
  · intro e hf
    refine ⟨Fragment.error_of_ofClipboard hf, ?_⟩
    show (runPaste clipboard location).on ⟨d, s⟩ = _
    rw [runPaste, hf, on_bind_error (on_ofExcept _ _)]
  · intro f hf
    have hn := Fragment.nodup_of_ofClipboard hf
    obtain ⟨new, hpaste, _, hmodel⟩ := on_runPaste (w := ⟨d, s⟩) (InStep.of_reachable h) hs hf location
    have htakes := Fragment.takesIn hs hn location new.model (by rw [hmodel]) (by rw [hmodel]) (by rw [hmodel])
    have hcreated : (f.instantiate d.model.hasNode location s).1.ids =
        f.nodes.map (fun n => Fragment.renamed (f.names s) n.id) ++
          (s.skip f.nodes.length).upcoming (f.edgesInto d.model).length := by
      rw [Fragment.ids_instantiate hn, Fragment.kept_eq_edgesInto, s.upcoming_add,
        Fragment.map_renamed_names hn]
    rw [hcreated] at hpaste
    exact ⟨new, _, _, _, _, _, hpaste, htakes⟩

/-- A clipboard from elsewhere: one of its nodes has the id of a node of the sample, and
its edges lead from node to node, to an edge and to nothing. -/
def stranger : Clipboard where
  format := "application/json"
  payload := "\x7b\"nodes\":[\x7b\"id\":\"a\",\"type\":\"t\"\x7d,\x7b\"id\":\"p\"\x7d],\"edges\":[" ++
    "\x7b\"id\":\"b\",\"sourceId\":\"a\",\"targetId\":\"b\"\x7d," ++
    "\x7b\"id\":\"q\",\"sourceId\":\"p\",\"targetId\":\"ab\"\x7d," ++
    "\x7b\"id\":\"r\",\"sourceId\":\"p\",\"targetId\":\"q\"\x7d]\x7d"

/-- The node `a` comes in beside the one that is there, and of the edges only that between
this node and the node `b` of the sample. -/
theorem sample_paste_adds :
    sample.Reachable ∧ IdSupply.start.Fresh sample.model.ids ∧
      ∃ f new s' φ edgeIds dx dy,
        Fragment.ofClipboard stranger = .ok f ∧
        (f.edgesInto sample.model).map Edge.id = ["b"] ∧
        (paste stranger none).apply plain ⟨sample, .start⟩ =
          (.ok ⟨f.nodes.map (fun n => φ n.id) ++ edgeIds, [], none⟩, ⟨new, s'⟩) ∧
        sample.model.TakesIn new.model f φ edgeIds dx dy := by
  have h : sample.Reachable := ⟨sample, [], start_sample, rfl⟩
  have hs : IdSupply.start.Fresh sample.model.ids := IdSupply.fresh_start (by decide)
  have hread : Fragment.ofClipboard stranger =
      .ok ⟨[⟨"a", "t", .origin, none, .emptyObject⟩, ⟨"p", "", .origin, none, .emptyObject⟩],
        [⟨"b", "", "a", "b", [], .emptyObject⟩, ⟨"q", "", "p", "ab", [], .emptyObject⟩,
         ⟨"r", "", "p", "q", [], .emptyObject⟩]⟩ := by cbv
  obtain ⟨new, s', φ, edgeIds, dx, dy, hpaste, htakes⟩ := (paste_adds h hs stranger none plain).2 _ hread
  exact ⟨h, hs, _, new, s', φ, edgeIds, dx, dy, hread, by decide, hpaste, htakes⟩

end Operation

end DiagramEditor
