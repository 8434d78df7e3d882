import DiagramEditor.Proofs.Clipboard
import DiagramEditor.Proofs.Model.Loading

/-!
# Reading a written fragment

A fragment is put on the clipboard as a text over several lines and read again as it was.
So is a model, whether its edges have their ends or not. A fragment in which an id comes twice is
refused, however it was written.
-/

set_option autoImplicit false

namespace DiagramEditor

open Json

namespace Fragment

variable {f : Fragment}

/-- The first thing that keeps the fragment from being read again, nodes before edges. -/
def fault? (f : Fragment) : Option WireError := (f.nodes.findSome? Node.fault?).or (f.edges.findSome? Edge.fault?)

theorem fault?_eq_none (hnodes : ∀ n ∈ f.nodes, n.Fits) (hedges : ∀ e ∈ f.edges, e.Fits) : f.fault? = none := by
  simp only [fault?, Option.or_eq_none_iff, List.findSome?_eq_none_iff, Node.fault?_eq_none_iff,
    Edge.fault?_eq_none_iff]
  exact ⟨hnodes, hedges⟩

section Reading

variable (hnodes : ∀ n ∈ f.nodes, n.data.Ordered) (hedges : ∀ e ∈ f.edges, e.data.Ordered)
include hnodes hedges

theorem decode_limit : decode (Tree.limit Tree.maxDepth (Tree.ofValue f.toValue)) = orFault f f.fault? := by
  have hns : Decoder.list Node.decode (Tree.limit 126 (Tree.ofValue (.array (f.nodes.map Node.toValue)))) =
      orFault f.nodes (f.nodes.findSome? Node.fault?) :=
    Decoder.list_limit fun n hn => Node.decode_limit (hnodes n hn)
  have hes : Decoder.list Edge.decode (Tree.limit 126 (Tree.ofValue (.array (f.edges.map Edge.toValue)))) =
      orFault f.edges (f.edges.findSome? Edge.fault?) :=
    Decoder.list_limit fun e he => Edge.decode_limit (hedges e he)
  rw [toValue, Tree.maxDepth, Tree.limit_object]
  cases hn : f.nodes.findSome? Node.fault? <;> cases he : f.edges.findSome? Edge.fault? <;>
    simp [decode, Record.decode, Record.readMembers, Record.missing?, fields, Field.defaulted, Field.make,
      Field.answersTo, hns, hes, Except.map, fault?, hn, he]

variable (hnumbers : f.toValue.Legible)
include hnumbers

/-- The text of a fragment is read as that fragment unless a fault stands in the way. -/
theorem ofText_payload :
    decode.ofText f.encode.payload = match f.fault? with | none => .ok f | some e => .error e.inText := by
  rw [encode, Decoder.ofText, Tree.ofText_pretty hnumbers]
  simp only [decode_limit hnodes hedges]
  cases f.fault? <;> rfl

theorem ofClipboard_encode_of_fits (hns : ∀ n ∈ f.nodes, n.Fits) (hes : ∀ e ∈ f.edges, e.Fits) (hids : f.ids.Nodup) :
    ofClipboard f.encode = .ok f := by
  refine ofClipboard_encode ?_ hids
  rw [ofText_payload hnodes hedges hnumbers, fault?_eq_none hns hes]

end Reading

/-- A payload in which an id comes twice is refused, and if it has the format understood, for such an id. -/
theorem refused_of_shared {c : Clipboard} (hread : decode.ofText c.payload = .ok f) (hids : ¬ f.ids.Nodup) :
    ∃ fault, ofClipboard c = .error (.malformedClipboard fault) ∧
      (c.format = Clipboard.jsonFormat → ∃ id, fault = .duplicateElement id ∧ 2 ≤ f.ids.count id) := by
  cases hid : Model.repeated? [] f.ids with
  | none => exact absurd (Model.repeated?_eq_none_iff.mp hid).1 hids
  | some id =>
    have htwice : 2 ≤ ([] ++ f.ids).count id := Model.two_le_count_of_repeated? hid
    by_cases hformat : c.format = Clipboard.jsonFormat
    · refine ⟨.duplicateElement id, ?_, fun _ => ⟨id, rfl, htwice⟩⟩
      rw [ofClipboard, if_neg (not_not.mpr hformat), hread]
      simp only [hid]
    · refine ⟨.foreignFormat c.format, ?_, fun h => absurd h hformat⟩
      rw [ofClipboard, if_pos hformat]

/-- A fragment in which an id comes twice is refused once it is written, whatever else is wrong with it. -/
theorem refused_of_encode (hnodes : ∀ n ∈ f.nodes, n.data.Ordered) (hedges : ∀ e ∈ f.edges, e.data.Ordered)
    (hnumbers : f.toValue.Legible) (hids : ¬ f.ids.Nodup) :
    ∃ fault, ofClipboard f.encode = .error (.malformedClipboard fault) := by
  have hread := ofText_payload hnodes hedges hnumbers
  cases hf : f.fault? with
  | none =>
    rw [hf] at hread
    exact (refused_of_shared hread hids).imp fun _ => And.left
  | some e =>
    rw [hf] at hread
    refine ⟨.document e.inText, ?_⟩
    rw [ofClipboard, if_neg (by simp [encode]), hread]

end Fragment

namespace Model

variable {m : Model}

/-- A model that fits is read of its text, on one line or over several, and of its value. -/
theorem Orderly.read (hm : m.Orderly) (hnumbers : m.toValue.Legible) (hfits : m.Fits) :
    decode.ofText m.toValue.compact = .ok m ∧ decode.ofText m.toValue.pretty = .ok m ∧
      decode.ofValue m.toValue.sorted = .ok m := by
  refine ⟨(ofText_compact hm hnumbers).1 hfits, ?_, ?_⟩
  · rw [Decoder.ofText, Tree.ofText_pretty hnumbers]
    simp only [decode_limit hm, fault?_eq_none_iff.mpr hfits, orFault_none, if_true]
  · have hwritable : m.Writable :=
      ⟨fun n hn => ⟨(hfits.nodes n hn).position, (hfits.nodes n hn).size, hm.nodeData n hn⟩,
        fun e he => ⟨(hfits.edges e he).routing, hm.edgeData e he⟩⟩
    have hvalue : decode.ofValue m.toValue = .ok m := by
      rw [decode_ofValue hwritable, repeatedId?_eq_none_iff.mpr ⟨hm.nodes, hm.edges⟩]
      rfl
    rw [Decoder.ofValue_eq_ok_iff] at hvalue ⊢
    exact decode_ignoresOrder _ _ hvalue

end Model

/-- Fragments and models are read as they were written, as long as every number is got back from its
text; a fragment or a payload in which an id comes twice is refused. -/
theorem Fragment.written_is_read :
    (∀ f : Fragment, (∀ n ∈ f.nodes, n.data.Ordered) → (∀ e ∈ f.edges, e.data.Ordered) → f.toValue.Legible →
      ((∀ n ∈ f.nodes, n.Fits) → (∀ e ∈ f.edges, e.Fits) → f.ids.Nodup → ofClipboard f.encode = .ok f) ∧
        (¬ f.ids.Nodup → ∃ fault, ofClipboard f.encode = .error (.malformedClipboard fault))) ∧
      (∀ (c : Clipboard) (f : Fragment), decode.ofText c.payload = .ok f → ¬ f.ids.Nodup →
        ∃ fault, ofClipboard c = .error (.malformedClipboard fault) ∧
          (c.format = Clipboard.jsonFormat → ∃ id, fault = .duplicateElement id ∧ 2 ≤ f.ids.count id)) ∧
      ∀ m : Model, m.Orderly → m.toValue.Legible → m.Fits →
        Model.decode.ofText m.toValue.compact = .ok m ∧ Model.decode.ofText m.toValue.pretty = .ok m ∧
          Model.decode.ofValue m.toValue.sorted = .ok m := by
  refine ⟨fun f hnodes hedges hnumbers => ⟨?_, ?_⟩, fun c f => refused_of_shared, fun m => Model.Orderly.read⟩
  · exact ofClipboard_encode_of_fits hnodes hedges hnumbers
  · exact refused_of_encode hnodes hedges hnumbers

/-- A node and an edge that leads nowhere. -/
def Fragment.loose (edge : ElementId) : Fragment where
  nodes := [⟨"a", "class", .origin, none, .null⟩]
  edges := [⟨edge, "", "a", "b", [.origin], .null⟩]

/-- As a fragment it is read again if its ids differ, and as a model even if they do not. -/
theorem Fragment.loose_is_read :
    ofClipboard (loose "e").encode = .ok (loose "e") ∧
      (∃ fault, ofClipboard (loose "a").encode = .error (.malformedClipboard fault)) ∧
      Model.decode.ofText (Model.mk "m" (loose "a").nodes (loose "a").edges).toValue.compact =
        .ok ⟨"m", (loose "a").nodes, (loose "a").edges⟩ := by
  have hfragment : (loose "e").toValue.Legible ∧ (loose "a").toValue.Legible := by decide +kernel
  have hmodel : (Model.mk "m" (loose "a").nodes (loose "a").edges).toValue.Legible := by decide +kernel
  have hfinite : Point.origin.IsFinite := by decide +kernel
  have hnodesFit : ∀ edge, ∀ n ∈ (loose edge).nodes, n.Fits := fun edge =>
    List.forall_mem_singleton.mpr ⟨hfinite, by simp, Nat.zero_le _⟩
  have hedgesFit : ∀ edge, ∀ e ∈ (loose edge).edges, e.Fits := fun edge =>
    List.forall_mem_singleton.mpr ⟨List.forall_mem_singleton.mpr hfinite, Nat.zero_le _⟩
  have hnodeData : ∀ edge, ∀ n ∈ (loose edge).nodes, n.data.Ordered := fun edge => List.forall_mem_singleton.mpr .null
  have hedgeData : ∀ edge, ∀ e ∈ (loose edge).edges, e.data.Ordered := fun edge => List.forall_mem_singleton.mpr .null
  have hread := fun edge => written_is_read.1 (loose edge) (hnodeData edge) (hedgeData edge)
  refine ⟨?_, ?_, ?_⟩
  · exact (hread "e" hfragment.1).1 (hnodesFit "e") (hedgesFit "e") (by decide)
  · exact (hread "a" hfragment.2).2 (by decide)
  · exact (written_is_read.2.2 _ ⟨by decide, by decide, hnodeData "a", hedgeData "a"⟩ hmodel
      ⟨hnodesFit "a", hedgesFit "a"⟩).1

end DiagramEditor
