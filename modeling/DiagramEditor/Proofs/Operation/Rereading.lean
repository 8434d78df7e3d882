import DiagramEditor.Operation.Basic
import DiagramEditor.Proofs.Model.Values
import DiagramEditor.Proofs.Wire.Tagged

/-!
# Reading a written operation

An operation is written with all its parts and read back as it was, in whatever order its members
stand. The name of its kind is the one it is reported under.
-/

set_option autoImplicit false

namespace DiagramEditor

open Json

/-! ### Parts -/

theorem Clipboard.gives (c : Clipboard) : decode.Gives c.toValue c := rfl

@[simp] theorem Clipboard.decode_ignoresOrder : decode.IgnoresOrder :=
  Record.ignoresOrder (by simp [fields, Field.required]) (by simp [fields, Field.required]) _

theorem ChangeMode.gives (mode : ChangeMode) : decode.Gives (.string mode.name) mode := by
  cases mode <;> rfl

/-- What is there or not is written as it is or as `null`. -/
theorem Decoder.gives_ofOption {α : Type} {d : Decoder α} {toValue : α → Value} {part : Option α}
    (h : ∀ a ∈ part, d.Gives (toValue a) a ∧ toValue a ≠ .null) :
    (option d).Gives (Value.ofOption (part.map toValue)) part := by
  cases part with
  | none => rfl
  | some a => exact (h a rfl).1.option (h a rfl).2

theorem Operation.gives_pointOrNull {p : Option Point} (h : ∀ q ∈ p, q.IsFinite) :
    (Decoder.option Point.decode).Gives (pointOrNull p) p :=
  Decoder.gives_ofOption fun q hq => ⟨Point.gives (h q hq), by simp [Point.toValue]⟩

namespace Bounds

def IsFinite (b : Bounds) : Prop := (∀ p ∈ b.position, p.IsFinite) ∧ ∀ s ∈ b.size, s.IsFinite

@[simp] theorem decode_ignoresOrder : decode.IgnoresOrder :=
  Record.ignoresOrder (by simp [fields, Field.required, Field.defaulted])
    (by simp [fields, Field.required, Field.defaulted]) _

theorem gives {b : Bounds} (h : b.IsFinite) : decode.Gives b.toValue b := by
  obtain ⟨element, position, size⟩ := b
  have hposition : (Decoder.option Point.decode).Gives (Value.ofOption (position.map Point.toValue)) position :=
    Operation.gives_pointOrNull h.1
  have hsize : (Decoder.option Size.decode).Gives (Value.ofOption (size.map Size.toValue)) size := by
    cases size with
    | none => rfl
    | some s => exact Size.gives (h.2 s rfl)
  exact Record.gives_of_sets ["elementId", "newPosition", "newSize"]
    (.field rfl (Field.read_of_gives (Decoder.gives_string element))
      (.field rfl (Field.read_of_gives hposition) (.field rfl (Field.read_of_gives hsize) (.nil _))))
    rfl (by decide) (by decide)

end Bounds

namespace Routing

def IsFinite (r : Routing) : Prop := ∀ p ∈ r.points, p.IsFinite

@[simp] theorem decode_ignoresOrder : decode.IgnoresOrder :=
  Record.ignoresOrder (by simp [fields, Field.required, Field.defaulted])
    (by simp [fields, Field.required, Field.defaulted]) _

theorem gives {r : Routing} (h : r.IsFinite) : decode.Gives r.toValue r := by
  obtain ⟨element, points⟩ := r
  have hpoints : (Decoder.list Point.decode).Gives (.array (points.map Point.toValue)) points :=
    Decoder.gives_list fun p hp => Point.gives (h p hp)
  exact Record.gives_of_sets ["elementId", "newRoutingPoints"]
    (.field rfl (Field.read_of_gives (Decoder.gives_string element))
      (.field rfl (Field.read_of_gives hpoints) (.nil _)))
    rfl (by decide) (by decide)

end Routing

@[simp] theorem ChangeMode.decode_ignoresOrder : decode.IgnoresOrder := Tagged.plain_ignoresOrder

namespace Operation

/-- Every coordinate is finite, and the keys in bound data ascend. -/
def Writable : Operation → Prop
  | createNode _ location | paste _ location => ∀ p ∈ location, p.IsFinite
  | changeBounds bounds => ∀ b ∈ bounds, b.IsFinite
  | changeRouting routings => ∀ r ∈ routings, r.IsFinite
  | changeData _ data _ => data.Ordered
  | _ => True

/-- An operation is reported under the name that it is written with. -/
theorem kind_eq (op : Operation) : op.kind = op.variant.name := by
  cases op <;> rfl

theorem Kind.get?_name (k : Kind) : Table.get? k.name kinds = some k := by
  cases k <;> rfl

theorem ne_kind_of_mem_content {op : Operation} : ∀ m ∈ op.content, m.1 ≠ "kind" := by
  cases op <;> simp [content]

/-- What is read of the fields of a written operation. -/
def draft : Operation → Draft
  | createNode tag location => { Draft.empty with tag := tag, location := location }
  | createEdge tag source target => { Draft.empty with tag := tag, source := source, target := target }
  | deleteElements ids => { Draft.empty with ids := ids }
  | changeBounds bounds => { Draft.empty with bounds := bounds }
  | changeRouting routings => { Draft.empty with routings := routings }
  | reconnectEdge edge source target => { Draft.empty with element := edge, source := source, target := target }
  | editLabel label text => { Draft.empty with element := label, text := text }
  | changeData element data mode => { Draft.empty with element := element, data := data, mode := mode }
  | cut ids => { Draft.empty with ids := ids }
  | paste clipboard location => { Draft.empty with clipboard := clipboard, location := location }
  | refreshShowcase => Draft.empty

theorem ofDraft_draft (op : Operation) : ofDraft op.draft op.variant = op := by
  cases op <;> rfl

/-- The decoder of the fields of a kind. -/
def bodyOf (kind : Kind) : Decoder Draft := Record.decode (fieldsOf kind) .empty

/-- Every field of its kind is written, and nothing else. -/
theorem keys_content (op : Operation) : op.content.map Prod.fst = (fieldsOf op.variant).map Field.name := by
  cases op <;> rfl

theorem met_content (op : Operation) : Record.met (fieldsOf op.variant) op.content = op.content.map Prod.fst := by
  cases op <;> rfl

theorem nodup_fieldsOf (kind : Kind) : ((fieldsOf kind).map Field.name).Nodup := by
  cases kind <;> decide

theorem sets_content {op : Operation} (h : op.Writable) :
    Record.Sets (fieldsOf op.variant) op.content .empty op.draft := by
  cases op with
  | createNode tag location => exact .field rfl rfl (.field rfl (Field.read_of_gives (gives_pointOrNull h)) (.nil _))
  | createEdge | reconnectEdge => exact .field rfl rfl (.field rfl rfl (.field rfl rfl (.nil _)))
  | editLabel => exact .field rfl rfl (.field rfl rfl (.nil _))
  | deleteElements ids | cut ids => exact .field rfl (Field.read_of_gives (Decoder.gives_strings ids)) (.nil _)
  | changeBounds bounds =>
    have hbounds : (Decoder.list Bounds.decode).Gives (.array (bounds.map Bounds.toValue)) bounds :=
      Decoder.gives_list fun b hb => Bounds.gives (h b hb)
    exact .field rfl (Field.read_of_gives hbounds) (.nil _)
  | changeRouting routings =>
    have hroutings : (Decoder.list Routing.decode).Gives (.array (routings.map Routing.toValue)) routings :=
      Decoder.gives_list fun r hr => Routing.gives (h r hr)
    exact .field rfl (Field.read_of_gives hroutings) (.nil _)
  | changeData element data mode =>
    exact .field rfl rfl (.field rfl (Field.read_orNamed_of_gives (Decoder.gives_value h))
      (.field rfl (Field.read_of_gives (ChangeMode.gives mode)) (.nil _)))
  | paste clipboard location =>
    exact .field rfl (Field.read_of_gives clipboard.gives)
      (.field rfl (Field.read_of_gives (gives_pointOrNull h)) (.nil _))
  | refreshShowcase => exact .nil _

theorem gives_draft {op : Operation} (h : op.Writable) : (bodyOf op.variant).Gives (.object op.content) op.draft := by
  have hmet := (met_content op).trans op.keys_content
  exact Record.gives_of_sets _ (sets_content h) hmet (nodup_fieldsOf _) fun f hf _ => List.mem_map_of_mem hf

/-! ### The kind and the fields -/

/-- The kind is read first, and the fields of that kind are read of what is left. -/
theorem gives_iff {v : Value} {op : Operation} : decode.Gives v op ↔
    ∃ kind content d, Tagged.split "kind" (Tagged.byName kinds) (Tree.ofValue v) = .ok (kind, content) ∧
      bodyOf kind content = .ok d ∧ ofDraft d kind = op := by
  rw [Decoder.Gives, decode]
  cases hsplit : Tagged.split "kind" (Tagged.byName kinds) (Tree.ofValue v) with
  | error e => simp [bind, Except.bind]
  | ok out =>
    obtain ⟨kind, content⟩ := out
    cases hd : Tagged.fields (bodyOf kind) content with
    | error e =>
      have hnone : ∀ d, bodyOf kind content ≠ .ok d := fun d h => by
        rw [← Tagged.fields_eq_ok_iff, hd] at h
        cases h
      rw [bodyOf] at hd
      simp [bind, Except.bind, hd, hnone]
    | ok d =>
      have hread := Tagged.fields_eq_ok_iff.mp hd
      rw [bodyOf] at hd
      simp [bind, Except.bind, hd, hread, pure, Except.pure]

theorem bodyOf_ignoresOrder (kind : Kind) : (bodyOf kind).IgnoresOrder := by
  cases kind <;>
    exact Record.ignoresOrder
      (by simp [fieldsOf, tagField, sourceField, targetField, elementField, idsField, locationField, Field.required,
        Field.defaulted])
      (by simp [fieldsOf, tagField, sourceField, targetField, elementField, idsField, locationField, Field.required,
        Field.defaulted]) _

theorem decode_ignoresOrder : decode.IgnoresOrder := by
  intro v op h
  obtain ⟨kind, t, d, hsplit, hd, hop⟩ := gives_iff.mp h
  obtain ⟨content, rfl, hsorted⟩ := Tagged.split_sorted Tagged.byName_ignoresOrder hsplit
  exact gives_iff.mpr ⟨kind, _, d, hsorted, bodyOf_ignoresOrder kind content d hd, hop⟩

theorem gives_object_iff {ms : Members} {op : Operation} : decode.Gives (.object ms) op ↔
    ∃ kind v d, Tagged.given "kind" ms = [("kind", v)] ∧ (Tagged.byName kinds).Gives v kind ∧
      (bodyOf kind).Gives (.object (Tagged.others "kind" ms)) d ∧ ofDraft d kind = op := by
  simp only [gives_iff, Tagged.split_object_iff]
  constructor
  · rintro ⟨kind, _, d, ⟨⟨v, hgiven, hv⟩, rfl⟩, hd, hop⟩
    exact ⟨kind, v, d, hgiven, hv, hd, hop⟩
  · rintro ⟨kind, v, d, hgiven, hv, hd, hop⟩
    exact ⟨kind, _, d, ⟨⟨v, hgiven, hv⟩, rfl⟩, hd, hop⟩

theorem Writable.gives {op : Operation} (h : op.Writable) : decode.Gives op.toValue op :=
  gives_object_iff.mpr ⟨op.variant, _, op.draft, Tagged.given_cons ne_kind_of_mem_content _,
    Tagged.gives_byName_iff.mpr ⟨_, rfl, op.variant.get?_name⟩,
    (Tagged.others_cons ne_kind_of_mem_content _).symm ▸ gives_draft h, op.ofDraft_draft⟩

end Operation

end DiagramEditor
