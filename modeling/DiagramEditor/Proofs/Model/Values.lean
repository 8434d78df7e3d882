import DiagramEditor.Proofs.Wire.Order

/-!
# Models read from values

A model is read of its value as of its text, whatever the order of the members in its
records. A value may be nested as deep as it likes.
-/

set_option autoImplicit false

namespace DiagramEditor

open Json

/-! ### Records in any order -/

@[simp] theorem Point.decode_ignoresOrder : decode.IgnoresOrder :=
  Record.ignoresOrder (by simp [fields, Field.required]) (by simp [fields, Field.required]) _

@[simp] theorem Size.decode_ignoresOrder : decode.IgnoresOrder :=
  Record.ignoresOrder (by simp [fields, Field.required]) (by simp [fields, Field.required]) _

@[simp] theorem Node.decode_ignoresOrder : decode.IgnoresOrder :=
  Record.ignoresOrder (by simp [fields, Field.required, Field.defaulted])
    (by simp [fields, Field.required, Field.defaulted]) _

@[simp] theorem Edge.decode_ignoresOrder : decode.IgnoresOrder :=
  Record.ignoresOrder (by simp [fields, Field.required, Field.defaulted])
    (by simp [fields, Field.required, Field.defaulted]) _

theorem Model.decode_ignoresOrder : decode.IgnoresOrder :=
  Record.ignoresOrder (by simp [fields, Field.required, Field.defaulted])
    (by simp [fields, Field.required, Field.defaulted]) _

/-! ### Elements as they are written -/

/-- Coordinates are finite, and the keys in bound data ascend. -/
structure Node.Writable (n : Node) : Prop where
  position : n.position.IsFinite
  size : ∀ s ∈ n.size, s.IsFinite
  data : n.data.Ordered

structure Edge.Writable (e : Edge) : Prop where
  routing : ∀ p ∈ e.routing, p.IsFinite
  data : e.data.Ordered

/-- What is read however much room there is, is read where there is room for all. -/
theorem Decoder.gives_of_limit {α : Type} {d : Decoder α} {v : Value} {a : α}
    (h : ∀ room, d (Tree.limit (room + 1) (Tree.ofValue v)) = .ok a) : d.Gives v a := by
  have hroom := h v.depth
  rwa [Tree.limit_ofValue v (Nat.le_succ _)] at hroom

theorem Point.gives {p : Point} (h : p.IsFinite) : decode.Gives p.toValue p :=
  Decoder.gives_of_limit fun room => by rw [decode_limit, fault?_eq_none_iff.mpr h, orFault_none]

theorem Size.gives {s : Size} (h : s.IsFinite) : (Decoder.option decode).Gives s.toValue (some s) :=
  Decoder.gives_of_limit fun room => by rw [option_limit, fault?_eq_none_iff.mpr h, orFault_none]

theorem Node.Writable.gives {n : Node} (h : n.Writable) : Node.decode.Gives n.toValue n := by
  obtain ⟨id, tag, position, size, data⟩ := n
  have hposition := Point.gives h.position
  have hdata := Decoder.gives_value h.data
  cases size with
  | none =>
    exact Record.gives_of_sets ["id", "type", "position", "boundData"]
      (.field rfl rfl (.field rfl rfl (.field rfl (Field.read_of_gives hposition)
        (.field rfl (Field.read_orNamed_of_gives hdata) (.nil _)))))
      rfl (by decide) (by decide)
  | some size =>
    have hsize := Size.gives (h.size size rfl)
    exact Record.gives_of_sets ["id", "type", "position", "size", "boundData"]
      (.field rfl rfl (.field rfl rfl (.field rfl (Field.read_of_gives hposition)
        (.field rfl (Field.read_of_gives hsize) (.field rfl (Field.read_orNamed_of_gives hdata) (.nil _))))))
      rfl (by decide) (by decide)

theorem Edge.Writable.gives {e : Edge} (h : e.Writable) : Edge.decode.Gives e.toValue e := by
  obtain ⟨id, tag, source, target, routing, data⟩ := e
  have hrouting : (Decoder.list Point.decode).Gives (.array (routing.map Point.toValue)) routing :=
    Decoder.gives_list fun p hp => Point.gives (h.routing p hp)
  have hdata := Decoder.gives_value h.data
  exact Record.gives_of_sets ["id", "type", "sourceId", "targetId", "routingPoints", "boundData"]
    (.field rfl rfl (.field rfl rfl (.field rfl rfl (.field rfl rfl
      (.field rfl (Field.read_of_gives hrouting) (.field rfl (Field.read_orNamed_of_gives hdata) (.nil _)))))))
    rfl (by decide) (by decide)

end DiagramEditor
