import DiagramEditor.Model.Wire
import DiagramEditor.Proofs.Json.Rereading

/-!
# Reading a written model

A model is written as a document whatever it holds, but only finite coordinates have a
text that is a number, and only so many containers may stand inside one another. The first
place where a model breaks one of these rules decides how its document is refused.
-/

set_option autoImplicit false

namespace DiagramEditor

open Json

/-- What is read unless a fault stands in the way. -/
def orFault {α : Type} (a : α) : Option WireError → Except WireError α
  | none => .ok a
  | some e => .error e

@[simp] theorem orFault_none {α : Type} (a : α) : orFault a none = .ok a := rfl

@[simp] theorem orFault_some {α : Type} (a : α) (e : WireError) : orFault a (some e) = .error e := rfl

/-- A value that stands where it must not be deeper than `room`. -/
def depthFault? (room : Nat) (v : Value) : Option WireError := if v.depth ≤ room then none else some .notJson

namespace Decoder

variable {α : Type} {as : List α}

theorem value_limit {v : Value} (hv : v.Ordered) (room : Nat) :
    value (Tree.limit room (Tree.ofValue v)) = orFault v (depthFault? room v) := by
  by_cases h : v.depth ≤ room
  · rw [depthFault?, if_pos h, Tree.limit_ofValue v h, value, Tree.toValue?_ofValue v hv]
    rfl
  · rw [depthFault?, if_neg h, value, Tree.toValue?_limit v (Nat.lt_of_not_le h)]
    rfl

theorem items_map {d : Decoder α} {tree : α → Tree} {fault? : α → Option WireError}
    (h : ∀ a ∈ as, d (tree a) = orFault a (fault? a)) :
    items d (as.map tree) = orFault as (as.findSome? fault?) := by
  induction as with
  | nil => rfl
  | cons a as ih =>
    rw [List.forall_mem_cons] at h
    rw [List.map_cons, items, h.1, ih h.2, List.findSome?_cons]
    cases fault? a with
    | some e => rfl
    | none => cases as.findSome? fault? <;> rfl

theorem distinct_of_nodup {id : α → String} {seen : List String} (h : (as.map id).Nodup)
    (hseen : ∀ a ∈ as, id a ∉ seen) : distinct id seen as = .ok () := by
  induction as generalizing seen with
  | nil => rfl
  | cons a as ih =>
    rw [List.map_cons, List.nodup_cons] at h
    rw [List.forall_mem_cons] at hseen
    rw [distinct, if_neg (by simpa using hseen.1)]
    refine ih h.2 fun b hb => ?_
    rw [List.mem_cons, not_or]
    exact ⟨fun heq => h.1 (heq ▸ List.mem_map_of_mem hb), hseen.2 b hb⟩

end Decoder

/-- A coordinate that is not finite has no text that is a number. -/
def floatFault? (x : Float) : Option WireError := if x.isFinite then none else some .wrongType

theorem Decoder.float_limit (x : Float) (room : Nat) :
    float (Tree.limit room (Tree.ofValue (Value.ofFloat x))) = orFault x (floatFault? x) := by
  by_cases h : x.isFinite = true
  · simp [Value.ofFloat, Number.ofFloat?, h, floatFault?, Tree.ofValue, Tree.limit, float, Number.toFloat]
  · simp [Value.ofFloat, Number.ofFloat?, h, floatFault?, Tree.ofValue, Tree.limit, float, mismatch]

namespace Point

def fault? (p : Point) : Option WireError := (floatFault? p.x).or (floatFault? p.y)

theorem decode_limit (p : Point) (room : Nat) :
    decode (Tree.limit (room + 1) (Tree.ofValue p.toValue)) = orFault p p.fault? := by
  rw [toValue, Tree.limit_object]
  cases hx : floatFault? p.x <;> cases hy : floatFault? p.y <;>
    simp [decode, Record.decode, Record.readMembers, Record.missing?, fields, Field.required, Field.make,
      Field.answersTo, Decoder.float_limit, Except.map, fault?, hx, hy]

end Point

namespace Size

def fault? (s : Size) : Option WireError := (floatFault? s.width).or (floatFault? s.height)

theorem decode_limit (s : Size) (room : Nat) :
    decode (Tree.limit (room + 1) (Tree.ofValue s.toValue)) = orFault s s.fault? := by
  rw [toValue, Tree.limit_object]
  cases hw : floatFault? s.width <;> cases hh : floatFault? s.height <;>
    simp [decode, Record.decode, Record.readMembers, Record.missing?, fields, Field.required, Field.make,
      Field.answersTo, Decoder.float_limit, Except.map, fault?, hw, hh]

theorem option_limit (s : Size) (room : Nat) :
    Decoder.option decode (Tree.limit (room + 1) (Tree.ofValue s.toValue)) = orFault (some s) s.fault? := by
  have hoption : Decoder.option decode (Tree.limit (room + 1) (Tree.ofValue s.toValue)) =
      (decode (Tree.limit (room + 1) (Tree.ofValue s.toValue))).map some := rfl
  rw [hoption, decode_limit]
  cases s.fault? <;> rfl

end Size

namespace Node

/-- The first thing that keeps the node from being read again. -/
def fault? (n : Node) : Option WireError :=
  n.position.fault?.or ((n.size.bind Size.fault?).or (depthFault? 124 n.data))

theorem decode_limit {n : Node} (hn : n.data.Ordered) :
    decode (Tree.limit 125 (Tree.ofValue n.toValue)) = orFault n n.fault? := by
  obtain ⟨id, tag, position, size, data⟩ := n
  rw [toValue, Tree.limit_object]
  cases size with
  | none =>
    cases hp : position.fault? <;> cases hd : depthFault? 124 data <;>
      simp [decode, Record.decode, Record.readMembers, Record.missing?, fields, Field.required, Field.defaulted,
        Field.orNamed, Field.make, Field.answersTo, Members.whenSome, Tree.limit_string, Decoder.string,
        Point.decode_limit, Decoder.value_limit hn, Except.map, fault?, hp, hd]
  | some size =>
    cases hp : position.fault? <;> cases hs : size.fault? <;> cases hd : depthFault? 124 data <;>
      simp [decode, Record.decode, Record.readMembers, Record.missing?, fields, Field.required, Field.defaulted,
        Field.orNamed, Field.make, Field.answersTo, Members.whenSome, Tree.limit_string, Decoder.string,
        Point.decode_limit, Size.option_limit, Decoder.value_limit hn, Except.map, fault?, hp, hs, hd]

end Node

theorem Decoder.list_limit {α : Type} {d : Decoder α} {toValue : α → Value} {fault? : α → Option WireError}
    {as : List α} {room : Nat} (h : ∀ a ∈ as, d (Tree.limit room (Tree.ofValue (toValue a))) = orFault a (fault? a)) :
    list d (Tree.limit (room + 1) (Tree.ofValue (.array (as.map toValue)))) = orFault as (as.findSome? fault?) := by
  rw [Tree.limit_array, list, List.map_map]
  exact items_map h

theorem Decoder.elements_limit {α : Type} {d : Decoder α} {toValue : α → Value} {fault? : α → Option WireError}
    {id : α → String} {as : List α} {room : Nat} (hids : (as.map id).Nodup)
    (h : ∀ a ∈ as, d (Tree.limit room (Tree.ofValue (toValue a))) = orFault a (fault? a)) :
    elements id d (Tree.limit (room + 1) (Tree.ofValue (.array (as.map toValue)))) =
      orFault as (as.findSome? fault?) := by
  have hdistinct : distinct id [] as = .ok () := distinct_of_nodup hids (by simp)
  rw [elements, list_limit h]
  cases as.findSome? fault? with
  | none => simp [bind, Except.bind, hdistinct, pure, Except.pure]
  | some e => rfl

namespace Edge

/-- The first thing that keeps the edge from being read again. -/
def fault? (e : Edge) : Option WireError := (e.routing.findSome? Point.fault?).or (depthFault? 124 e.data)

theorem decode_limit {e : Edge} (he : e.data.Ordered) :
    decode (Tree.limit 125 (Tree.ofValue e.toValue)) = orFault e e.fault? := by
  obtain ⟨id, tag, source, target, routing, data⟩ := e
  have hrouting : Decoder.list Point.decode (Tree.limit 124 (Tree.ofValue (.array (routing.map Point.toValue)))) =
      orFault routing (routing.findSome? Point.fault?) := Decoder.list_limit fun p _ => Point.decode_limit p 122
  rw [toValue, Tree.limit_object]
  cases hp : routing.findSome? Point.fault? <;> cases hd : depthFault? 124 data <;>
    simp [decode, Record.decode, Record.readMembers, Record.missing?, fields, Field.required, Field.defaulted,
      Field.orNamed, Field.make, Field.answersTo, Tree.limit_string, Decoder.string, hrouting,
      Decoder.value_limit he, Except.map, fault?, hp, hd]

end Edge

namespace Model

/-- Nodes have different ids, and edges have; the keys of their data ascend. -/
structure Orderly (m : Model) : Prop where
  nodes : (m.nodes.map Node.id).Nodup
  edges : (m.edges.map Edge.id).Nodup
  nodeData : ∀ n ∈ m.nodes, n.data.Ordered
  edgeData : ∀ e ∈ m.edges, e.data.Ordered

/-- The first thing that keeps the model from being read again, nodes before edges. -/
def fault? (m : Model) : Option WireError := (m.nodes.findSome? Node.fault?).or (m.edges.findSome? Edge.fault?)

theorem decode_limit {m : Model} (hm : m.Orderly) :
    decode (Tree.limit Tree.maxDepth (Tree.ofValue m.toValue)) = orFault m m.fault? := by
  have hnodes :
      Decoder.elements (·.id) Node.decode (Tree.limit 126 (Tree.ofValue (.array (m.nodes.map Node.toValue)))) =
        orFault m.nodes (m.nodes.findSome? Node.fault?) :=
    Decoder.elements_limit hm.nodes fun n hn => Node.decode_limit (hm.nodeData n hn)
  have hedges :
      Decoder.elements (·.id) Edge.decode (Tree.limit 126 (Tree.ofValue (.array (m.edges.map Edge.toValue)))) =
        orFault m.edges (m.edges.findSome? Edge.fault?) :=
    Decoder.elements_limit hm.edges fun e he => Edge.decode_limit (hm.edgeData e he)
  rw [toValue, Tree.maxDepth, Tree.limit_object]
  cases hn : m.nodes.findSome? Node.fault? <;> cases he : m.edges.findSome? Edge.fault? <;>
    simp [decode, Record.decode, Record.readMembers, Record.missing?, fields, Field.required, Field.defaulted,
      Field.make, Field.answersTo, Tree.limit_string, Decoder.string, hnodes, hedges, Except.map, fault?, hn, he]

end Model

/-! ### What can be read again -/

theorem floatFault?_eq_none_iff {x : Float} : floatFault? x = none ↔ x.isFinite = true := by
  simp [floatFault?]

theorem depthFault?_eq_none_iff {room : Nat} {v : Value} : depthFault? room v = none ↔ v.depth ≤ room := by
  simp [depthFault?]

namespace Point

def IsFinite (p : Point) : Prop := p.x.isFinite = true ∧ p.y.isFinite = true

instance (p : Point) : Decidable p.IsFinite := inferInstanceAs (Decidable (_ ∧ _))

theorem fault?_eq_none_iff {p : Point} : p.fault? = none ↔ p.IsFinite := by
  simp [fault?, floatFault?_eq_none_iff, IsFinite]

end Point

namespace Size

def IsFinite (s : Size) : Prop := s.width.isFinite = true ∧ s.height.isFinite = true

instance (s : Size) : Decidable s.IsFinite := inferInstanceAs (Decidable (_ ∧ _))

theorem fault?_eq_none_iff {s : Size} : s.fault? = none ↔ s.IsFinite := by
  simp [fault?, floatFault?_eq_none_iff, IsFinite]

end Size

structure Node.Fits (n : Node) : Prop where
  position : n.position.IsFinite
  size : ∀ s, n.size = some s → s.IsFinite
  data : n.data.depth ≤ 124

structure Edge.Fits (e : Edge) : Prop where
  routing : ∀ p ∈ e.routing, p.IsFinite
  data : e.data.depth ≤ 124

/-- Every coordinate is finite, and no data is nested more than 124 deep. -/
structure Model.Fits (m : Model) : Prop where
  nodes : ∀ n ∈ m.nodes, n.Fits
  edges : ∀ e ∈ m.edges, e.Fits

theorem Node.fault?_eq_none_iff {n : Node} : n.fault? = none ↔ n.Fits := by
  simp only [fault?, Option.or_eq_none_iff, Point.fault?_eq_none_iff, Option.bind_eq_none_iff, Size.fault?_eq_none_iff,
    depthFault?_eq_none_iff]
  exact ⟨fun ⟨hp, hs, hd⟩ => ⟨hp, hs, hd⟩, fun h => ⟨h.position, h.size, h.data⟩⟩

theorem Edge.fault?_eq_none_iff {e : Edge} : e.fault? = none ↔ e.Fits := by
  simp only [fault?, Option.or_eq_none_iff, List.findSome?_eq_none_iff, Point.fault?_eq_none_iff,
    depthFault?_eq_none_iff]
  exact ⟨fun ⟨hr, hd⟩ => ⟨hr, hd⟩, fun h => ⟨h.routing, h.data⟩⟩

namespace Model

variable {m : Model}

theorem fault?_eq_none_iff : m.fault? = none ↔ m.Fits := by
  simp only [fault?, Option.or_eq_none_iff, List.findSome?_eq_none_iff, Node.fault?_eq_none_iff,
    Edge.fault?_eq_none_iff]
  exact ⟨fun ⟨hn, he⟩ => ⟨hn, he⟩, fun h => ⟨h.nodes, h.edges⟩⟩

/-- The text of a model whose numbers are read back is read as that model if the model
fits, and is refused if it does not. -/
theorem ofText_compact (hm : m.Orderly) (hnumbers : m.toValue.Legible) :
    (m.Fits → Decoder.ofText decode m.toValue.compact = .ok m) ∧
      (¬ m.Fits → ∃ e, Decoder.ofText decode m.toValue.compact = .error e) := by
  rw [Decoder.ofText, Tree.ofText_compact hnumbers]
  simp only [decode_limit hm, ← fault?_eq_none_iff]
  cases m.fault? with
  | none => simp
  | some e => simp

end Model

end DiagramEditor
