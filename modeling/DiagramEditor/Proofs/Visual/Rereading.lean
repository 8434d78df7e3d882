import DiagramEditor.Proofs.Visual.Properties
import DiagramEditor.Proofs.Wire.Order
import DiagramEditor.Visual.Wire

/-!
# Reading a rendering

What is rendered is written with the properties of an element beside its structure, in one object.
No property has the name of a part of the structure, so each member of the object is read as what it
was written for, in whatever order the members stand.
-/

set_option autoImplicit false

namespace DiagramEditor

open Json

namespace VisualElement

/-! ### The structure of an element -/

/-- The structure of an element as the fields of a record; whatever else is there is a property. -/
def parts (child : Decoder VisualElement) : List (Field Draft) :=
  [.required "id" Decoder.string fun v d => { d with id := some v },
   .required "type" Decoder.string fun v d => { d with kind := some v },
   .defaulted "args" decodeArgs fun v d => { d with args := some v },
   .defaulted "children" (Decoder.list child) fun v d => { d with children := some v }]

/-- The part has not been read yet. -/
def Draft.Lacks (d : Draft) (name : String) : Prop :=
  (name = "id" → d.id = none) ∧ (name = "type" → d.kind = none) ∧ (name = "args" → d.args = none) ∧
    (name = "children" → d.children = none)

/-- The members that are properties. -/
def rest (ms : Members) : Members := ms.filter (·.1 ∉ Template.reserved)

variable {child : Decoder VisualElement} {ms : Members} {d e : Draft}

theorem reserved_of_mem_parts {f : Field Draft} (hf : f ∈ parts child) : f.name ∈ Template.reserved := by
  revert f
  simp [parts, Field.required, Field.defaulted, Field.make, Template.reserved]

theorem name_of_find? {key : String} {f : Field Draft} (hf : (parts child).find? (·.answersTo key) = some f) :
    f.name = key := by
  have hsingle : ∀ f ∈ parts child, f.otherName = none := by simp [parts, Field.required, Field.defaulted, Field.make]
  simpa [Field.answersTo, hsingle f (List.mem_of_find?_eq_some hf)] using List.find?_some hf

/-- What reading a part sets: it leaves the properties alone, and what other parts there are. -/
structure SetsPart (child : Decoder VisualElement) (name : String) (t : Tree) (set : Draft → Draft) : Prop where
  apart : ∀ d properties, set { d with properties := properties } = { set d with properties := properties }
  lacks : ∀ d other, other ≠ name → Draft.Lacks d other → (set d).Lacks other
  read : ∀ d ts, d.Lacks name → readMembers child ((some name, t) :: ts) d = readMembers child ts (set d)

theorem setsPart {f : Field Draft} (hf : f ∈ parts child) {t : Tree} {set : Draft → Draft} (hset : f.read t = .ok set) :
    SetsPart child f.name t set := by
  simp only [parts, List.mem_cons, List.not_mem_nil, or_false] at hf
  -- each part in turn: first what other parts there are, then its member
  rcases hf with rfl | rfl | rfl | rfl
  all_goals
    obtain ⟨b, hb, rfl⟩ := Field.of_read_make hset
    refine ⟨fun _ _ => rfl, fun d other hne hlacks => ?_, fun d ts hlacks => ?_⟩
  · exact ⟨fun h => absurd h hne, hlacks.2⟩
  · simp [readMembers, Field.required, Field.make, hlacks.1 rfl, hb, bind, Except.bind]
  · exact ⟨hlacks.1, fun h => absurd h hne, hlacks.2.2⟩
  · simp [readMembers, Field.required, Field.make, hlacks.2.1 rfl, hb, bind, Except.bind]
  · exact ⟨hlacks.1, hlacks.2.1, fun h => absurd h hne, hlacks.2.2.2⟩
  · simp [readMembers, Field.defaulted, Field.make, hlacks.2.2.1 rfl, hb, bind, Except.bind]
  · exact ⟨hlacks.1, hlacks.2.1, hlacks.2.2.1, fun h => absurd h hne⟩
  · simp [readMembers, Field.defaulted, Field.make, hlacks.2.2.2 rfl, hb, bind, Except.bind]

theorem find?_parts_eq_none_iff {key : String} :
    (parts child).find? (·.answersTo key) = none ↔ key ∉ Template.reserved := by
  simp [parts, Field.required, Field.defaulted, Field.make, Field.answersTo, Template.reserved]
  grind

theorem independent_parts (child : Decoder VisualElement) : Record.Independent (parts child) := by
  simp [parts, Field.required, Field.defaulted]

/-- A part is given under its own name. -/
theorem met_sublist (ms : Members) : (Record.met (parts child) ms).Sublist (ms.map Prod.fst) := by
  induction ms with
  | nil => exact List.Sublist.refl _
  | cons m ms ih =>
    rw [Record.met_cons]
    cases hf : (parts child).find? (·.answersTo m.1) with
    | none => exact ih.cons m.1
    | some f =>
      have hname := name_of_find? hf
      show (f.name :: _).Sublist (m.1 :: _)
      rw [hname]
      exact ih.cons_cons m.1

/-- Any other member is a property. -/
theorem readMembers_property {key : String} (hkey : key ∉ Template.reserved) (v : Value)
    (ts : List (Option String × Tree)) (d : Draft) :
    readMembers child ((some key, Tree.ofValue v) :: ts) d =
      readMembers child ts { d with properties := d.properties.insert key v.sorted } := by
  simp only [Template.reserved, List.mem_cons, List.not_mem_nil, or_false, not_or] at hkey
  obtain ⟨htype, hchildren, hargs, hid⟩ := hkey
  rw [readMembers.eq_def]
  simp [Tree.toValue?_ofValue_sorted]

/-- Every part that is given is read, and what is left is taken for properties. -/
theorem readMembers_of_sets (h : Record.Sets (parts child) ms d e) (hn : (Record.met (parts child) ms).Nodup)
    (hlacks : ∀ name ∈ Record.met (parts child) ms, d.Lacks name) (properties : Members) :
    readMembers child (Tree.ofMembers ms) { d with properties := properties } =
      .ok { e with properties := properties.insertAll (Value.sortedMembers (rest ms)) } := by
  induction h generalizing properties with
  | nil d => rfl
  | @skip m ms d e hf _ ih =>
    obtain ⟨key, v⟩ := m
    have hkey : key ∉ Template.reserved := find?_parts_eq_none_iff.mp hf
    have hmet : Record.met (parts child) ((key, v) :: ms) = Record.met (parts child) ms := by
      rw [Record.met_cons, hf]
      rfl
    have hrest : rest ((key, v) :: ms) = (key, v) :: rest ms := List.filter_cons_of_pos (by simpa using hkey)
    rw [hmet] at hn hlacks
    rw [Tree.ofMembers, readMembers_property hkey, hrest]
    exact ih hn hlacks _
  | @field m ms f set d e hf hset _ ih =>
    obtain ⟨key, v⟩ := m
    have hmem := List.mem_of_find?_eq_some hf
    obtain rfl : f.name = key := name_of_find? hf
    have hmet : Record.met (parts child) ((f.name, v) :: ms) = f.name :: Record.met (parts child) ms := by
      rw [Record.met_cons, hf]
      rfl
    have hrest : rest ((f.name, v) :: ms) = rest ms :=
      List.filter_cons_of_neg (by simpa using reserved_of_mem_parts hmem)
    rw [hmet] at hn hlacks
    rw [List.nodup_cons] at hn
    rw [List.forall_mem_cons] at hlacks
    have hset' : f.read (Tree.ofValue v) = .ok set := hset
    have hpart := setsPart hmem hset'
    have hfree : ∀ name ∈ Record.met (parts child) ms, (set d).Lacks name := fun name hm =>
      hpart.lacks d name (fun heq => hn.1 (heq ▸ hm)) (hlacks.2 name hm)
    have hfirst : Draft.Lacks { d with properties := properties } f.name := hlacks.1
    rw [Tree.ofMembers, hpart.read _ _ hfirst, hpart.apart, hrest]
    exact ih hn.2 hfree _

/-- An element is read of the members that give its structure; the others are its properties. -/
theorem gives_object {fuel : Nat} {id kind : String} {args : Option Members} {children : Option (List VisualElement)}
    (h : Record.Sets (parts (decodeFuel fuel)) ms ⟨none, none, [], none, none⟩ ⟨some id, some kind, [], args, children⟩)
    (hn : (Record.met (parts (decodeFuel fuel)) ms).Nodup) :
    (decodeFuel (fuel + 1)).Gives (.object ms)
      ⟨id, kind, Members.ofList (Value.sortedMembers (rest ms)), args.getD [], children.getD []⟩ := by
  have hlacks : ∀ name ∈ Record.met (parts (decodeFuel fuel)) ms, Draft.Lacks ⟨none, none, [], none, none⟩ name :=
    fun name _ => ⟨fun _ => rfl, fun _ => rfl, fun _ => rfl, fun _ => rfl⟩
  have hread := readMembers_of_sets h hn hlacks []
  rw [Decoder.Gives, Tree.ofValue, decodeFuel, hread]
  rfl

/-! ### What is written -/

theorem toValues_eq_map (vs : List VisualElement) : toValues vs = vs.map toValue := by
  induction vs with
  | nil => rfl
  | cons v vs ih => rw [toValues, ih, List.map_cons]

/-- What every element is written with. -/
def tags (v : VisualElement) : Members := [("id", .string v.id), ("type", .string v.kind)]

/-- What is left out where there is none of it. -/
def contents (v : VisualElement) : Members :=
  (if v.args.isEmpty then [] else [("args", .object v.args)]) ++
    (if v.children.isEmpty then [] else [("children", .array (v.children.map toValue))])

/-- The members of the structure. -/
def frame (v : VisualElement) : Members := v.tags ++ v.contents

def members (v : VisualElement) : Members := v.tags ++ v.properties ++ v.contents

theorem toValue_eq (v : VisualElement) : v.toValue = .object v.members := by
  obtain ⟨id, kind, properties, args, children⟩ := v
  cases children with
  | nil => simp [toValue, members, tags, contents]
  | cons c cs => simp [toValue, members, tags, contents, toValues_eq_map]

theorem reserved_of_mem_frame {v : VisualElement} {m : String × Value} (h : m ∈ v.frame) : m.1 ∈ Template.reserved := by
  have hkeys : v.frame.map Prod.fst ⊆ Template.reserved := by
    simp only [frame, tags, contents]
    split <;> split <;> simp [Template.reserved]
  exact hkeys (List.mem_map_of_mem h)

theorem nodup_frame (v : VisualElement) : (v.frame.map Prod.fst).Nodup := by
  simp only [frame, tags, contents]
  split <;> split <;> simp

theorem members_perm (v : VisualElement) : v.members.Perm (v.frame ++ v.properties) := by
  rw [members, frame, List.append_assoc, List.append_assoc]
  exact List.perm_append_comm.append_left v.tags

namespace Plain

variable {v : VisualElement}

/-- No key of an element is written twice. -/
theorem nodup_members (h : v.Plain) : (v.members.map Prod.fst).Nodup := by
  have hproperties : v.properties.Ascending := by
    cases h.properties.ordered with
    | object hkeys _ => exact hkeys
  rw [(v.members_perm.map Prod.fst).nodup_iff, List.map_append]
  refine List.nodup_append.mpr ⟨v.nodup_frame, hproperties.nodup, fun key hframe other hother heq => ?_⟩
  obtain ⟨m, hm, rfl⟩ := List.mem_map.mp hframe
  obtain ⟨n, hn, rfl⟩ := List.mem_map.mp hother
  exact h.properties.names n hn (heq ▸ reserved_of_mem_frame hm)

theorem nodup_sortedMembers (h : v.Plain) : ((Value.sortedMembers v.members).map Prod.fst).Nodup := by
  rw [Value.keys_sortedMembers]
  exact h.nodup_members

/-- Sorting puts the members in another order and loses none. -/
theorem sorted_perm (h : v.Plain) :
    (Members.ofList (Value.sortedMembers v.members)).Perm (Value.sortedMembers v.members) :=
  Members.ofList_perm h.nodup_sortedMembers

theorem rest_members (h : v.Plain) : rest v.members = v.properties := by
  have hproperties : v.properties.filter (·.1 ∉ Template.reserved) = v.properties :=
    List.filter_eq_self.mpr fun m hm => by simpa using h.properties.names m hm
  have htags : v.tags.filter (·.1 ∉ Template.reserved) = [] :=
    List.filter_eq_nil_iff.mpr fun m hm => by simpa using reserved_of_mem_frame (List.mem_append_left v.contents hm)
  have hcontents : v.contents.filter (·.1 ∉ Template.reserved) = [] :=
    List.filter_eq_nil_iff.mpr fun m hm => by simpa using reserved_of_mem_frame (List.mem_append_right v.tags hm)
  rw [rest, members, List.filter_append, List.filter_append, hproperties, htags, hcontents, List.nil_append,
    List.append_nil]

theorem known_members (h : v.Plain) (child : Decoder VisualElement) :
    v.members.filter (fun m => Record.known (parts child) m.1) = v.frame := by
  have hknown : ∀ key, Record.known (parts child) key = true ↔ key ∈ Template.reserved := by
    intro key
    rw [Record.known, Option.isSome_iff_ne_none, Ne, find?_parts_eq_none_iff, not_not]
  have hproperties : v.properties.filter (fun m => Record.known (parts child) m.1) = [] :=
    List.filter_eq_nil_iff.mpr fun m hm => by rw [hknown]; exact h.properties.names m hm
  have hframe : ∀ m ∈ v.frame, Record.known (parts child) m.1 = true := fun m hm => by
    rw [hknown]
    exact reserved_of_mem_frame hm
  rw [frame, List.forall_mem_append] at hframe
  rw [members, frame, List.filter_append, List.filter_append, hproperties, List.filter_eq_self.mpr hframe.1,
    List.filter_eq_self.mpr hframe.2, List.append_nil]

/-- What the structure sets is the structure of the element, if its children are read back. -/
theorem sets_frame (h : v.Plain) {child : Decoder VisualElement}
    (hchildren : ∀ c ∈ v.children, child.Gives c.toValue.sorted c) :
    ∃ args children, Record.Sets (parts child) (Value.sortedMembers v.frame) ⟨none, none, [], none, none⟩
      ⟨some v.id, some v.kind, [], args, children⟩ ∧ args.getD [] = v.args ∧ children.getD [] = v.children := by
  have hargs : decodeArgs (Tree.ofValue (.object v.args)) = .ok v.args := by
    have hvalue := Tree.toValue?_ofValue _ h.args
    rw [Tree.ofValue] at hvalue ⊢
    rw [decodeArgs, hvalue]
  have hlist : (Decoder.list child).Gives (Value.array (v.children.map toValue)).sorted v.children := by
    rw [Value.sorted, Value.sortedItems_eq_map, List.map_map]
    exact Decoder.gives_list hchildren
  have hend : ∃ children, children.getD [] = v.children ∧ ∀ args, Record.Sets (parts child)
      (Value.sortedMembers (if v.children.isEmpty then [] else [("children", .array (v.children.map toValue))]))
      ⟨some v.id, some v.kind, [], args, none⟩ ⟨some v.id, some v.kind, [], args, children⟩ := by
    by_cases hempty : v.children.isEmpty
    · rw [if_pos hempty]
      exact ⟨none, (List.isEmpty_iff.mp hempty).symm, fun args => .nil _⟩
    · rw [if_neg hempty]
      exact ⟨some v.children, rfl, fun args => .field rfl (Field.read_of_gives hlist) (.nil _)⟩
  obtain ⟨children, hgiven, hend⟩ := hend
  have hcontents : ∃ args, args.getD [] = v.args ∧ Record.Sets (parts child) (Value.sortedMembers v.contents)
      ⟨some v.id, some v.kind, [], none, none⟩ ⟨some v.id, some v.kind, [], args, children⟩ := by
    rw [contents]
    by_cases hempty : v.args.isEmpty
    · rw [if_pos hempty]
      exact ⟨none, (List.isEmpty_iff.mp hempty).symm, hend none⟩
    · rw [if_neg hempty]
      exact ⟨some v.args, rfl, .field rfl (Field.read_of_gives (h.args.sorted_eq.symm ▸ hargs)) (hend _)⟩
  obtain ⟨args, hargs, hcontents⟩ := hcontents
  exact ⟨args, children, .field rfl (Field.read_of_gives (Decoder.gives_string v.id))
    (.field rfl (Field.read_of_gives (Decoder.gives_string v.kind)) hcontents), hargs, hgiven⟩

/-- A plain element is read back with its keys in order, if its children are. -/
theorem gives (h : v.Plain) {fuel : Nat} (hchildren : ∀ c ∈ v.children, (decodeFuel fuel).Gives c.toValue.sorted c) :
    (decodeFuel (fuel + 1)).Gives v.toValue.sorted v := by
  obtain ⟨args, children, hsets, hargs, hgiven⟩ := h.sets_frame hchildren
  have hframe : (Value.sortedMembers v.members).filter (fun m => Record.known (parts (decodeFuel fuel)) m.1) =
      Value.sortedMembers v.frame := by
    rw [Value.filter_sortedMembers, h.known_members]
  have hproperties : Members.ofList (Value.sortedMembers v.properties) = v.properties := by
    simpa [Value.sorted] using h.properties.ordered.sorted_eq
  have hrest : rest (Members.ofList (Value.sortedMembers v.members)) = v.properties := by
    rw [rest, Members.filter_ofList (· ∉ Template.reserved), Value.filter_sortedMembers (· ∉ Template.reserved)]
    exact h.rest_members ▸ hproperties
  have hwritten := Record.sets_filter_known_iff.mp (hframe ▸ hsets)
  have hread := gives_object
    (hwritten.perm (independent_parts _) h.sorted_perm.symm ((met_sublist _).nodup h.nodup_sortedMembers))
    ((met_sublist _).nodup (Members.ascending_ofList _).nodup)
  rw [hrest, hproperties, hargs, hgiven] at hread
  rw [toValue_eq, Value.sorted]
  cases v
  exact hread

/-- A child is written less deep than the element. -/
theorem depth_lt (h : v.Plain) {c : VisualElement} (hc : c ∈ v.children) :
    c.toValue.sorted.depth < v.toValue.sorted.depth := by
  have hmember : ("children", .array (v.children.map toValue)) ∈ v.members := by
    have hsome : ¬ v.children.isEmpty := by
      rw [List.isEmpty_iff]
      exact List.ne_nil_of_mem hc
    rw [members, contents, if_neg hsome]
    simp
  have hsorted : ("children", (Value.array (v.children.map toValue)).sorted) ∈ Value.sortedMembers v.members := by
    rw [Value.sortedMembers_eq_map]
    exact List.mem_map_of_mem (f := fun m => (m.1, m.2.sorted)) hmember
  have hobject := Value.depth_lt_of_mem (h.sorted_perm.mem_iff.mpr hsorted)
  have hitem : c.toValue.sorted ∈ Value.sortedItems (v.children.map toValue) := by
    rw [Value.sortedItems_eq_map, List.map_map]
    exact List.mem_map_of_mem (f := Value.sorted ∘ toValue) hc
  have harray := Value.depth_lt_of_mem_items hitem
  rw [toValue_eq v, Value.sorted]
  exact harray.trans hobject

end Plain

/-! ### Reading it back -/

mutual

/-- A plain element, all below it plain, is read back with its keys in order. -/
theorem gives_of_plain (v : VisualElement) {parent : Option String} (h : ∀ f ∈ v.walk parent, f.1.Plain) {fuel : Nat}
    (hfuel : v.toValue.sorted.depth ≤ fuel) : (decodeFuel fuel).Gives v.toValue.sorted v := by
  match v, fuel with
  | v, 0 =>
    rw [toValue_eq, Value.sorted, Value.depth] at hfuel
    exact absurd hfuel (Nat.not_succ_le_zero _)
  | ⟨id, kind, properties, args, children⟩, fuel + 1 =>
    rw [walk, List.forall_mem_cons] at h
    refine h.1.gives (gives_all_of_plain children h.2 fun c hc => ?_)
    exact Nat.le_of_lt_succ (Nat.lt_of_lt_of_le (h.1.depth_lt hc) hfuel)

theorem gives_all_of_plain (vs : List VisualElement) {parent : Option String} (h : ∀ f ∈ walkAll parent vs, f.1.Plain)
    {fuel : Nat} (hfuel : ∀ v ∈ vs, v.toValue.sorted.depth ≤ fuel) :
    ∀ v ∈ vs, (decodeFuel fuel).Gives v.toValue.sorted v := by
  match vs with
  | [] => simp
  | v :: rest =>
    rw [walkAll, List.forall_mem_append] at h
    rw [List.forall_mem_cons] at hfuel ⊢
    exact ⟨gives_of_plain v h.1 hfuel.1, gives_all_of_plain rest h.2 hfuel.2⟩

end

theorem decode_gives {parent : Option String} {vs : List VisualElement} (h : ∀ f ∈ walkAll parent vs, f.1.Plain) :
    ∀ v ∈ vs, decode.Gives v.toValue.sorted v := by
  intro v hv
  rw [Decoder.Gives, decode, Tree.depth_ofValue]
  exact gives_of_plain v (fun f hf => h f (mem_walkAll_iff.mpr ⟨v, hv, hf⟩)) (Nat.le_succ _)

end VisualElement

/-! ### Renderings -/

theorem Diagnostic.gives (d : Diagnostic) : decode.Gives d.toValue d := rfl

theorem Diagnostic.decode_ignoresOrder : decode.IgnoresOrder :=
  Record.ignoresOrder (by simp [fields, Field.required]) (by simp [fields, Field.required]) _

theorem VisualGraph.gives {g : VisualGraph} (h : ∀ f ∈ VisualElement.walkAll none g.children, f.1.Plain) :
    decode.Gives g.toValue.sorted g := by
  have hchildren : (Decoder.list VisualElement.decode).Gives (Value.array (VisualElement.toValues g.children)).sorted
      g.children := by
    rw [VisualElement.toValues_eq_map, Value.sorted, Value.sortedItems_eq_map, List.map_map]
    exact Decoder.gives_list (VisualElement.decode_gives h)
  have hind : Record.Independent fields := by simp [fields, Field.required]
  rw [toValue, decode, Record.gives_sorted_iff hind (by simp)]
  exact Record.gives_of_sets ["id", "type", "children"]
    (.field rfl (Field.read_of_gives (Decoder.gives_string g.id))
      (.field rfl (Field.read_of_gives (Decoder.gives_string g.kind))
        (.field rfl (Field.read_of_gives hchildren) (.nil _))))
    rfl (by decide) (by decide)

theorem Rendering.gives {r : Rendering} (h : ∀ f ∈ VisualElement.walkAll none r.graph.children, f.1.Plain) :
    decode.Gives r.toValue.sorted r := by
  have hind : Record.Independent fields := by simp [fields, Field.required, Field.defaulted]
  have hgraph := VisualGraph.gives h
  have hlist : (Decoder.list Diagnostic.decode).Gives (Value.array (r.diagnostics.map Diagnostic.toValue)).sorted
      r.diagnostics :=
    Diagnostic.decode_ignoresOrder.list _ _ (Decoder.gives_list fun d _ => d.gives)
  rw [toValue]
  cases hempty : r.diagnostics.isEmpty with
  | true =>
    have hnone : r = ⟨r.graph, []⟩ := by rw [← List.isEmpty_iff.mp hempty]
    rw [if_pos rfl, decode, Record.gives_sorted_iff hind (by simp), hnone]
    exact Record.gives_of_sets ["graph"] (.field rfl (Field.read_of_gives hgraph) (.nil _)) rfl (by decide) (by decide)
  | false =>
    rw [if_neg Bool.false_ne_true, decode, Record.gives_sorted_iff hind (by simp)]
    exact Record.gives_of_sets ["graph", "diagnostics"]
      (.field rfl (Field.read_of_gives hgraph) (.field rfl (Field.read_of_gives hlist) (.nil _)))
      rfl (by decide) (by decide)

/-- The properties of an element can be told from its structure: none has the name of a part of it,
and the object that is written has its members and those of the structure, each key once. -/
structure VisualElement.WrittenApart (v : VisualElement) : Prop where
  names : ∀ p ∈ v.properties, p.1 ∉ ["id", "type", "args", "children"]
  written : ∃ ms, v.toValue = .object ms ∧ ms.Perm (v.frame ++ v.properties) ∧ (ms.map Prod.fst).Nodup

theorem VisualElement.Plain.writtenApart {v : VisualElement} (h : v.Plain) : v.WrittenApart where
  names p hp hname := by
    have hsame : ["id", "type", "args", "children"] ⊆ Template.reserved := by decide
    exact h.properties.names p hp (hsame hname)
  written := ⟨v.members, v.toValue_eq, v.members_perm, h.nodup_members⟩

/-- A rendering is read back from its document as it was, whatever names the templates give their properties. -/
theorem Language.rendering_is_read {l : Language} {m : Model} {r : Rendering} (hl : l.Compiled)
    (hm : ∀ e ∈ m.elements, e.data.Ordered) (h : l.render m = .ok r) :
    Rendering.decode.ofValue r.toValue.sorted = .ok r ∧
      ∀ f ∈ VisualElement.walkAll none r.graph.children, f.1.WrittenApart := by
  have hplain := render_plain hl hm h
  exact ⟨Decoder.ofValue_eq_ok_iff.mpr (Rendering.gives hplain), fun f hf => (hplain f hf).writtenApart⟩

/-- A class with attributes, and a node of a type that the language does not have. -/
def Model.ghostly : Model := ⟨"m", [.sample, ⟨"g", "ghost", .origin, none, .object [("title", .string "G")]⟩], []⟩

theorem Language.ghostly_rendering_is_read :
    sample.Compiled ∧ (∀ e ∈ Model.ghostly.elements, e.data.Ordered) ∧ ∃ r, sample.render .ghostly = .ok r ∧
      Rendering.decode.ofValue r.toValue.sorted = .ok r ∧
      ∀ f ∈ VisualElement.walkAll none r.graph.children, f.1.WrittenApart := by
  have hdata : ∀ e ∈ Model.ghostly.elements, e.data.Ordered := by
    have hread : ∀ v : Value, (Tree.ofValue v).toValue? = some v → v.Ordered := fun v hv =>
      Tree.ordered_of_toValue? _ v hv
    exact List.forall_mem_cons.mpr ⟨hread _ rfl, List.forall_mem_singleton.mpr (hread _ rfl)⟩
  obtain ⟨r, hr⟩ : ∃ r, sample.render .ghostly = .ok r := ⟨_, rfl⟩
  exact ⟨compiled_sample, hdata, r, hr, rendering_is_read compiled_sample hdata hr⟩

end DiagramEditor
