import DiagramEditor.Proofs.Wire.Orderly
import DiagramEditor.Proofs.Wire.Tagged

/-!
# Reading a written language

A language document is written with the parts it has and read back as it was, schemas
inside schemas included.
-/

set_option autoImplicit false

namespace DiagramEditor

open Json
open Record.Reads (nameOf)

theorem Decoder.gives_present {part : Option Value} (h : ∀ v ∈ part, v.Present) :
    ∀ v ∈ part, Decoder.value.Gives (id v) v ∧ id v ≠ .null :=
  fun v hv => ⟨Decoder.gives_value (h v hv).ordered, (h v hv).notNull⟩

/-- What is written only where it is there is written under its key. -/
theorem Json.Members.key_of_mem_whenSome {α : Type} {key : String} {toValue : α → Value} {part : Option α}
    {m : String × Value} (hm : m ∈ Members.whenSome key toValue part) : m.1 = key := by
  cases part with
  | none => cases hm
  | some a => rw [List.mem_singleton.mp hm]

/-! ### Schemas -/

theorem Choice.gives (c : Choice) : decode.Gives c.toValue c := by
  obtain ⟨value, title⟩ := c
  cases title <;> rfl

namespace Schema

theorem toMembers_eq_map (properties : List (String × Schema)) :
    toMembers properties = properties.map fun p => (p.1, p.2.toValue) := by
  induction properties with
  | nil => rfl
  | cons p rest ih =>
    obtain ⟨name, s⟩ := p
    rw [toMembers, ih, List.map_cons]

/-- What reading a caption sets. -/
def Draft.withCaption (c : Caption) : Draft → Draft :=
  (c.initial.elim id fun v d => { d with caption.initial := some v }) ∘
    c.label.elim id fun l d => { d with caption.label := some l }

theorem reads_caption (schema : Decoder Schema) (kind : Kind) {c : Caption} (hc : c.Orderly) :
    Record.Reads (fieldsOf schema kind) (Caption.members c) (nameOf "label" c.label ++ nameOf "default" c.initial)
      (Draft.withCaption c) := by
  have hlabel : (fieldsOf schema kind).find? (·.answersTo "label") =
      some (.defaulted "label" (Decoder.option Decoder.string) fun l d => { d with caption.label := l }) := by
    cases kind <;> rfl
  have hinitial : (fieldsOf schema kind).find? (·.answersTo "default") =
      some (.defaulted "default" (Decoder.option Decoder.value) fun v d => { d with caption.initial := v }) := by
    cases kind <;> rfl
  refine .append (.optional "label" _ hlabel rfl (fun _ => rfl) fun l _ => ?_)
    (.optional "default" _ hinitial rfl (fun _ => rfl) (Decoder.gives_present hc)) (by simp)
  exact ⟨Decoder.gives_string l, by simp⟩

theorem withCaption_empty (c : Caption) : Draft.withCaption c .empty = { Draft.empty with caption := c } := by
  obtain ⟨label, initial⟩ := c
  cases label <;> cases initial <;> rfl

theorem key_of_mem_caption {c : Caption} {m : String × Value} (hm : m ∈ Caption.members c) :
    m.1 = "label" ∨ m.1 = "default" := by
  rcases List.mem_append.mp hm with hm | hm
  · exact .inl (Members.key_of_mem_whenSome hm)
  · exact .inr (Members.key_of_mem_whenSome hm)

section Decoding

variable {kind : Kind} {fuel : Nat} {pick : Decoder Kind}

/-- The tag of a schema is picked by its name. -/
def PicksByName (pick : Decoder Kind) : Prop := ∀ name, pick (.string name) = Tagged.named kinds name

/-- A schema is read from its tag and the members behind it. -/
theorem decodeFuel_of_reads {name : String} {more : Members} {names : List String} {set : Draft → Draft} {s : Schema}
    (hpick : pick (.string name) = .ok kind) {c : Caption} (hc : c.Orderly) (hmore : ∀ m ∈ more, m.1 ≠ "type")
    (h : Record.Reads (fieldsOf (decodeFuel fuel (Tagged.byNameOrPlace kinds)) kind) more names set)
    (hnames : ∀ name ∈ names, name ≠ "label" ∧ name ≠ "default")
    (hrequired : ∀ f ∈ fieldsOf (decodeFuel fuel (Tagged.byNameOrPlace kinds)) kind, f.presence = .required →
      f.name ∈ names) (hs : ofDraft kind (set { Draft.empty with caption := c }) = .ok s) :
    (decodeFuel (fuel + 1) pick).Gives (.object (("type", .string name) :: (Caption.members c ++ more))) s := by
  have hreads := (reads_caption (decodeFuel fuel (Tagged.byNameOrPlace kinds)) kind hc).append h (by
    intro name hm hcaption
    simp only [List.mem_append, Record.Reads.mem_nameOf] at hcaption
    rcases hcaption with ⟨rfl, _⟩ | ⟨rfl, _⟩
    · exact (hnames _ hm).1 rfl
    · exact (hnames _ hm).2 rfl)
  have hrecord := Record.gives_of_reads hreads
    (fun f hf hp => List.mem_append_right _ (hrequired f hf hp)) (Function.comp_apply.trans (by rw [withCaption_empty]))
  have htag : ∀ m ∈ Caption.members c ++ more, m.1 ≠ "type" := by
    intro m hm
    rcases List.mem_append.mp hm with hm | hm
    · rcases key_of_mem_caption hm with hkey | hkey <;> simp [hkey]
    · exact hmore m hm
  rw [Decoder.Gives] at hrecord
  simp only [Decoder.Gives, decodeFuel, Tagged.split_ofValue htag hpick, Tagged.fields, hrecord]
  exact hs

/-- A schema that is nothing but its caption. -/
theorem decodeFuel_of_caption {name : String} {s : Schema} (hpick : pick (.string name) = .ok kind)
    {c : Caption} (hc : c.Orderly) (hfields : ∀ schema, fieldsOf schema kind = captionFields)
    (hs : ofDraft kind { Draft.empty with caption := c } = .ok s) :
    (decodeFuel (fuel + 1) pick).Gives (.object (("type", .string name) :: Caption.members c)) s := by
  rw [← List.append_nil (Caption.members c)]
  refine decodeFuel_of_reads hpick hc (by simp) .nil (by simp) ?_ hs
  rw [hfields]
  simp [captionFields, Field.defaulted, Field.make]

/-- Every schema is read back, given fuel for all that stands inside it. Inside a schema, too, the
kinds are picked by name. -/
theorem Orderly.decodeFuel_gives {s : Schema} (hs : s.Orderly) (hpick : PicksByName pick)
    (hfuel : s.toValue.depth ≤ fuel) : (decodeFuel (fuel + 1) pick).Gives s.toValue s := by
  induction hs generalizing fuel pick with
  | text choices oneOf hc =>
    have hchoices : Record.Reads (fieldsOf (decodeFuel fuel (Tagged.byNameOrPlace kinds)) .text)
        (Members.whenSome "enum" Value.ofStrings choices) (nameOf "enum" choices)
        (choices.elim id fun cs d => { d with choices := some cs }) :=
      .optional "enum" (fun cs (d : Draft) => { d with choices := cs }) rfl rfl (fun _ => rfl) fun cs _ =>
        ⟨Decoder.gives_strings cs, by simp [Value.ofStrings]⟩
    have honeOf : Record.Reads (fieldsOf (decodeFuel fuel (Tagged.byNameOrPlace kinds)) .text)
        (Members.whenSome "oneOf" (fun cs => .array (cs.map Choice.toValue)) oneOf) (nameOf "oneOf" oneOf)
        (oneOf.elim id fun cs d => { d with oneOf := some cs }) :=
      .optional "oneOf" (fun cs (d : Draft) => { d with oneOf := cs }) rfl rfl (fun _ => rfl) fun cs _ =>
        ⟨Decoder.gives_list fun c _ => c.gives, by simp⟩
    rw [toValue, List.append_assoc]
    refine decodeFuel_of_reads (hpick "string") hc ?tag (hchoices.append honeOf (by simp)) ?names ?required ?made
    case tag =>
      intro m hm
      rcases List.mem_append.mp hm with hm | hm <;> simp [Members.key_of_mem_whenSome hm]
    case names => simp +contextual [or_imp]
    case required => simp [fieldsOf, captionFields, Field.defaulted, Field.make]
    case made => cases choices <;> cases oneOf <;> rfl
  | enumeration choices hc =>
    refine decodeFuel_of_reads (hpick "enum") hc (by simp)
      (.member "enum" _ rfl rfl (fun _ => rfl) (Decoder.gives_strings choices)) ?names ?required rfl
    case names => simp
    case required => simp [fieldsOf, captionFields, Field.defaulted, Field.required, Field.make]
  | number hc => exact decodeFuel_of_caption (hpick "number") hc (fun _ => rfl) rfl
  | integer hc => exact decodeFuel_of_caption (hpick "integer") hc (fun _ => rfl) rfl
  | boolean hc => exact decodeFuel_of_caption (hpick "boolean") hc (fun _ => rfl) rfl
  | @array c items hc hitems ih =>
    have hdepth : items.toValue.depth < fuel := by
      refine Nat.lt_of_lt_of_le (Value.depth_lt_of_mem (m := ("items", items.toValue)) ?_) hfuel
      simp
    -- the items are read with the fuel that is left
    obtain ⟨fuel, rfl⟩ := Nat.exists_eq_add_one_of_ne_zero (Nat.ne_zero_of_lt hdepth)
    refine decodeFuel_of_reads (hpick "array") hc (by simp) (.member "items" _ rfl rfl (fun _ => rfl) ?items) (by simp)
      ?required rfl
    case items => exact ih (fun _ => rfl) (Nat.le_of_lt_succ hdepth)
    case required => simp [fieldsOf, captionFields, Field.defaulted, Field.required, Field.make]
  | @object c properties hc hn hproperties ih =>
    have hdepth : (Value.object (toMembers properties)).depth < fuel := by
      refine Nat.lt_of_lt_of_le (Value.depth_lt_of_mem (m := ("properties", .object (toMembers properties))) ?_) hfuel
      simp
    -- each property stands in an object of its own inside this one, so the fuel left is enough
    obtain ⟨fuel, rfl⟩ := Nat.exists_eq_add_one_of_ne_zero (Nat.ne_zero_of_lt hdepth)
    rw [toMembers_eq_map] at hdepth
    have hgives : ∀ p ∈ properties,
        (decodeFuel (fuel + 1) (Tagged.byNameOrPlace kinds)).Gives p.2.toValue p.2 := fun p hp => by
      have hmem : (p.1, p.2.toValue) ∈ properties.map fun p => (p.1, p.2.toValue) := List.mem_map_of_mem hp
      exact ih p hp (fun _ => rfl) (Nat.le_of_lt_succ (Nat.lt_trans (Value.depth_lt_of_mem hmem) hdepth))
    rw [toValue, toMembers_eq_map]
    refine decodeFuel_of_reads (hpick "object") hc (by simp)
      (.member "properties" _ rfl rfl (fun _ => rfl) (Decoder.gives_table hgives hn)) (by simp) ?required rfl
    case required => simp [fieldsOf, captionFields, Field.defaulted, Field.make]

end Decoding

/-- A schema is read back. -/
theorem Orderly.gives {s : Schema} (hs : s.Orderly) : decode.Gives s.toValue s := by
  have hread : (decodeFuel ((Tree.ofValue s.toValue).depth + 1) (Tagged.byName kinds)).Gives s.toValue s :=
    hs.decodeFuel_gives (fun _ => rfl) (Nat.le_of_eq (Tree.depth_ofValue _).symm)
  exact hread

theorem toValue_ne_null (s : Schema) : s.toValue ≠ .null := by
  cases s <;> simp [toValue]

end Schema

/-! ### Types and languages -/

/-- Constraints are written only where there are some. -/
theorem TypeDocument.reads_constraints {d : TypeDocument} (hd : d.Orderly) :
    Record.Reads fields (if d.constraints.isEmpty then [] else [("constraints", .array d.constraints)])
      (nameOf "constraints" d.constraints.head?)
      (d.constraints.head?.elim id fun _ e => { e with constraints := d.constraints }) := by
  have hlist : (Decoder.list Decoder.value).Gives (.array (d.constraints.map id)) d.constraints :=
    Decoder.gives_list fun v hv => Decoder.gives_value (hd.constraints v hv)
  rw [List.map_id] at hlist
  cases hc : d.constraints with
  | nil => exact .nil
  | cons v vs =>
    rw [hc] at hlist
    exact .member "constraints" (fun vs (e : TypeDocument) => { e with constraints := vs }) rfl rfl (fun _ => rfl)
      hlist

theorem TypeDocument.Orderly.gives {d : TypeDocument} (hd : d.Orderly) : decode.Gives d.toValue d := by
  have hlabel : Record.Reads fields [("label", .string d.label)] ["label"] fun e => { e with label := d.label } :=
    .member "label" (fun l (e : TypeDocument) => { e with label := l }) rfl rfl (fun _ => rfl)
      (Decoder.gives_string d.label)
  have htemplate : Record.Reads fields (Members.whenSome "visualTemplate" id d.visualTemplate)
      (nameOf "visualTemplate" d.visualTemplate)
      (d.visualTemplate.elim id fun v e => { e with visualTemplate := some v }) :=
    .optional "visualTemplate" (fun v (e : TypeDocument) => { e with visualTemplate := v }) rfl rfl (fun _ => rfl)
      (Decoder.gives_present hd.visualTemplate)
  have hschema : Record.Reads fields (Members.whenSome "attributeSchema" Schema.toValue d.schema)
      (nameOf "attributeSchema" d.schema) (d.schema.elim id fun s e => { e with schema := some s }) :=
    .optional "attributeSchema" (fun s (e : TypeDocument) => { e with schema := s }) rfl rfl (fun _ => rfl)
      fun s hs => ⟨(hd.schema s hs).gives, s.toValue_ne_null⟩
  have hdefault : Record.Reads fields (Members.whenSome "defaultModel" id d.defaultModel)
      (nameOf "defaultModel" d.defaultModel) (d.defaultModel.elim id fun v e => { e with defaultModel := some v }) :=
    .optional "defaultModel" (fun v (e : TypeDocument) => { e with defaultModel := v }) rfl rfl (fun _ => rfl)
      (Decoder.gives_present hd.defaultModel)
  have hpreview : Record.Reads fields (Members.whenSome "preview" .string d.preview) (nameOf "preview" d.preview)
      (d.preview.elim id fun p e => { e with preview := some p }) :=
    .optional "preview" (fun p (e : TypeDocument) => { e with preview := p }) rfl rfl (fun _ => rfl)
      fun p _ => ⟨Decoder.gives_string p, by simp⟩
  have hparts := (((htemplate.append hschema (by simp)).append hdefault (by simp +contextual)).append
    (reads_constraints hd) (by simp)).append hpreview (by simp)
  have hreads := hlabel.append hparts (by simp +contextual [or_imp])
  refine Record.gives_of_reads hreads (by simp [fields, Field.defaulted, Field.orNamed, Field.make]) ?_
  obtain ⟨label, visualTemplate, schema, defaultModel, constraints, preview⟩ := d
  cases visualTemplate <;> cases schema <;> cases defaultModel <;> cases constraints <;> cases preview <;> rfl

theorem LanguageDocument.Orderly.gives {d : LanguageDocument} (hd : d.Orderly) : decode.Gives d.toValue d := by
  have hid : Record.Reads fields [("id", .string d.id)] ["id"] fun e => { e with id := d.id } :=
    .member "id" (fun v (e : LanguageDocument) => { e with id := v }) rfl rfl (fun _ => rfl) (Decoder.gives_string d.id)
  have hname : Record.Reads fields [("name", .string d.name)] ["name"] fun e => { e with name := d.name } :=
    .member "name" (fun v (e : LanguageDocument) => { e with name := v }) rfl rfl (fun _ => rfl)
      (Decoder.gives_string d.name)
  have hversion : Record.Reads fields [("version", Value.ofNat d.version)] ["version"]
      fun e => { e with version := d.version } :=
    .member "version" (fun v (e : LanguageDocument) => { e with version := v }) rfl rfl (fun _ => rfl)
      (Decoder.gives_word32 hd.version)
  have hnodes : Record.Reads fields [("nodes", typesValue d.nodes)] ["nodes"] fun e => { e with nodes := d.nodes } :=
    .member "nodes" (fun v (e : LanguageDocument) => { e with nodes := v }) rfl rfl (fun _ => rfl)
      (Decoder.gives_table (fun entry hm => (hd.nodes entry hm).gives) hd.nodeTags)
  have hedges : Record.Reads fields [("edges", typesValue d.edges)] ["edges"] fun e => { e with edges := d.edges } :=
    .member "edges" (fun v (e : LanguageDocument) => { e with edges := v }) rfl rfl (fun _ => rfl)
      (Decoder.gives_table (fun entry hm => (hd.edges entry hm).gives) hd.edgeTags)
  have hreads := (((hid.append hname (by simp)).append hversion (by simp)).append hnodes (by simp)).append hedges
    (by simp)
  exact Record.gives_of_reads hreads (by simp [fields, Field.defaulted, Field.required, Field.make]) rfl

/-- The text of a document is read as that document. -/
theorem LanguageDocument.Orderly.ofText_compact {d : LanguageDocument} (hd : d.Orderly)
    (hdepth : d.toValue.depth ≤ Tree.maxDepth) (hnumbers : d.toValue.Legible) :
    decode.ofText d.toValue.compact = .ok d := by
  have hread : decode (Tree.ofValue d.toValue) = .ok d := hd.gives
  rw [Decoder.ofText, Tree.ofText_compact hnumbers]
  simp only [Tree.limit_ofValue _ hdepth, hread]
  rfl

end DiagramEditor
