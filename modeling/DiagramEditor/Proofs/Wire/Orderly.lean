import DiagramEditor.Proofs.Language.Compiled
import DiagramEditor.Proofs.Wire.Records

/-!
# Documents that were read

What documents hold beyond their parts: in a language no type and no property is there
twice, in a model no id, and what is kept as a value has its keys in order. In a document
`null` is how absence is written, so no optional part is `null`. Whatever was read is
orderly.
-/

set_option autoImplicit false

namespace DiagramEditor

open Json

/-- A value that is there, with its keys in order. -/
structure Json.Value.Present (v : Value) : Prop where
  ordered : v.Ordered
  notNull : v ≠ .null

/-! ### Decoders -/

namespace Decoder

variable {α : Type} {P : α → Prop} {d : Decoder α} {t : Tree}

theorem nodup_of_members {ms : List (Option String × Tree)} {found out : Table String α}
    (hfound : (found.map Prod.fst).Nodup) (h : members d ms found = .ok out) : (out.map Prod.fst).Nodup := by
  induction ms generalizing found with
  | nil => exact Except.ok.inj h ▸ hfound
  | cons m rest ih =>
    obtain ⟨key, t⟩ := m
    cases key with
    | none => cases h
    | some key =>
      cases ha : d t with
      | error e => simp [members, ha, bind, Except.bind] at h
      | ok a =>
        simp only [members, ha, bind, Except.bind] at h
        exact ih (Table.nodup_put key a hfound) h

/-- No key is there twice in a table that was read. -/
theorem nodup_of_table {out : Table String α} (h : table d t = .ok out) : (out.map Prod.fst).Nodup := by
  unfold table at h
  split at h
  · have hnone : (([] : Table String α).map Prod.fst).Nodup := List.nodup_nil
    exact nodup_of_members hnone h
  · cases h

theorem of_items (hd : ∀ t a, d t = .ok a → P a) {ts : List Tree} {out : List α} (h : items d ts = .ok out) :
    ∀ a ∈ out, P a := by
  induction ts generalizing out with
  | nil =>
    obtain rfl := Except.ok.inj h
    simp
  | cons t ts ih =>
    cases ha : d t with
    | error e => simp [items, ha, bind, Except.bind] at h
    | ok a =>
      cases hrest : items d ts with
      | error e => simp [items, ha, hrest, bind, Except.bind] at h
      | ok more =>
        simp only [items, ha, hrest, bind, Except.bind, pure, Except.pure, Except.ok.injEq] at h
        rw [← h, List.forall_mem_cons]
        exact ⟨hd t a ha, ih hrest⟩

theorem of_list (hd : ∀ t a, d t = .ok a → P a) {out : List α} (h : list d t = .ok out) : ∀ a ∈ out, P a := by
  unfold list at h
  split at h
  · exact of_items hd h
  · cases h

theorem nodup_of_distinct {id : α → String} {seen : List String} {as : List α}
    (h : distinct id seen as = .ok ()) : (as.map id).Nodup ∧ ∀ a ∈ as, id a ∉ seen := by
  induction as generalizing seen with
  | nil => exact ⟨List.nodup_nil, by simp⟩
  | cons a rest ih =>
    rw [distinct] at h
    split at h
    · cases h
    · rename_i hnew
      obtain ⟨hn, hrest⟩ := ih h
      rw [List.map_cons, List.nodup_cons, List.forall_mem_cons]
      refine ⟨⟨fun hm => ?_, hn⟩, by simpa using hnew, fun b hb => List.not_mem_of_not_mem_cons (hrest b hb)⟩
      obtain ⟨b, hb, heq⟩ := List.mem_map.mp hm
      exact hrest b hb (heq ▸ List.mem_cons_self)

/-- Elements that were read have different ids. -/
theorem of_elements (hd : ∀ t a, d t = .ok a → P a) {id : α → String} {out : List α}
    (h : elements id d t = .ok out) : (out.map id).Nodup ∧ ∀ a ∈ out, P a := by
  cases hlist : list d t with
  | error e => simp [elements, hlist, bind, Except.bind] at h
  | ok as =>
    cases hdistinct : distinct id [] as with
    | error e => simp [elements, hlist, hdistinct, bind, Except.bind] at h
    | ok u =>
      simp only [elements, hlist, hdistinct, bind, Except.bind, pure, Except.pure, Except.ok.injEq] at h
      exact h ▸ ⟨(nodup_of_distinct hdistinct).1, of_list hd hlist⟩

theorem of_option (hd : ∀ t a, t ≠ .null → d t = .ok a → P a) {found : Option α} (h : option d t = .ok found) :
    ∀ a ∈ found, P a := by
  unfold option at h
  split at h
  · obtain rfl := Except.ok.inj h
    simp
  · rename_i hnull
    cases ha : d t with
    | error e => simp [ha, Except.map] at h
    | ok a =>
      simp only [ha, Except.map, Except.ok.injEq] at h
      intro b hb
      rw [← h] at hb
      exact Option.some.inj hb ▸ hd t a hnull ha

theorem notNull_of_value {v : Value} (ht : t ≠ .null) (h : value t = .ok v) : v ≠ .null := by
  rw [value] at h
  split at h
  · rename_i w hw
    obtain rfl := Except.ok.inj h
    rintro rfl
    cases t <;> simp [Tree.toValue?] at hw ht
  · cases h

theorem present_of_option {found : Option Value} (h : option value t = .ok found) : ∀ v ∈ found, v.Present :=
  of_option (fun _ _ hnull hv => ⟨ordered_of_value hv, notNull_of_value hnull hv⟩) h

theorem lt_of_word32 {n : Nat} (h : word32 t = .ok n) : n < Nat.pow 2 32 := by
  unfold word32 at h
  split at h
  · split at h
    · rename_i hword
      obtain rfl := Except.ok.inj h
      exact (Int.toNat_lt hword.1).mpr hword.2
    · cases h
  · cases h

end Decoder

/-! ### Schemas -/

def Caption.Orderly (c : Caption) : Prop := ∀ v ∈ c.initial, v.Present

/-- No property comes twice, and what data starts from is ordered. -/
inductive Schema.Orderly : Schema → Prop
  | text {c : Caption} (choices : Option (List String)) (oneOf : Option (List Choice)) :
    c.Orderly → Orderly (.text c choices oneOf)
  | enumeration {c : Caption} (choices : List String) : c.Orderly → Orderly (.enumeration c choices)
  | number {c : Caption} : c.Orderly → Orderly (.number c)
  | integer {c : Caption} : c.Orderly → Orderly (.integer c)
  | boolean {c : Caption} : c.Orderly → Orderly (.boolean c)
  | array {c : Caption} {items : Schema} : c.Orderly → Orderly items → Orderly (.array c items)
  | object {c : Caption} {properties : List (String × Schema)} :
    c.Orderly → (properties.map Prod.fst).Nodup → (∀ p ∈ properties, Orderly p.2) → Orderly (.object c properties)

namespace Schema

structure Draft.Orderly (d : Draft) : Prop where
  caption : d.caption.Orderly
  items : ∀ s ∈ d.items, s.Orderly
  names : (d.properties.map Prod.fst).Nodup
  properties : ∀ p ∈ d.properties, p.2.Orderly

theorem Draft.orderly_empty : Draft.empty.Orderly where
  caption := by simp [Caption.Orderly, empty]
  items := by simp [empty]
  names := List.nodup_nil
  properties := by simp [empty]

theorem keeps_captionFields : ∀ f ∈ captionFields, f.Keeps Draft.Orderly := by
  simp only [captionFields, List.forall_mem_cons]
  refine ⟨?label, ?initial, by simp⟩
  case label => exact Field.keeps_make fun _ _ _ d hd => ⟨hd.caption, hd.items, hd.names, hd.properties⟩
  case initial =>
    exact Field.keeps_make fun _ _ hv d hd => ⟨Decoder.present_of_option hv, hd.items, hd.names, hd.properties⟩

theorem keeps_fieldsOf {schema : Decoder Schema} (hschema : ∀ t s, schema t = .ok s → s.Orderly) (kind : Kind) :
    ∀ f ∈ fieldsOf schema kind, f.Keeps Draft.Orderly := by
  cases kind with
  | number | integer | boolean => exact keeps_captionFields
  | text =>
    rw [fieldsOf, List.forall_mem_append]
    refine ⟨keeps_captionFields, ?_⟩
    simp only [List.forall_mem_cons]
    refine ⟨?choices, ?oneOf, by simp⟩
    all_goals exact Field.keeps_make fun _ _ _ d hd => ⟨hd.caption, hd.items, hd.names, hd.properties⟩
  | enumeration =>
    rw [fieldsOf, List.forall_mem_append, List.forall_mem_singleton]
    exact ⟨keeps_captionFields, Field.keeps_make fun _ _ _ d hd => ⟨hd.caption, hd.items, hd.names, hd.properties⟩⟩
  | array =>
    rw [fieldsOf, List.forall_mem_append, List.forall_mem_singleton]
    refine ⟨keeps_captionFields, Field.keeps_make fun t s hs d hd => ⟨hd.caption, ?_, hd.names, hd.properties⟩⟩
    exact fun _ hm => Option.some.inj hm ▸ hschema t s hs
  | object =>
    rw [fieldsOf, List.forall_mem_append, List.forall_mem_singleton]
    exact ⟨keeps_captionFields, Field.keeps_make fun _ _ hps d hd =>
      ⟨hd.caption, hd.items, Decoder.nodup_of_table hps, Decoder.of_table hschema hps⟩⟩

theorem orderly_of_ofDraft {kind : Kind} {d : Draft} {s : Schema} (hd : d.Orderly) (h : ofDraft kind d = .ok s) :
    s.Orderly := by
  cases kind with
  | text => exact Except.ok.inj h ▸ .text _ _ hd.caption
  | enumeration => exact Except.ok.inj h ▸ .enumeration _ hd.caption
  | number => exact Except.ok.inj h ▸ .number hd.caption
  | integer => exact Except.ok.inj h ▸ .integer hd.caption
  | boolean => exact Except.ok.inj h ▸ .boolean hd.caption
  | array =>
    rw [ofDraft] at h
    split at h
    · rename_i items hitems
      exact Except.ok.inj h ▸ .array hd.caption (hd.items items hitems)
    · cases h
  | object => exact Except.ok.inj h ▸ .object hd.caption hd.names hd.properties

theorem orderly_of_decodeFuel {fuel : Nat} {pick : Decoder Kind} {t : Tree} {s : Schema}
    (h : decodeFuel fuel pick t = .ok s) : s.Orderly := by
  induction fuel generalizing pick t s with
  | zero => cases h
  | succ fuel ih =>
    rw [decodeFuel] at h
    split at h
    · cases h
    · rename_i kind content _
      dsimp only at h
      split at h
      · cases h
      · rename_i d hd
        rw [Tagged.fields] at hd
        split at hd
        · cases hd
        · rename_i e he
          obtain rfl := Except.ok.inj hd
          exact orderly_of_ofDraft (Record.of_decode (keeps_fieldsOf (fun _ _ => ih) kind) Draft.orderly_empty he) h

theorem orderly_of_decode {t : Tree} {s : Schema} (h : decode t = .ok s) : s.Orderly := orderly_of_decodeFuel h

end Schema

/-! ### Types and languages -/

/-- What is kept as a value is there and in order, and so is the schema. -/
structure TypeDocument.Orderly (d : TypeDocument) : Prop where
  visualTemplate : ∀ v ∈ d.visualTemplate, v.Present
  schema : ∀ s ∈ d.schema, s.Orderly
  defaultModel : ∀ v ∈ d.defaultModel, v.Present
  constraints : ∀ v ∈ d.constraints, v.Ordered

/-- No type is there twice, and the version is a word. -/
structure LanguageDocument.Orderly (d : LanguageDocument) : Prop where
  version : d.version < Nat.pow 2 32
  nodeTags : (d.nodes.map Prod.fst).Nodup
  edgeTags : (d.edges.map Prod.fst).Nodup
  nodes : ∀ entry ∈ d.nodes, entry.2.Orderly
  edges : ∀ entry ∈ d.edges, entry.2.Orderly

theorem TypeDocument.orderly_of_decode {t : Tree} {d : TypeDocument} (h : decode t = .ok d) : d.Orderly := by
  refine Record.of_decode ?_ ⟨by simp [empty], by simp [empty], by simp [empty], by simp [empty]⟩ h
  simp only [fields, List.forall_mem_cons]
  refine ⟨?label, ?template, ?schema, ?defaults, ?constraints, ?preview, by simp⟩
  case template =>
    apply Field.Keeps.orNamed
    exact Field.keeps_make fun _ _ hv d hd =>
      ⟨Decoder.present_of_option hv, hd.schema, hd.defaultModel, hd.constraints⟩
  case schema =>
    apply Field.Keeps.orNamed
    exact Field.keeps_make fun _ _ hs d hd =>
      ⟨hd.visualTemplate, Decoder.of_option (fun _ _ _ => Schema.orderly_of_decode) hs, hd.defaultModel, hd.constraints⟩
  case defaults =>
    apply Field.Keeps.orNamed
    exact Field.keeps_make fun _ _ hv d hd =>
      ⟨hd.visualTemplate, hd.schema, Decoder.present_of_option hv, hd.constraints⟩
  case constraints =>
    exact Field.keeps_make fun _ _ hvs d hd =>
      ⟨hd.visualTemplate, hd.schema, hd.defaultModel, Decoder.of_list (fun _ _ => Decoder.ordered_of_value) hvs⟩
  case label | preview =>
    exact Field.keeps_make fun _ _ _ d hd => ⟨hd.visualTemplate, hd.schema, hd.defaultModel, hd.constraints⟩

/-- Every document that was read is orderly. -/
theorem LanguageDocument.orderly_of_decode {t : Tree} {d : LanguageDocument} (h : decode t = .ok d) : d.Orderly := by
  have htypes : ∀ t types, Decoder.table TypeDocument.decode t = .ok types → ∀ entry ∈ types, entry.2.Orderly :=
    fun _ _ => Decoder.of_table fun _ _ => TypeDocument.orderly_of_decode
  refine Record.of_decode ?_ ⟨Nat.one_lt_pow (by decide) (by decide), by simp, by simp, by simp, by simp⟩ h
  simp only [fields, List.forall_mem_cons]
  refine ⟨?id, ?name, ?version, ?nodes, ?edges, by simp⟩
  case version =>
    exact Field.keeps_make fun _ _ hn d hd =>
      ⟨Decoder.lt_of_word32 hn, hd.nodeTags, hd.edgeTags, hd.nodes, hd.edges⟩
  case nodes =>
    exact Field.keeps_make fun t types h d hd =>
      ⟨hd.version, Decoder.nodup_of_table h, hd.edgeTags, htypes t types h, hd.edges⟩
  case edges =>
    exact Field.keeps_make fun t types h d hd =>
      ⟨hd.version, hd.nodeTags, Decoder.nodup_of_table h, hd.nodes, htypes t types h⟩
  case id | name =>
    exact Field.keeps_make fun _ _ _ d hd => ⟨hd.version, hd.nodeTags, hd.edgeTags, hd.nodes, hd.edges⟩

/-! ### Models -/

theorem Node.ordered_of_decode {t : Tree} {n : Node} (h : decode t = .ok n) : n.data.Ordered := by
  refine Record.of_decode (P := fun n => n.data.Ordered) ?_ (.object List.Pairwise.nil (by simp)) h
  simp only [fields, List.forall_mem_cons]
  refine ⟨?id, ?tag, ?position, ?size, ?data, by simp⟩
  case data =>
    apply Field.Keeps.orNamed
    exact Field.keeps_make fun _ _ hv _ _ => Decoder.ordered_of_value hv
  all_goals exact Field.keeps_make fun _ _ _ _ hn => hn

theorem Edge.ordered_of_decode {t : Tree} {e : Edge} (h : decode t = .ok e) : e.data.Ordered := by
  refine Record.of_decode (P := fun e => e.data.Ordered) ?_ (.object List.Pairwise.nil (by simp)) h
  simp only [fields, List.forall_mem_cons]
  refine ⟨?id, ?tag, ?source, ?target, ?routing, ?data, by simp⟩
  case data =>
    apply Field.Keeps.orNamed
    exact Field.keeps_make fun _ _ hv _ _ => Decoder.ordered_of_value hv
  all_goals exact Field.keeps_make fun _ _ _ _ he => he

/-- Every model that was read is orderly. -/
theorem Model.orderly_of_decode {t : Tree} {m : Model} (h : decode t = .ok m) : m.Orderly := by
  have hempty : (empty "").Orderly := ⟨List.nodup_nil, List.nodup_nil, by simp [empty], by simp [empty]⟩
  refine Record.of_decode ?_ hempty h
  simp only [fields, List.forall_mem_cons]
  refine ⟨?id, ?nodes, ?edges, by simp⟩
  case id => exact Field.keeps_make fun _ _ _ m hm => ⟨hm.nodes, hm.edges, hm.nodeData, hm.edgeData⟩
  case nodes =>
    refine Field.keeps_make fun _ _ hns m hm => ?_
    obtain ⟨hids, hdata⟩ := Decoder.of_elements (fun _ _ => Node.ordered_of_decode) hns
    exact ⟨hids, hm.edges, hdata, hm.edgeData⟩
  case edges =>
    refine Field.keeps_make fun _ _ hes m hm => ?_
    obtain ⟨hids, hdata⟩ := Decoder.of_elements (fun _ _ => Edge.ordered_of_decode) hes
    exact ⟨hm.nodes, hids, hm.nodeData, hdata⟩

end DiagramEditor
