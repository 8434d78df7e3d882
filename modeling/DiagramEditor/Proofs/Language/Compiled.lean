import DiagramEditor.Proofs.Diagram.Visuals
import DiagramEditor.Proofs.Template.Sound

/-!
# Compiled languages

A language is compiled from a document, and a document that was read is ordered. Every
element is drawn by a sound template, whether or not the language knows its type.
-/

set_option autoImplicit false

namespace DiagramEditor

open Json

/-! ### Records -/

section Records

variable {α β : Type} {P : α → Prop} {fields : List (Field α)}

/-- Whatever is read of the field, what it sets leaves a property as it is. -/
def Field.Keeps (P : α → Prop) (f : Field α) : Prop := ∀ t set, f.read t = .ok set → ∀ a, P a → P (set a)

theorem Field.keeps_make {name : String} {presence : Presence} {d : Decoder β} {set : β → α → α}
    (h : ∀ t b, d t = .ok b → ∀ a, P a → P (set b a)) : (Field.make name presence d set).Keeps P := by
  intro t change hread
  cases hb : d t with
  | error e => simp [make, hb, Except.map] at hread
  | ok b =>
    simp only [make, hb, Except.map, Except.ok.injEq] at hread
    exact hread ▸ h t b hb

theorem Field.Keeps.orNamed {f : Field α} (h : f.Keeps P) (other : String) : (f.orNamed other).Keeps P := h

theorem Record.of_readMembers (hfields : ∀ f ∈ fields, f.Keeps P) {ms : List (Option String × Tree)}
    {seen : List String} {a : α} {out : List String × α} (ha : P a) (h : readMembers fields ms seen a = .ok out) :
    P out.2 := by
  induction ms generalizing seen a with
  | nil => exact Except.ok.inj h ▸ ha
  | cons m rest ih =>
    obtain ⟨key, t⟩ := m
    cases key with
    | none => cases h
    | some key =>
      rw [readMembers] at h
      split at h
      · split at h
        · exact ih ha h
        · cases h
      · rename_i f hf
        split at h
        · cases h
        · split at h
          · cases h
          · rename_i set hset
            exact ih (hfields f (List.mem_of_find?_eq_some hf) t set hset a ha) h

theorem Record.of_readItems (hfields : ∀ f ∈ fields, f.Keeps P) {ts : List Tree} {a out : α} (ha : P a)
    (h : readItems fields ts a = .ok out) : P out := by
  induction fields generalizing ts a with
  | nil =>
    cases ts with
    | nil => exact Except.ok.inj h ▸ ha
    | cons t ts => cases h
  | cons f fields ih =>
    have hrest : ∀ f ∈ fields, f.Keeps P := fun f hf => hfields f (List.mem_cons_of_mem _ hf)
    cases ts with
    | nil =>
      rw [readItems] at h
      split at h
      · exact ih hrest ha h
      · cases h
    | cons t ts =>
      rw [readItems] at h
      split at h
      · cases h
      · rename_i set hset
        exact ih hrest (hfields f (by simp) t set hset a ha) h

/-- What every field keeps holds of the record that was read. -/
theorem Record.of_decode {start a : α} {t : Tree} (hfields : ∀ f ∈ fields, f.Keeps P) (hstart : P start)
    (h : decode fields start t = .ok a) : P a := by
  unfold decode at h
  split at h
  · split at h
    · cases h
    · rename_i seen b hb
      split at h
      · cases h
      · exact Except.ok.inj h ▸ of_readMembers hfields hstart hb
  · exact of_readItems hfields hstart h
  · cases h

theorem Decoder.of_members {d : Decoder α} (hd : ∀ t a, d t = .ok a → P a) {ms : List (Option String × Tree)}
    {table out : Table String α} (htable : ∀ entry ∈ table, P entry.2) (h : members d ms table = .ok out) :
    ∀ entry ∈ out, P entry.2 := by
  induction ms generalizing table with
  | nil => exact Except.ok.inj h ▸ htable
  | cons m rest ih =>
    obtain ⟨key, t⟩ := m
    cases key with
    | none => cases h
    | some key =>
      cases ha : d t with
      | error e => simp [members, ha, bind, Except.bind] at h
      | ok a =>
        simp only [members, ha, bind, Except.bind] at h
        refine ih (fun entry hm => ?_) h
        rcases Table.mem_of_mem_put hm with rfl | hm
        · exact hd t a ha
        · exact htable entry hm

theorem Decoder.of_table {d : Decoder α} (hd : ∀ t a, d t = .ok a → P a) {t : Tree} {out : Table String α}
    (h : table d t = .ok out) : ∀ entry ∈ out, P entry.2 := by
  unfold table at h
  split at h
  · exact of_members hd (by simp) h
  · cases h

end Records

/-! ### Documents -/

/-- The visual template, if there is one, is ordered. -/
def TypeDocument.Ordered (d : TypeDocument) : Prop := ∀ v ∈ d.visualTemplate, v.Ordered

structure LanguageDocument.Ordered (d : LanguageDocument) : Prop where
  nodes : ∀ entry ∈ d.nodes, entry.2.Ordered
  edges : ∀ entry ∈ d.edges, entry.2.Ordered

theorem Decoder.ordered_of_option {t : Tree} {found : Option Value} (h : Decoder.option Decoder.value t = .ok found) :
    ∀ v ∈ found, v.Ordered := by
  unfold Decoder.option at h
  split at h
  · obtain rfl := Except.ok.inj h
    simp
  · cases hv : Decoder.value t with
    | error e => simp [hv, Except.map] at h
    | ok v =>
      simp only [hv, Except.map, Except.ok.injEq] at h
      intro w hw
      rw [← h] at hw
      exact Option.some.inj hw ▸ Decoder.ordered_of_value hv

theorem TypeDocument.ordered_of_decode {t : Tree} {d : TypeDocument} (h : decode t = .ok d) : d.Ordered := by
  refine Record.of_decode ?_ (by simp [Ordered, empty]) h
  simp only [fields, List.forall_mem_cons]
  refine ⟨?label, ?template, ?schema, ?defaults, ?constraints, ?preview, by simp⟩
  case template =>
    apply Field.Keeps.orNamed
    exact Field.keeps_make fun t found hfound d hd => Decoder.ordered_of_option hfound
  case schema | defaults =>
    apply Field.Keeps.orNamed
    exact Field.keeps_make fun t v _ d hd => hd
  all_goals exact Field.keeps_make fun t v _ d hd => hd

theorem LanguageDocument.ordered_of_decode {t : Tree} {d : LanguageDocument} (h : decode t = .ok d) : d.Ordered := by
  have htypes : ∀ t types, Decoder.table TypeDocument.decode t = .ok types → ∀ entry ∈ types, entry.2.Ordered :=
    fun t types => Decoder.of_table fun t d => TypeDocument.ordered_of_decode
  refine Record.of_decode ?_ ⟨by simp, by simp⟩ h
  simp only [fields, List.forall_mem_cons]
  refine ⟨?id, ?name, ?version, ?nodes, ?edges, by simp⟩
  case nodes => exact Field.keeps_make fun t types h d hd => ⟨htypes t types h, hd.edges⟩
  case edges => exact Field.keeps_make fun t types h d hd => ⟨hd.nodes, htypes t types h⟩
  all_goals exact Field.keeps_make fun t v _ d hd => ⟨hd.nodes, hd.edges⟩

/-! ### Templates -/

/-- The language was compiled from an ordered document. -/
def Language.Compiled (l : Language) : Prop := ∃ d : LanguageDocument, d.Ordered ∧ Language.compile d = .ok l

theorem Language.compiled_of_decode {t : Tree} {d : LanguageDocument} {l : Language}
    (hd : LanguageDocument.decode t = .ok d) (h : compile d = .ok l) : l.Compiled :=
  ⟨d, LanguageDocument.ordered_of_decode hd, h⟩

theorem Template.sound_of_compileRoot {v : Value} {t : RootTemplate} (hv : v.Ordered)
    (h : compileRoot v = .ok t) : t.Sound := by
  rw [compileRoot] at h
  split at h
  · cases h
  · rename_i shape children hcompile
    obtain rfl := Except.ok.inj h
    cases sound_of_compile v _ hv hcompile with
    | element hshape hchildren => exact ⟨hshape, hchildren⟩
  · cases h
  · cases h

theorem Shape.sound_bare (kind : String) : (Shape.mk kind [] []).Sound where
  names := List.nodup_nil
  args := List.Pairwise.nil
  sources := by simp
  plain := by simp
  literals := by simp
  argValues := by simp

theorem RootTemplate.sound_bare (kind : String) : (bare kind).Sound := ⟨Shape.sound_bare kind, by simp [bare]⟩

theorem RootTemplate.sound_labelled (kind text : String) : (labelled kind text).Sound := by
  refine ⟨Shape.sound_bare kind, fun child hm => ?_⟩
  obtain rfl := List.mem_singleton.mp hm
  exact .element
    { names := List.nodup_singleton _
      args := List.Pairwise.nil
      sources := by simp
      plain := by simp [Template.reserved]
      literals := by simp [Value.Ordered.string]
      argValues := by simp } (by simp)

namespace ElementType

theorem sound_of_compile {kind : ElementKind} {tag : TypeTag} {d : TypeDocument} {t : ElementType} (hd : d.Ordered)
    (h : compile kind tag d = .ok t) : t.template.Sound := by
  rw [compile] at h
  split at h
  · cases h
  · rename_i template htemplate
    obtain rfl := Except.ok.inj h
    rw [compileTemplate] at htemplate
    split at htemplate
    · obtain rfl := Except.ok.inj htemplate
      exact RootTemplate.sound_labelled _ _
    · rename_i v hv
      split at htemplate
      · cases htemplate
      · rename_i root hroot
        obtain rfl := Except.ok.inj htemplate
        exact Template.sound_of_compileRoot (hd v hv) hroot

theorem sound_of_compileAll {kind : ElementKind} {ds : List (TypeTag × TypeDocument)} {ts : List ElementType}
    (hds : ∀ entry ∈ ds, entry.2.Ordered) (h : compileAll kind ds = .ok ts) : ∀ t ∈ ts, t.template.Sound := by
  induction ds generalizing ts with
  | nil =>
    obtain rfl := Except.ok.inj h
    simp
  | cons entry ds ih =>
    obtain ⟨tag, d⟩ := entry
    rw [compileAll] at h
    split at h
    · cases h
    · rename_i t ht
      split at h
      · cases h
      · rename_i more hmore
        obtain rfl := Except.ok.inj h
        intro u hu
        rcases List.mem_cons.mp hu with rfl | hu
        · exact sound_of_compile (hds (tag, d) (by simp)) ht
        · exact ih (fun entry hm => hds entry (List.mem_cons_of_mem _ hm)) hmore u hu

end ElementType

namespace Language

variable {l : Language}

theorem Compiled.sound_types (h : l.Compiled) (kind : ElementKind) : ∀ t ∈ l.types kind, t.template.Sound := by
  obtain ⟨d, hd, hcompile⟩ := h
  rw [compile] at hcompile
  split at hcompile
  · cases hcompile
  · rename_i nodes hnodes
    split at hcompile
    · cases hcompile
    · rename_i edges hedges
      obtain rfl := Except.ok.inj hcompile
      cases kind with
      | node => exact ElementType.sound_of_compileAll hd.nodes hnodes
      | edge => exact ElementType.sound_of_compileAll hd.edges hedges

theorem Compiled.sound_templateFor (h : l.Compiled) (e : Element) : (l.templateFor e).1.Sound := by
  rw [templateFor]
  split
  · exact RootTemplate.sound_bare _
  · split
    · rename_i t ht
      exact h.sound_types e.kind t (List.mem_of_find?_eq_some ht)
    · exact RootTemplate.sound_labelled _ _

end Language

/-! ### A language -/

/-- Classes with a title and groups of attributes. -/
def LanguageDocument.sample : LanguageDocument :=
  let label : Value := .object
    [("args", .object [("textBind", .string "title")]), ("text", .string "$\x7battribute.name\x7d"),
     ("type", .string "label")]
  let attributes : Value := .object
    [("iterable", .string "$\x7bgroup.attributes\x7d"), ("iterand", .string "attribute"), ("template", label),
     ("type", .string "iteration")]
  let groups : Value := .object
    [("iterable", .string "groups"), ("iterand", .string "group"), ("template", attributes),
     ("type", .string "iteration")]
  let root : Value := .object
    [("children", .array [groups]), ("text", .string "$\x7btitle\x7d"), ("type", .string "class")]
  ⟨"uml", "", 1, [("class", { TypeDocument.empty with visualTemplate := some root })], []⟩

def Language.sample : Language :=
  let label : Template := .element
    ⟨"label", [("text", .bound (.single [.field "attribute", .field "name"]))], [("textBind", .string "title")]⟩ []
  let attributes : Template := .iteration [.field "group", .field "attributes"] "attribute" label
  let root : RootTemplate :=
    ⟨⟨"class", [("text", .bound (.single [.field "title"]))], []⟩, [.iteration [.field "groups"] "group" attributes]⟩
  ⟨.sample, [⟨"class", .node, "", root, none, none, [], none⟩], []⟩

theorem Language.compiled_sample : Language.sample.Compiled := by
  have hread : LanguageDocument.decode (Tree.ofValue LanguageDocument.sample.toValue) = .ok .sample := rfl
  have hiterands : Template.isIterand "group" = true ∧ Template.isIterand "attribute" = true := ⟨rfl, rfl⟩
  have hcompile : compile .sample = .ok .sample := by
    simp only [compile, LanguageDocument.sample, ElementType.compileAll, ElementType.compile,
      ElementType.compileTemplate, Template.compileRoot, Template.compile, Template.compileAll,
      Template.compileIteration, Template.compileIterand, Members.get?, String.reduceEq, ↓reduceIte, ↓dreduceIte,
      hiterands]
    cbv
  exact compiled_of_decode hread hcompile

end DiagramEditor
