import DiagramEditor.Proofs.BoundText
import DiagramEditor.Proofs.Json.Ordered
import DiagramEditor.Proofs.Path.Reading
import DiagramEditor.Template.Basic

/-!
# Compiled templates

Every path of a compiled template was read from a text, so it can be printed and read
again. No property of an element template comes twice.
-/

set_option autoImplicit false

namespace DiagramEditor

open Json

/-! ### Placeholders -/

theorem Path.readable_of_read {source : String} {p : Path} (h : read source = .ok p) : p.Readable := by
  rw [read] at h
  split at h
  · rename_i q hq
    exact Except.ok.inj h ▸ readable_of_parse hq
  · cases h

namespace BoundText

variable {source : String}

theorem Reads.readable {cs : List Char} {ps : List TextPart} (h : Reads cs ps) {p : Path} (hp : .binding p ∈ ps) :
    p.Readable := by
  induction h with
  | plain => exact absurd hp (not_binding_mem_literals _ p)
  | placeholder _ _ hparse _ ih =>
    rcases List.mem_append.mp hp with hp | hp
    · exact absurd hp (not_binding_mem_literals _ p)
    · rcases List.mem_cons.mp hp with heq | hp
      · exact TextPart.binding.inj heq ▸ Path.readable_of_parse hparse
      · exact ih hp

theorem Collects.primary_mem {ps : List TextPart} {text : BoundText} (h : Collects ps text) :
    .binding text.primary ∈ ps := by
  cases h <;> simp [primary]

theorem readable_of_parse {text : BoundText} (h : parse source = .ok (some text)) : text.primary.Readable := by
  obtain ⟨ps, hreads, hps⟩ := parse_eq_ok_iff.mp h
  exact hreads.readable (ofParts?_eq_some_iff.mp hps).primary_mem

end BoundText

/-! ### Element templates -/

structure Shape.Sound (shape : Shape) : Prop where
  names : (shape.properties.map Prod.fst).Nodup
  args : shape.args.Ascending
  sources : ∀ name text, (name, .bound text) ∈ shape.properties → text.primary.Readable
  /-- No property goes by the name of a part of the structure. -/
  plain : ∀ p ∈ shape.properties, p.1 ∉ Template.reserved
  literals : ∀ name v, (name, .literal v) ∈ shape.properties → v.Ordered
  argValues : ∀ m ∈ shape.args, m.2.Ordered

inductive Template.Sound : Template → Prop
  | element {shape : Shape} {children : List Template} :
    shape.Sound → (∀ t ∈ children, t.Sound) → Sound (.element shape children)
  | iteration {iterable : Path} {iterand : String} {body : Template} :
    iterable.Readable → body.Sound → Sound (.iteration iterable iterand body)
  | decision {condition : Condition} {yes : Template} {no : Option Template} :
    yes.Sound → (∀ t ∈ no, t.Sound) → Sound (.decision condition yes no)

structure RootTemplate.Sound (t : RootTemplate) : Prop where
  shape : t.shape.Sound
  children : ∀ child ∈ t.children, child.Sound

namespace Template

variable {members : Members}

theorem readable_of_compileProperty {v : Value} {text : BoundText} (h : compileProperty v = .ok (.bound text)) :
    text.primary.Readable := by
  unfold compileProperty at h
  split at h
  · split at h
    · cases h
    · rename_i found hfound
      obtain rfl := Property.bound.inj (Except.ok.inj h)
      exact BoundText.readable_of_parse hfound
    · cases h
  · cases h

theorem eq_of_compileProperty {v w : Value} (h : compileProperty v = .ok (.literal w)) : v = w := by
  unfold compileProperty at h
  split at h
  · split at h
    · cases h
    · cases h
    · exact Property.literal.inj (Except.ok.inj h)
  · exact Property.literal.inj (Except.ok.inj h)

/-- The properties of an element are among the members of its template, and none is a part of the structure. -/
theorem compileProperties_spec {ps : List (String × Property)} (h : compileProperties members = .ok ps) :
    (ps.map Prod.fst).Sublist (members.map Prod.fst) ∧
      (∀ name text, (name, .bound text) ∈ ps → text.primary.Readable) ∧
        (∀ p ∈ ps, p.1 ∉ reserved) ∧ ∀ name v, (name, .literal v) ∈ ps → (name, v) ∈ members := by
  induction members generalizing ps with
  | nil =>
    obtain rfl := Except.ok.inj h
    exact ⟨List.Sublist.refl _, by simp, by simp, by simp⟩
  | cons m rest ih =>
    obtain ⟨key, v⟩ := m
    rw [compileProperties] at h
    split at h
    · obtain ⟨hsub, hread, hplain, hliteral⟩ := ih h
      exact ⟨hsub.cons key, hread, hplain, fun name w hm => List.mem_cons_of_mem _ (hliteral name w hm)⟩
    · rename_i hkey
      split at h
      · cases h
      · rename_i p hp
        split at h
        · cases h
        · rename_i more hmore
          obtain rfl := Except.ok.inj h
          obtain ⟨hsub, hread, hplain, hliteral⟩ := ih hmore
          refine ⟨hsub.cons_cons key, fun name text hm => ?_, ?_, fun name w hm => ?_⟩
          · rcases List.mem_cons.mp hm with heq | hm
            · obtain ⟨rfl, rfl⟩ := Prod.mk.inj heq
              exact readable_of_compileProperty hp
            · exact hread name text hm
          · rw [List.forall_mem_cons]
            exact ⟨by simpa using hkey, hplain⟩
          · rcases List.mem_cons.mp hm with heq | hm
            · obtain ⟨rfl, rfl⟩ := Prod.mk.inj heq
              rw [eq_of_compileProperty hp]
              exact List.mem_cons_self
            · exact List.mem_cons_of_mem _ (hliteral name w hm)

theorem ordered_of_get? (h : (Value.object members).Ordered) {key : String} {v : Value}
    (hv : members.get? key = some v) : v.Ordered := by
  cases h with
  | object _ hmembers => exact hmembers _ (Members.mem_of_get? hv)

theorem ordered_of_compileArgs {args : Members} (hm : (Value.object members).Ordered)
    (h : compileArgs members = .ok args) : (Value.object args).Ordered := by
  have hnil : (Value.object []).Ordered := .object List.Pairwise.nil (by simp)
  unfold compileArgs at h
  split at h
  · exact Except.ok.inj h ▸ hnil
  · exact Except.ok.inj h ▸ hnil
  · rename_i found hfound
    exact Except.ok.inj h ▸ ordered_of_get? hm hfound
  · cases h

theorem sound_of_compileShape {kind : String} {shape : Shape} (hm : (Value.object members).Ordered)
    (h : compileShape kind members = .ok shape) : shape.Sound := by
  rw [compileShape] at h
  split at h
  · cases h
  · rename_i properties hproperties
    split at h
    · cases h
    · rename_i args hargs
      obtain rfl := Except.ok.inj h
      obtain ⟨hsub, hread, hplain, hliteral⟩ := compileProperties_spec hproperties
      have hordered := ordered_of_compileArgs hm hargs
      cases hm with
      | object hkeys hvalues =>
        cases hordered with
        | object hargKeys hargValues =>
          exact ⟨hkeys.nodup.sublist hsub, hargKeys, hread, hplain,
            fun name v hv => hvalues (name, v) (hliteral name v hv), hargValues⟩

theorem readable_of_compileIterable {p : Path} (h : compileIterable members = .ok p) : p.Readable := by
  unfold compileIterable at h
  split at h
  · split at h
    · cases h
    · rename_i q hq
      obtain rfl := Except.ok.inj h
      exact BoundText.readable_of_parse hq
    · cases h
    · split at h
      · cases h
      · rename_i q hq
        obtain rfl := Except.ok.inj h
        exact Path.readable_of_read hq
  · cases h

theorem readable_of_compileIteration {p : Path} {iterand : String}
    (h : compileIteration members = .ok (p, iterand)) : p.Readable := by
  rw [compileIteration] at h
  split at h
  · cases h
  · rename_i iterable hiterable
    split at h
    · cases h
    · obtain ⟨rfl, rfl⟩ := Prod.mk.inj (Except.ok.inj h)
      exact readable_of_compileIterable hiterable

/-! ### One layer of a template -/

/-- What a decision does otherwise; null is as good as nothing. -/
inductive Otherwise (members : Members) : Option Template → Prop
  | nothing (helse : ∀ v, members.get? "else" = some v → v = .null) : Otherwise members none
  | branch {no : Value} {t : Template} (helse : members.get? "else" = some no) (hnull : no ≠ .null)
      (hno : compile no = .ok t) : Otherwise members (some t)

/-- What an element holds; null is as good as nothing. -/
inductive Contents (members : Members) : List Template → Prop
  | nothing (hchildren : ∀ v, members.get? "children" = some v → v = .null) : Contents members []
  | children {items : List Value} {ts : List Template} (hchildren : members.get? "children" = some (.array items))
      (hitems : compileAll items = .ok ts) : Contents members ts

/-- What the members of a template are compiled to. -/
inductive Layer (members : Members) : Template → Prop
  | iteration {found : Path × String} {body : Value} {t : Template}
      (htype : members.get? "type" = some (.string "iteration")) (hparts : compileIteration members = .ok found)
      (htemplate : members.get? "template" = some body) (hbody : compile body = .ok t) :
      Layer members (.iteration found.1 found.2 t)
  | decision {condition yes : Value} {t : Template} {no : Option Template}
      (htype : members.get? "type" = some (.string "decision"))
      (hcondition : members.get? "condition" = some condition) (hthen : members.get? "then" = some yes)
      (hyes : compile yes = .ok t) (hno : Otherwise members no) :
      Layer members (.decision (Condition.compile condition) t no)
  | element {kind : String} {shape : Shape} {ts : List Template} (htype : members.get? "type" = some (.string kind))
      (hkind : kind ≠ "iteration" ∧ kind ≠ "decision") (hshape : compileShape kind members = .ok shape)
      (hcontents : Contents members ts) : Layer members (.element shape ts)

theorem decideOn_eq_ok_iff {condition : Value} {yes : Except TemplateFault Template} {no : Option Template}
    {t : Template} : decideOn condition yes no = .ok t ↔
      ∃ u, yes = .ok u ∧ t = .decision (Condition.compile condition) u no := by
  cases yes <;> simp [decideOn, eq_comm]

theorem Layer.of_compile {v : Value} {t : Template} (h : compile v = .ok t) :
    ∃ members : Members, v = .object members ∧ Layer members t := by
  rw [compile.eq_def] at h
  split at h
  · rename_i members
    refine ⟨members, rfl, ?_⟩
    split at h
    · rename_i kind htype
      split at h
      · -- an iteration
        rename_i hkind
        subst hkind
        split at h
        · cases h
        · rename_i hparts
          split at h
          · cases h
          · rename_i hbody
            split at h
            · cases h
            · rename_i hcompiled
              exact Except.ok.inj h ▸ .iteration htype hparts hbody hcompiled
      · split at h
        · -- a decision
          rename_i hkind
          subst hkind
          split at h
          · cases h
          · rename_i hcondition
            split at h
            · cases h
            · rename_i hyes
              split at h
              · rename_i hnone
                obtain ⟨u, hu, rfl⟩ := decideOn_eq_ok_iff.mp h
                exact .decision htype hcondition hyes hu (.nothing (by simp [hnone]))
              · rename_i hnull
                obtain ⟨u, hu, rfl⟩ := decideOn_eq_ok_iff.mp h
                exact .decision htype hcondition hyes hu (.nothing (by simp [hnull]))
              · rename_i hnull hno
                split at h
                · cases h
                · rename_i hcompiled
                  obtain ⟨u, hu, rfl⟩ := decideOn_eq_ok_iff.mp h
                  exact .decision htype hcondition hyes hu (.branch hno (fun heq => hnull heq) hcompiled)
        · -- an element
          rename_i hiteration hdecision
          split at h
          · cases h
          · rename_i hshape
            split at h
            · rename_i hnone
              exact Except.ok.inj h ▸ .element htype ⟨hiteration, hdecision⟩ hshape (.nothing (by simp [hnone]))
            · rename_i hnull
              exact Except.ok.inj h ▸ .element htype ⟨hiteration, hdecision⟩ hshape (.nothing (by simp [hnull]))
            · rename_i hitems
              split at h
              · cases h
              · rename_i hcompiled
                exact Except.ok.inj h ▸ .element htype ⟨hiteration, hdecision⟩ hshape (.children hitems hcompiled)
            · cases h
    · cases h
  · cases h

theorem Layer.compile {t : Template} (h : Layer members t) : compile (.object members) = .ok t := by
  rw [Template.compile.eq_def]
  cases h with
  | iteration htype hparts htemplate hbody =>
    simp only [htype, hparts, if_true]
    split
    · rename_i hnone
      cases htemplate.symm.trans hnone
    · rename_i hfound
      obtain rfl := Option.some.inj (htemplate.symm.trans hfound)
      rw [hbody]
  | decision htype hcondition hthen hyes hno =>
    simp only [htype, hcondition, show ("decision" = "iteration") = False by decide, if_true, if_false]
    split
    · rename_i hnone
      cases hthen.symm.trans hnone
    · rename_i hfound
      obtain rfl := Option.some.inj (hthen.symm.trans hfound)
      rw [hyes]
      split
      · rename_i hnone
        cases hno with
        | nothing => rfl
        | branch helse => cases helse.symm.trans hnone
      · rename_i hnone
        cases hno with
        | nothing => rfl
        | branch helse hnull => exact absurd (Option.some.inj (helse.symm.trans hnone)) hnull
      · rename_i hnull hother
        cases hno with
        | nothing helse => exact (hnull (helse _ hother)).elim
        | branch helse _ hno =>
          obtain rfl := Option.some.inj (helse.symm.trans hother)
          rw [hno]
          rfl
  | element htype hkind hshape hcontents =>
    simp only [htype, hkind.1, hkind.2, hshape, if_false]
    cases hcontents with
    | nothing hchildren =>
      split
      · rfl
      · rfl
      · rename_i hfound
        cases hchildren _ hfound
      · rename_i hnull _ hfound
        exact (hnull (hchildren _ hfound)).elim
    | children hchildren hitems =>
      split
      · rename_i hnone
        cases hchildren.symm.trans hnone
      · rename_i hnull
        cases hchildren.symm.trans hnull
      · rename_i hfound
        obtain rfl := Value.array.inj (Option.some.inj (hchildren.symm.trans hfound))
        rw [hitems]
      · rename_i hother hfound
        exact (hother _ (Option.some.inj (hfound.symm.trans hchildren))).elim

/-! ### Soundness -/

/-- Templates are among the members of a value and among the items of those that are arrays. -/
theorem induction {P : Value → Prop} (other : ∀ v : Value, (∀ members, v ≠ .object members) → P v)
    (object : ∀ members : Members, (∀ key v, members.get? key = some v → P v) →
      (∀ key items, members.get? key = some (.array items) → ∀ item ∈ items, P item) → P (.object members))
    (v : Value) : P v := by
  have hboth : P v ∧ ∀ items, v = .array items → ∀ item ∈ items, P item := by
    induction v using Value.induction with
    | array items ih =>
      refine ⟨other _ nofun, fun items' heq item hitem => ?_⟩
      obtain rfl := Value.array.inj heq
      exact (ih item hitem).1
    | object members ih =>
      refine ⟨object members (fun key v hv => ?_) (fun key items hitems => ?_), nofun⟩
      · exact (ih _ (Members.mem_of_get? hv)).1
      · exact (ih _ (Members.mem_of_get? hitems)).2 items rfl
    | _ => exact ⟨other _ nofun, nofun⟩
  exact hboth.1

theorem mem_of_compileAll {vs : List Value} {ts : List Template} (h : compileAll vs = .ok ts) :
    ∀ t ∈ ts, ∃ v ∈ vs, Template.compile v = .ok t := by
  induction vs generalizing ts with
  | nil =>
    rw [compileAll] at h
    obtain rfl := Except.ok.inj h
    simp
  | cons v rest ih =>
    rw [compileAll] at h
    split at h
    · cases h
    · rename_i t ht
      split at h
      · cases h
      · rename_i more hmore
        obtain rfl := Except.ok.inj h
        intro u hu
        rcases List.mem_cons.mp hu with rfl | hu
        · exact ⟨v, List.mem_cons_self, ht⟩
        · obtain ⟨w, hw, hcompiled⟩ := ih hmore u hu
          exact ⟨w, List.mem_cons_of_mem _ hw, hcompiled⟩

theorem sound_of_compile (v : Value) (t : Template) (hv : v.Ordered) (h : compile v = .ok t) : t.Sound := by
  induction v using Template.induction generalizing t with
  | other v hother =>
    obtain ⟨members, rfl, _⟩ := Layer.of_compile h
    exact absurd rfl (hother members)
  | object members hmembers hitems =>
    obtain ⟨_, heq, hlayer⟩ := Layer.of_compile h
    obtain rfl := Value.object.inj heq
    have hsound : ∀ {key v t}, members.get? key = some v → Template.compile v = .ok t → t.Sound := fun hget hcompiled =>
      hmembers _ _ hget _ (ordered_of_get? hv hget) hcompiled
    cases hlayer with
    | iteration _ hparts htemplate hbody =>
      exact .iteration (readable_of_compileIteration hparts) (hsound htemplate hbody)
    | decision _ _ hthen hyes hno =>
      refine .decision (hsound hthen hyes) fun u hu => ?_
      cases hno with
      | nothing => cases hu
      | branch helse _ hno => exact Option.some.inj hu ▸ hsound helse hno
    | element _ _ hshape hcontents =>
      refine .element (sound_of_compileShape hv hshape) fun u hu => ?_
      cases hcontents with
      | nothing => cases hu
      | children hchildren hcompiled =>
        obtain ⟨item, hitem, hu⟩ := mem_of_compileAll hcompiled u hu
        cases ordered_of_get? hv hchildren with
        | array hall => exact hitems _ _ hchildren item hitem _ (hall item hitem) hu

end Template

end DiagramEditor
