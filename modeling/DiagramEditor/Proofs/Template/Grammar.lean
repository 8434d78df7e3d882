import DiagramEditor.EditError
import DiagramEditor.Proofs.Template.Sound

/-!
# What is a template

A value is a template or it is not, and that is told by its members alone: those of an
iteration, of a decision and of an element have their own rules, and in each the parts
that are templates are so all the way down. Compiling a value succeeds just when it is a
template. What stands for the condition of a decision plays no part in it.
-/

set_option autoImplicit false

namespace DiagramEditor

open Json

namespace Template

/-- One placeholder and nothing else, or a path on its own. -/
def IterableText (source : String) : Prop :=
  (∃ p, BoundText.Reads source.toList [.binding p]) ∨
    ¬ BoundText.opening <:+: source.toList ∧ ∃ p, Path.Spells true (Text.trim source.toList) p

/-- A name in which nothing could be taken for a path or a placeholder. -/
def IterandName (name : String) : Prop :=
  name ≠ "" ∧ ∀ c ∈ name.toList, c ∉ ['.', '[', ']', '$', '\x7b', '\x7d']

/-- The members that could be properties are properties: in a text every placeholder is closed and holds a path. -/
def PropertyTexts (members : Members) : Prop :=
  ∀ name source, (name, .string source) ∈ members → name ∉ reserved → ∃ parts, BoundText.Reads source.toList parts

/-- The templates. -/
inductive Compilable : Value → Prop
  | iteration {members : Members} {source iterand : String} {body : Value}
      (htype : members.get? "type" = some (.string "iteration"))
      (hiterable : members.get? "iterable" = some (.string source)) (hsource : IterableText source)
      (hiterand : members.get? "iterand" = some (.string iterand)) (hname : IterandName iterand)
      (htemplate : members.get? "template" = some body) (hbody : Compilable body) : Compilable (.object members)
  | decision {members : Members} {condition yes : Value}
      (htype : members.get? "type" = some (.string "decision"))
      (hcondition : members.get? "condition" = some condition)
      (hthen : members.get? "then" = some yes) (hyes : Compilable yes)
      (helse : ∀ no, members.get? "else" = some no → no ≠ .null → Compilable no) : Compilable (.object members)
  | element {members : Members} {kind : String}
      (htype : members.get? "type" = some (.string kind)) (hkind : kind ≠ "iteration" ∧ kind ≠ "decision")
      (hproperties : PropertyTexts members)
      (hargs : ∀ found, members.get? "args" = some found → found ≠ .null → ∃ args, found = .object args)
      (hchildren : ∀ found, members.get? "children" = some found → found ≠ .null → ∃ items, found = .array items)
      (hitems : ∀ items, members.get? "children" = some (.array items) → ∀ item ∈ items, Compilable item) :
      Compilable (.object members)

/-- The template of a whole element. -/
def Rooted (v : Value) : Prop :=
  Compilable v ∧ ∃ (members : Members) (kind : String), v = .object members ∧
    members.get? "type" = some (.string kind) ∧ kind ≠ "iteration" ∧ kind ≠ "decision"

variable {members : Members}

/-! ### The parts of a template -/

theorem compileProperty_ok_iff (v : Value) :
    (∃ p, compileProperty v = .ok p) ↔ ∀ source, v = .string source → ∃ parts, BoundText.Reads source.toList parts := by
  cases v with
  | string source =>
    have hok : (∃ p, compileProperty (.string source) = .ok p) ↔ ∃ found, BoundText.parse source = .ok found := by
      rw [compileProperty]
      cases BoundText.parse source with
      | error e => simp
      | ok found => cases found <;> simp
    rw [hok]
    simp [BoundText.parse_eq_ok_iff]
  | _ => simp [compileProperty]

theorem compileProperties_ok_iff : (∃ ps, compileProperties members = .ok ps) ↔ PropertyTexts members := by
  induction members with
  | nil => simp [compileProperties, PropertyTexts]
  | cons m rest ih =>
    obtain ⟨name, v⟩ := m
    have hcons : PropertyTexts ((name, v) :: rest) ↔
        (name ∉ reserved → ∀ source, v = .string source → ∃ parts, BoundText.Reads source.toList parts) ∧
          PropertyTexts rest := by
      simp only [PropertyTexts, List.mem_cons, Prod.mk.injEq, or_imp, forall_and]
      refine and_congr_left fun _ => ⟨fun h hname source hv => ?_, fun h _ source hm hname => ?_⟩
      · exact h name source ⟨rfl, hv.symm⟩ hname
      · exact h (hm.1 ▸ hname) source hm.2.symm
    rw [hcons, ← ih, ← compileProperty_ok_iff, compileProperties]
    by_cases hname : name ∈ reserved
    · simp [hname]
    · rw [if_neg (by simpa using hname)]
      cases compileProperty v with
      | error e => simp [hname]
      | ok p => cases compileProperties rest <;> simp

theorem compileArgs_ok_iff : (∃ args, compileArgs members = .ok args) ↔
    ∀ found, members.get? "args" = some found → found ≠ .null → ∃ args, found = .object args := by
  rw [compileArgs]
  cases members.get? "args" with
  | none => simp
  | some found => cases found <;> simp

theorem compileShape_ok_iff {kind : String} : (∃ shape, compileShape kind members = .ok shape) ↔
    (∃ ps, compileProperties members = .ok ps) ∧ ∃ args, compileArgs members = .ok args := by
  rw [compileShape]
  cases compileProperties members with
  | error e => simp
  | ok ps => cases compileArgs members <;> simp

theorem iterableText_iff {source : String} : IterableText source ↔
    (∃ p, BoundText.parse source = .ok (some (.single p))) ∨
      BoundText.parse source = .ok none ∧ ∃ p, Path.parse source = .ok p := by
  have hsingle : ∀ p, BoundText.parse source = .ok (some (.single p)) ↔ BoundText.Reads source.toList [.binding p] := by
    intro p
    rw [BoundText.parse_eq_ok_iff]
    refine ⟨fun ⟨parts, hreads, hparts⟩ => ?_, fun hreads => ⟨_, hreads, rfl⟩⟩
    obtain rfl : [.binding p] = parts := (BoundText.ofParts?_eq_some_iff.mp hparts).parts_eq
    exact hreads
  simp only [IterableText, hsingle, BoundText.parse_eq_none_iff, Path.parse_eq_ok_iff]

theorem compileIterable_ok_iff : (∃ p, compileIterable members = .ok p) ↔
    ∃ source, members.get? "iterable" = some (.string source) ∧ IterableText source := by
  rw [compileIterable]
  cases members.get? "iterable" with
  | none => simp
  | some found =>
    cases found with
    | string source =>
      simp only [Option.some.injEq, Value.string.injEq, exists_eq_left', iterableText_iff]
      cases BoundText.parse source with
      | error e => simp
      | ok found =>
        cases found with
        | none =>
          rw [Path.read_eq]
          cases Path.parse source <;> simp [Except.mapError]
        | some text => cases text <;> simp
    | _ => simp

theorem isIterand_iff {name : String} : isIterand name = true ↔ IterandName name := by
  simp only [isIterand, IterandName, Bool.and_eq_true, List.all_eq_true, Bool.not_eq_true', String.isEmpty_eq_false_iff,
    List.contains_eq_mem, decide_eq_false_iff_not]

theorem compileIterand_ok_iff : (∃ name, compileIterand members = .ok name) ↔
    ∃ name, members.get? "iterand" = some (.string name) ∧ IterandName name := by
  rw [compileIterand]
  cases members.get? "iterand" with
  | none => simp
  | some found =>
    cases found with
    | string name =>
      simp only [Option.some.injEq, Value.string.injEq, exists_eq_left', ← isIterand_iff]
      cases isIterand name <;> simp
    | _ => simp

theorem compileIteration_ok_iff : (∃ found, compileIteration members = .ok found) ↔
    (∃ p, compileIterable members = .ok p) ∧ ∃ name, compileIterand members = .ok name := by
  rw [compileIteration]
  cases compileIterable members with
  | error e => simp
  | ok p => cases compileIterand members <;> simp

/-! ### Whole templates -/

theorem compileAll_ok_iff {items : List Value} :
    (∃ ts, compileAll items = .ok ts) ↔ ∀ item ∈ items, ∃ t, compile item = .ok t := by
  induction items with
  | nil => simp [compileAll]
  | cons v rest ih =>
    rw [compileAll, List.forall_mem_cons, ← ih]
    cases compile v with
    | error e => simp
    | ok t => cases compileAll rest <;> simp

theorem exists_otherwise (h : ∀ no, members.get? "else" = some no → no ≠ .null → ∃ t, compile no = .ok t) :
    ∃ no, Otherwise members no := by
  by_cases hnull : ∀ v, members.get? "else" = some v → v = .null
  · exact ⟨none, .nothing hnull⟩
  · simp only [not_forall] at hnull
    obtain ⟨no, helse, hne⟩ := hnull
    obtain ⟨t, ht⟩ := h no helse hne
    exact ⟨some t, .branch helse hne ht⟩

theorem exists_contents
    (h : ∀ found, members.get? "children" = some found → found ≠ .null → ∃ items, found = .array items)
    (hitems : ∀ items, members.get? "children" = some (.array items) → ∀ item ∈ items, ∃ t, compile item = .ok t) :
    ∃ ts, Contents members ts := by
  by_cases hnull : ∀ v, members.get? "children" = some v → v = .null
  · exact ⟨[], .nothing hnull⟩
  · simp only [not_forall] at hnull
    obtain ⟨found, hchildren, hne⟩ := hnull
    obtain ⟨items, rfl⟩ := h found hchildren hne
    obtain ⟨ts, hts⟩ := compileAll_ok_iff.mpr (hitems items hchildren)
    exact ⟨ts, .children hchildren hts⟩

theorem not_compilable_of_not_object {v : Value} (h : ∀ members, v ≠ .object members) : ¬ Compilable v := by
  rintro (_ | _ | _) <;> exact h _ rfl

/-- At every depth. -/
theorem compile_ok_iff (v : Value) : (∃ t, compile v = .ok t) ↔ Compilable v := by
  induction v using Template.induction with
  | other v hother =>
    refine iff_of_false (fun ⟨t, ht⟩ => ?_) (not_compilable_of_not_object hother)
    obtain ⟨members, rfl, _⟩ := Layer.of_compile ht
    exact hother members rfl
  | object members hmembers hitems =>
    constructor
    · rintro ⟨t, ht⟩
      obtain ⟨_, heq, hlayer⟩ := Layer.of_compile ht
      obtain rfl := Value.object.inj heq
      cases hlayer with
      | iteration htype hparts htemplate hbody =>
        obtain ⟨hiterable, hiterand⟩ := compileIteration_ok_iff.mp ⟨_, hparts⟩
        obtain ⟨source, hsource, htext⟩ := compileIterable_ok_iff.mp hiterable
        obtain ⟨name, hname, hplain⟩ := compileIterand_ok_iff.mp hiterand
        exact .iteration htype hsource htext hname hplain htemplate ((hmembers _ _ htemplate).mp ⟨_, hbody⟩)
      | decision htype hcondition hthen hyes hno =>
        refine .decision htype hcondition hthen ((hmembers _ _ hthen).mp ⟨_, hyes⟩) fun no helse hne => ?_
        cases hno with
        | nothing hnull => exact absurd (hnull no helse) hne
        | branch helse' _ hno =>
          obtain rfl := Option.some.inj (helse'.symm.trans helse)
          exact (hmembers _ _ helse).mp ⟨_, hno⟩
      | element htype hkind hshape hcontents =>
        obtain ⟨hproperties, hargs⟩ := compileShape_ok_iff.mp ⟨_, hshape⟩
        refine .element htype hkind (compileProperties_ok_iff.mp hproperties) (compileArgs_ok_iff.mp hargs) ?_ ?_
        · intro found hfound hne
          cases hcontents with
          | nothing hnull => exact absurd (hnull found hfound) hne
          | children hchildren => exact ⟨_, Option.some.inj (hfound.symm.trans hchildren)⟩
        · intro items hfound item hitem
          cases hcontents with
          | nothing hnull => cases hnull _ hfound
          | children hchildren hcompiled =>
            obtain rfl := Value.array.inj (Option.some.inj (hchildren.symm.trans hfound))
            exact (hitems _ _ hfound item hitem).mp (compileAll_ok_iff.mp ⟨_, hcompiled⟩ item hitem)
    · intro h
      cases h with
      | iteration htype hiterable hsource hiterand hname htemplate hbody =>
        obtain ⟨found, hparts⟩ := compileIteration_ok_iff.mpr
          ⟨compileIterable_ok_iff.mpr ⟨_, hiterable, hsource⟩, compileIterand_ok_iff.mpr ⟨_, hiterand, hname⟩⟩
        obtain ⟨t, ht⟩ := (hmembers _ _ htemplate).mpr hbody
        exact ⟨_, Layer.compile (.iteration htype hparts htemplate ht)⟩
      | decision htype hcondition hthen hyes helse =>
        obtain ⟨t, ht⟩ := (hmembers _ _ hthen).mpr hyes
        obtain ⟨no, hno⟩ := exists_otherwise fun no hget hne => (hmembers _ _ hget).mpr (helse no hget hne)
        exact ⟨_, Layer.compile (.decision htype hcondition hthen ht hno)⟩
      | element htype hkind hproperties hargs hchildren hcompilable =>
        obtain ⟨shape, hshape⟩ := compileShape_ok_iff.mpr
          ⟨compileProperties_ok_iff.mpr hproperties, compileArgs_ok_iff.mpr hargs⟩
        obtain ⟨ts, hcontents⟩ := exists_contents hchildren fun items hget item hitem =>
          (hitems _ _ hget item hitem).mpr (hcompilable items hget item hitem)
        exact ⟨_, Layer.compile (.element htype hkind hshape hcontents)⟩

/-! ### Templates of whole elements -/

theorem kind_unique {kind other : String} (h : members.get? "type" = some (.string kind))
    (h' : members.get? "type" = some (.string other)) : kind = other :=
  Value.string.inj (Option.some.inj (h.symm.trans h'))

theorem compileRoot_ok_iff (v : Value) : (∃ t, compileRoot v = .ok t) ↔ Rooted v := by
  have hroot : (∃ t, compileRoot v = .ok t) ↔ ∃ shape children, compile v = .ok (.element shape children) := by
    rw [compileRoot]
    cases compile v with
    | error e => simp
    | ok t => cases t <;> simp
  rw [hroot]
  constructor
  · rintro ⟨shape, children, ht⟩
    obtain ⟨members, rfl, hlayer⟩ := Layer.of_compile ht
    cases hlayer with
    | element htype hkind => exact ⟨(compile_ok_iff _).mp ⟨_, ht⟩, _, _, rfl, htype, hkind⟩
  · rintro ⟨hv, members, kind, rfl, htype, hkind⟩
    obtain ⟨t, ht⟩ := (compile_ok_iff _).mpr hv
    obtain ⟨_, heq, hlayer⟩ := Layer.of_compile ht
    obtain rfl := Value.object.inj heq
    cases hlayer with
    | iteration hiteration => exact absurd (kind_unique htype hiteration) hkind.1
    | decision hdecision => exact absurd (kind_unique htype hdecision) hkind.2
    | element => exact ⟨_, _, ht⟩

/-- Any condition will do, and it is kept as it was read. -/
theorem compile_with_condition (h : Compilable (.object members))
    (htype : members.get? "type" = some (.string "decision")) (condition : Value) :
    ∃ yes no, compile (.object (Members.insert "condition" condition members)) =
      .ok (.decision (Condition.compile condition) yes no) := by
  have hother : ∀ {key}, key ≠ "condition" →
      (Members.insert "condition" condition members).get? key = members.get? key := fun hkey =>
    Members.get?_insert_of_ne condition members hkey
  cases h with
  | iteration hiteration => exact absurd (kind_unique hiteration htype) (by decide)
  | element helement hkind => exact absurd (kind_unique helement htype) hkind.2
  | decision _ _ hthen hyes helse =>
    obtain ⟨t, ht⟩ := (compile_ok_iff _).mpr hyes
    have hbranch : ∃ no, Otherwise (Members.insert "condition" condition members) no :=
      exists_otherwise fun no hget hne => (compile_ok_iff no).mpr (helse no ((hother (by decide)).symm.trans hget) hne)
    obtain ⟨no, hno⟩ := hbranch
    exact ⟨t, no, Layer.compile (.decision ((hother (by decide)).trans htype) (Members.get?_insert_self _ _ _)
      ((hother (by decide)).trans hthen) ht hno)⟩

end Template

/-! ### Languages -/

namespace ElementType

open Template

variable {kind : ElementKind} {tag : TypeTag} {d : TypeDocument} {fault : TemplateFault}

theorem compile_ok_iff (kind : ElementKind) (tag : TypeTag) :
    (∃ t, compile kind tag d = .ok t) ↔ ∀ v ∈ d.visualTemplate, Rooted v := by
  rw [compile, compileTemplate]
  cases d.visualTemplate with
  | none => simp
  | some v =>
    simp only [Option.mem_some_iff, forall_eq', ← compileRoot_ok_iff]
    cases compileRoot v <;> simp

theorem of_compile_error (h : compile kind tag d = .error fault) :
    ∃ v why, d.visualTemplate = some v ∧ compileRoot v = .error why ∧ fault = .inType tag why := by
  rw [compile, compileTemplate] at h
  cases hv : d.visualTemplate with
  | none => simp [hv] at h
  | some v =>
    cases hroot : compileRoot v with
    | ok t => simp [hv, hroot] at h
    | error why => exact ⟨v, why, rfl, hroot, by simpa [hv, hroot] using h.symm⟩

theorem compileAll_ok_iff (kind : ElementKind) {ds : List (TypeTag × TypeDocument)} :
    (∃ ts, compileAll kind ds = .ok ts) ↔ ∀ entry ∈ ds, ∀ v ∈ entry.2.visualTemplate, Rooted v := by
  induction ds with
  | nil => simp [compileAll]
  | cons entry rest ih =>
    obtain ⟨tag, d⟩ := entry
    rw [compileAll, List.forall_mem_cons, ← ih, ← compile_ok_iff kind tag]
    cases compile kind tag d with
    | error e => simp
    | ok t => cases compileAll kind rest <;> simp

theorem of_compileAll_error {ds : List (TypeTag × TypeDocument)} (h : compileAll kind ds = .error fault) :
    ∃ entry ∈ ds, ∃ v why, entry.2.visualTemplate = some v ∧ compileRoot v = .error why ∧
      fault = .inType entry.1 why := by
  induction ds with
  | nil => cases h
  | cons entry rest ih =>
    obtain ⟨tag, d⟩ := entry
    rw [compileAll] at h
    cases ht : compile kind tag d with
    | error e =>
      simp only [ht, Except.error.injEq] at h
      exact ⟨_, List.mem_cons_self, h ▸ of_compile_error ht⟩
    | ok t =>
      cases hrest : compileAll kind rest with
      | error e =>
        simp only [ht, hrest, Except.error.injEq] at h
        obtain ⟨entry, hentry, hfault⟩ := ih (hrest.trans (congrArg _ h))
        exact ⟨entry, List.mem_cons_of_mem _ hentry, hfault⟩
      | ok ts => simp [ht, hrest] at h

end ElementType

namespace Language

open Template

theorem compile_ok_iff (d : LanguageDocument) :
    (∃ l, compile d = .ok l) ↔ ∀ entry ∈ d.nodes ++ d.edges, ∀ v ∈ entry.2.visualTemplate, Rooted v := by
  rw [List.forall_mem_append, ← ElementType.compileAll_ok_iff .node, ← ElementType.compileAll_ok_iff .edge,
    compile]
  cases ElementType.compileAll .node d.nodes with
  | error e => simp
  | ok nodes => cases ElementType.compileAll .edge d.edges <;> simp

theorem of_compile_error {d : LanguageDocument} {fault : TemplateFault} (h : compile d = .error fault) :
    ∃ entry ∈ d.nodes ++ d.edges, ∃ v why, entry.2.visualTemplate = some v ∧ compileRoot v = .error why ∧
      fault = .inType entry.1 why := by
  rw [compile] at h
  cases hn : ElementType.compileAll .node d.nodes with
  | error e =>
    simp only [hn, Except.error.injEq] at h
    obtain ⟨entry, hentry, hfault⟩ := ElementType.of_compileAll_error (hn.trans (congrArg _ h))
    exact ⟨entry, List.mem_append_left _ hentry, hfault⟩
  | ok nodes =>
    cases he : ElementType.compileAll .edge d.edges with
    | error e =>
      simp only [hn, he, Except.error.injEq] at h
      obtain ⟨entry, hentry, hfault⟩ := ElementType.of_compileAll_error (he.trans (congrArg _ h))
      exact ⟨entry, List.mem_append_right _ hentry, hfault⟩
    | ok edges => simp [hn, he] at h

end Language

namespace Template

/-- A value is compiled just when it is a template, and refused as no template otherwise. A decision takes any
condition there is and keeps it as it was read. A language is compiled just when every template that is given for a
type is that of an element, and otherwise the refusal is that of one of them. -/
theorem compile_exact :
    (∀ v, (∃ t, compile v = .ok t) ↔ Compilable v) ∧
      (∀ v, ¬ Compilable v → ∃ fault, compile v = .error fault ∧ (EditError.template fault).kind = "TEMPLATE_ERROR") ∧
      (∀ (members : Members) (condition : Value), Compilable (.object members) →
        members.get? "type" = some (.string "decision") →
          ∃ yes no, compile (.object (Members.insert "condition" condition members)) =
            .ok (.decision (Condition.compile condition) yes no)) ∧
      (∀ d : LanguageDocument, (∃ l, Language.compile d = .ok l) ↔
        ∀ entry ∈ d.nodes ++ d.edges, ∀ v ∈ entry.2.visualTemplate, Rooted v) ∧
      ∀ (d : LanguageDocument) (fault : TemplateFault), Language.compile d = .error fault →
        (EditError.template fault).kind = "TEMPLATE_ERROR" ∧
          ∃ entry ∈ d.nodes ++ d.edges, ∃ v why, entry.2.visualTemplate = some v ∧ ¬ Rooted v ∧
            compileRoot v = .error why ∧ fault = .inType entry.1 why := by
  refine ⟨compile_ok_iff, fun v hv => ?_, fun members condition h htype => ?_, Language.compile_ok_iff,
    fun d fault h => ⟨rfl, ?_⟩⟩
  · cases hc : compile v with
    | error fault => exact ⟨fault, rfl, rfl⟩
    | ok t => exact absurd ((compile_ok_iff v).mp ⟨t, hc⟩) hv
  · exact compile_with_condition h htype condition
  · obtain ⟨entry, hentry, v, why, hv, hroot, rfl⟩ := Language.of_compile_error h
    refine ⟨entry, hentry, v, why, hv, fun hrooted => ?_, hroot, rfl⟩
    obtain ⟨t, ht⟩ := (compileRoot_ok_iff v).mpr hrooted
    cases ht.symm.trans hroot

/-- What is drawn for a task under a condition. -/
def taskMembers (condition : Value) : Members :=
  [("condition", condition), ("else", .null),
    ("then", .object [("text", .string "no. $\x7btask.number\x7d"), ("type", .string "label")]),
    ("type", .string "decision")]

/-- A list with a part for every task. -/
def taskList (condition : Value) : Value :=
  .object
    [("children", .array [.object [("iterable", .string "$\x7btasks\x7d"), ("iterand", .string "task"),
      ("template", .object (taskMembers condition)), ("type", .string "iteration")]]),
     ("type", .string "list")]

theorem compilable_taskMembers (condition : Value) : Compilable (.object (taskMembers condition)) := by
  have htext : ∃ parts, BoundText.Reads "no. $\x7btask.number\x7d".toList parts := by
    have hparse : BoundText.parse "no. $\x7btask.number\x7d" = .ok (some (.interpolated
        [.literal "no. ", .binding [.field "task", .field "number"]] [.field "task", .field "number"])) := by
      decide +kernel
    obtain ⟨parts, hreads, _⟩ := BoundText.parse_eq_ok_iff.mp hparse
    exact ⟨parts, hreads⟩
  refine .decision rfl rfl rfl (.element rfl (by decide) ?_ nofun nofun nofun) ?_
  · intro name source hm hname
    simp only [List.mem_cons, Prod.mk.injEq, Value.string.injEq, List.not_mem_nil, or_false] at hm
    obtain ⟨_, rfl⟩ | ⟨rfl, _⟩ := hm
    · exact htext
    · exact absurd (by decide) hname
  · rintro no ⟨⟩ hno
    exact absurd rfl hno

theorem compilable_taskList (condition : Value) : Compilable (taskList condition) := by
  have hsource : IterableText "$\x7btasks\x7d" := iterableText_iff.mpr (.inl ⟨[.field "tasks"], by decide +kernel⟩)
  have hname : IterandName "task" := isIterand_iff.mp (by decide +kernel)
  refine .element rfl (by decide) ?_ nofun (fun _ hfound _ => ⟨_, (Option.some.inj hfound).symm⟩) ?_
  · intro name source hm hreserved
    simp only [List.mem_cons, Prod.mk.injEq, reduceCtorEq, and_false, List.not_mem_nil, or_false, false_or] at hm
    exact absurd (hm.1 ▸ by decide) hreserved
  · rintro items ⟨⟩ item hitem
    obtain rfl := List.mem_singleton.mp hitem
    exact .iteration rfl rfl hsource rfl hname rfl (compilable_taskMembers condition)

theorem tasks_compile_exact :
    (∃ t, compile (taskList .null) = .ok t) ∧
      (∃ yes no, compile (.object (Members.insert "condition" (.array []) (taskMembers .null))) =
        .ok (.decision (Condition.compile (.array [])) yes no)) ∧
      (∃ fault, compile (.array [taskList .null]) = .error fault ∧
        (EditError.template fault).kind = "TEMPLATE_ERROR") ∧
      ∃ l, Language.compile
        ⟨"tasks", "", 1, [("list", { TypeDocument.empty with visualTemplate := some (taskList .null) })], []⟩ =
          .ok l := by
  have hrooted : Rooted (taskList .null) := ⟨compilable_taskList .null, _, "list", rfl, rfl, by decide, by decide⟩
  refine ⟨(compile_exact.1 _).mpr (compilable_taskList .null),
    compile_exact.2.2.1 _ _ (compilable_taskMembers .null) rfl,
    compile_exact.2.1 _ (not_compilable_of_not_object nofun), (compile_exact.2.2.2.1 _).mpr ?_⟩
  intro entry hentry v hv
  obtain rfl := List.mem_singleton.mp hentry
  exact Option.mem_some_iff.mp hv ▸ hrooted

end Template

end DiagramEditor
