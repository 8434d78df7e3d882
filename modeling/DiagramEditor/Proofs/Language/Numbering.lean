import DiagramEditor.Language.Basic
import DiagramEditor.Proofs.Text.Blank

/-!
# The number in default data

Where the default data of a type holds the mark, a new element gets its number. Only texts
change, and of a text only the marks that are met from left to right. Digits keep apart what
stood on both sides of a mark, so no new mark comes about and a second expansion finds none.
-/

set_option autoImplicit false

namespace DiagramEditor

open Json

/-- From left to right, every mark has given way to the counter. -/
inductive Replaces (counter : List Char) : List Char → List Char → Prop
  | plain {cs : List Char} (hplain : ¬ counterMark <:+: cs) : Replaces counter cs cs
  | mark {before after done : List Char} (hbefore : ¬ counterMark <:+: before) (hafter : Replaces counter after done) :
      Replaces counter (before ++ (counterMark ++ after)) (before ++ (counter ++ done))

/-- The same value, with the counter for every mark in its texts. Keys may hold marks, and keep them. -/
inductive Expands (counter : List Char) : Value → Value → Prop
  | null : Expands counter .null .null
  | bool (b : Bool) : Expands counter (.bool b) (.bool b)
  | number (n : Number) : Expands counter (.number n) (.number n)
  | string {s s' : String} (htext : Replaces counter s.toList s'.toList) : Expands counter (.string s) (.string s')
  | array {items items' : List Value} (hlength : items.length = items'.length)
      (hitems : ∀ p ∈ items.zip items', Expands counter p.1 p.2) : Expands counter (.array items) (.array items')
  | object {members members' : Members} (hkeys : members.map Prod.fst = members'.map Prod.fst)
      (hmembers : ∀ p ∈ members.zip members', Expands counter p.1.2 p.2.2) :
      Expands counter (.object members) (.object members')

/-- No text anywhere in the value holds a mark. -/
inductive Json.Value.Unmarked : Value → Prop
  | null : Unmarked .null
  | bool (b : Bool) : Unmarked (.bool b)
  | number (n : Number) : Unmarked (.number n)
  | string {s : String} (htext : ¬ counterMark <:+: s.toList) : Unmarked (.string s)
  | array {items : List Value} (hitems : ∀ v ∈ items, Unmarked v) : Unmarked (.array items)
  | object {members : Members} (hmembers : ∀ m ∈ members, Unmarked m.2) : Unmarked (.object members)

/-! ### Parts of a list -/

section Parts

variable {α : Type} {part before after : List α} {a : α}

/-- What lacks an item does not reach over it. -/
theorem prefix_of_notMem (ha : a ∉ part) (h : part <+: before ++ a :: after) : part <+: before := by
  induction before generalizing part with
  | nil =>
    cases part with
    | nil => exact List.nil_prefix
    | cons b part => exact absurd (List.cons_prefix_cons.mp h).1 (List.ne_of_not_mem_cons ha).symm
  | cons b before ih =>
    cases part with
    | nil => exact List.nil_prefix
    | cons c part =>
      obtain ⟨rfl, hrest⟩ := List.cons_prefix_cons.mp h
      exact List.cons_prefix_cons.mpr ⟨rfl, ih (List.not_mem_of_not_mem_cons ha) hrest⟩

theorem infix_or_infix_of_notMem (ha : a ∉ part) (h : part <:+: before ++ a :: after) :
    part <:+: before ∨ part <:+: after := by
  induction before with
  | nil =>
    rcases List.infix_cons_iff.mp h with hhere | hlater
    · have hnil : part <+: [] := prefix_of_notMem ha hhere
      exact .inl hnil.isInfix
    · exact .inr hlater
  | cons b before ih =>
    rcases List.infix_cons_iff.mp h with hhere | hlater
    · have hfirst : part <+: b :: before := prefix_of_notMem ha hhere
      exact .inl hfirst.isInfix
    · exact (ih hlater).imp_left fun hrest => hrest.trans (List.suffix_cons b before).isInfix

/-- What is found neither before nor after is not found in the whole, if all between is what it lacks. -/
theorem not_infix_around {middle : List α} (hmiddle : ∀ a ∈ middle, a ∉ part) (hne : middle ≠ [])
    (hbefore : ¬ part <:+: before) (hafter : ¬ part <:+: after) : ¬ part <:+: before ++ (middle ++ after) := by
  induction middle generalizing before with
  | nil => exact absurd rfl hne
  | cons a middle ih =>
    intro h
    rcases infix_or_infix_of_notMem (hmiddle a List.mem_cons_self) h with hfound | hfound
    · exact hbefore hfound
    · cases middle with
      | nil => exact hafter hfound
      | cons b middle =>
        have hnil : ¬ part <:+: [] := fun hnil => hbefore (hnil.trans List.nil_infix)
        exact ih (fun c hc => hmiddle c (List.mem_cons_of_mem _ hc)) (List.cons_ne_nil b middle) hnil hfound

end Parts

/-! ### Texts -/

section Texts

variable {counter cs after done : List Char} {c : Char}

theorem afterMark?_eq_some_iff : afterMark? cs = some after ↔ cs = counterMark ++ after := by
  constructor
  · intro h
    rw [afterMark?, Option.ite_none_right_eq_some, List.isPrefixOf_iff_prefix] at h
    obtain ⟨⟨rest, rfl⟩, hafter⟩ := h
    rw [List.drop_left, Option.some.injEq] at hafter
    rw [hafter]
  · rintro rfl
    rw [afterMark?, if_pos (by simp), List.drop_left]

theorem afterMark?_eq_none_iff : afterMark? cs = none ↔ ¬ counterMark <+: cs := by simp [afterMark?]

theorem Replaces.cons (h : Replaces counter cs done) (hc : ¬ counterMark <+: c :: cs) :
    Replaces counter (c :: cs) (c :: done) := by
  cases h with
  | plain hplain =>
    refine .plain ?_
    rw [List.infix_cons_iff, not_or]
    exact ⟨hc, hplain⟩
  | @mark before _ _ hbefore hafter =>
    have hfirst : ¬ counterMark <:+: c :: before := by
      rw [List.infix_cons_iff, not_or]
      exact ⟨fun hhere => hc (hhere.trans (List.prefix_append (c :: before) _)), hbefore⟩
    exact .mark hfirst hafter

theorem replaces_expandChars (counter cs : List Char) : Replaces counter cs (expandChars counter cs) := by
  fun_induction expandChars counter cs with
  | case1 => exact .plain (by decide)
  | case2 c rest after hafter ih =>
    have hnil : ¬ counterMark <:+: [] := by decide
    rw [afterMark?_eq_some_iff.mp hafter]
    exact .mark hnil ih
  | case3 c rest hnone ih => exact ih.cons (afterMark?_eq_none_iff.mp hnone)

theorem expandChars_of_plain (h : ¬ counterMark <:+: cs) : expandChars counter cs = cs := by
  induction cs with
  | nil => rw [expandChars]
  | cons c cs ih =>
    rw [List.infix_cons_iff, not_or] at h
    rw [expandChars]
    split
    · rename_i after hafter
      exact absurd (afterMark?_eq_some_iff.mp hafter ▸ List.prefix_append _ _) h.1
    · rw [ih h.2]

/-- A number is written in digits, and the mark has none. -/
theorem notMem_counterMark {n : Nat} (hc : c ∈ (toString n).toList) : c ∉ counterMark := by
  intro hmark
  have hdigits : counterMark.all (!·.isDigit) = true := by decide
  have hdigit := List.all_eq_true.mp hdigits c hmark
  rw [Text.isDigit_of_mem_toString hc] at hdigit
  cases hdigit

theorem toList_toString_ne_nil (n : Nat) : (toString n).toList ≠ [] := by
  rw [Nat.toString_eq_repr, Nat.toList_repr]
  exact Nat.toDigits_ne_nil

/-- Whatever stood around a mark, with a number in its place it makes up no other. -/
theorem Replaces.not_infix {n : Nat} (h : Replaces (toString n).toList cs done) : ¬ counterMark <:+: done := by
  induction h with
  | plain hplain => exact hplain
  | mark hbefore _ ih =>
    exact not_infix_around (fun c hc => notMem_counterMark hc) (toList_toString_ne_nil n) hbefore ih

end Texts

/-! ### Values -/

section Values

variable {counter : List Char} {v : Value}

theorem expandItems_eq_map (counter : List Char) (items : List Value) :
    expandItems counter items = items.map (expandValue counter) := by
  induction items with
  | nil => rfl
  | cons v rest ih => rw [expandItems, ih, List.map_cons]

theorem expandMembers_eq_map (counter : List Char) (members : Members) :
    expandMembers counter members = members.map fun m => (m.1, expandValue counter m.2) := by
  induction members with
  | nil => rfl
  | cons m rest ih =>
    obtain ⟨k, v⟩ := m
    rw [expandMembers, ih, List.map_cons]

/-- What goes with an item of a list is what was made of it. -/
theorem snd_of_mem_zip_map {α β : Type} {f : α → β} {l : List α} {p : α × β} (h : p ∈ l.zip (l.map f)) :
    p.1 ∈ l ∧ p.2 = f p.1 := by
  rw [← List.map_prod_left_eq_zip, List.mem_map] at h
  obtain ⟨a, ha, rfl⟩ := h
  exact ⟨ha, rfl⟩

/-- In lists of one length every item of the second goes with one of the first. -/
theorem forall_mem_snd {α β : Type} {P : β → Prop} {l : List α} {l' : List β} (hlength : l.length = l'.length)
    (h : ∀ p ∈ l.zip l', P p.2) : ∀ b ∈ l', P b := by
  intro b hb
  rw [← List.map_snd_zip hlength.ge, List.mem_map] at hb
  obtain ⟨p, hp, rfl⟩ := hb
  exact h p hp

theorem expands_expandValue (counter : List Char) (v : Value) : Expands counter v (expandValue counter v) := by
  induction v using Value.induction with
  | null => exact .null
  | bool b => exact .bool b
  | number n => exact .number n
  | string s =>
    refine .string ?_
    rw [expandText, String.toList_ofList]
    exact replaces_expandChars counter s.toList
  | array items ih =>
    rw [expandValue, expandItems_eq_map]
    refine .array (List.length_map _).symm fun p hp => ?_
    obtain ⟨hmem, heq⟩ := snd_of_mem_zip_map hp
    exact heq ▸ ih p.1 hmem
  | object members ih =>
    rw [expandValue, expandMembers_eq_map]
    refine .object (by rw [List.map_map]; rfl) fun p hp => ?_
    obtain ⟨hmem, heq⟩ := snd_of_mem_zip_map hp
    exact heq ▸ ih p.1 hmem

theorem Expands.unmarked {n : Nat} {w : Value} (h : Expands (toString n).toList v w) : w.Unmarked := by
  induction h with
  | null => exact .null
  | bool b => exact .bool b
  | number n => exact .number n
  | string htext => exact .string htext.not_infix
  | array hlength _ ih => exact .array (forall_mem_snd hlength ih)
  | object hkeys _ ih =>
    have hlength := congrArg List.length hkeys
    rw [List.length_map, List.length_map] at hlength
    exact .object (forall_mem_snd (P := fun m => m.2.Unmarked) hlength ih)

theorem Json.Value.Unmarked.expandValue_eq (h : v.Unmarked) (counter : List Char) : expandValue counter v = v := by
  induction h with
  | null | bool | number => rfl
  | @string s htext => rw [expandValue, expandText, expandChars_of_plain htext, String.ofList_toList]
  | array _ ih => rw [expandValue, expandItems_eq_map, List.map_congr_left ih, List.map_id']
  | object _ ih =>
    have hmember : ∀ m ∈ _, (m.1, expandValue counter m.2) = m := fun m hm => by rw [ih m hm]
    rw [expandValue, expandMembers_eq_map, List.map_congr_left hmember, List.map_id']

end Values

namespace ElementType

/-- A new element starts with the default data of its type, with its number for every mark in a text and all
else as it was. No mark is left, so what it starts with may serve as default data for any other number. -/
theorem expands_instantiate (t : ElementType) (n : Nat) :
    Expands (toString n).toList (t.defaultModel.getD .emptyObject) (t.instantiate n) ∧
      (t.instantiate n).Unmarked ∧
      ∀ k, { t with defaultModel := some (t.instantiate n) }.instantiate k = t.instantiate n := by
  have hexpands : Expands (toString n).toList (t.defaultModel.getD .emptyObject) (t.instantiate n) := by
    rw [instantiate]
    cases t.defaultModel with
    | none => exact .object rfl (by simp)
    | some v => exact expands_expandValue _ v
  exact ⟨hexpands, hexpands.unmarked, fun k => hexpands.unmarked.expandValue_eq _⟩

/-- The halves of a mark do not come together. -/
example : expandText ['7'] "$\x7bauto$\x7bautoincrement\x7dincrement\x7d" = "$\x7bauto7increment\x7d" := by
  decide +kernel

end ElementType

end DiagramEditor
