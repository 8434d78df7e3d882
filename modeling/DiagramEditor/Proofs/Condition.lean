import DiagramEditor.Condition
import Mathlib.Data.List.Perm.Basic

/-!
# The laws of conditions

A group of conditions answers like the first of its items that decides: the first whose
outcome, be it an answer or a failure, differs from what the group answers without items.
So failures obey De Morgan's laws, nested groups of one kind can be opened, and of the items
of a group another order may bring a failure forward but never the opposite answer.
-/

set_option autoImplicit false

namespace DiagramEditor

namespace Condition

variable {s : Scope} {neutral a b : Bool} {r : Except EvalFault Bool} {rs more : List (Except EvalFault Bool)}

/-- A group that asks for all of its items, or for any. -/
def group : Bool → List Condition → Condition
  | true, items => .conjunction items
  | false, items => .disjunction items

/-- The first outcome that decides where `neutral` does not. -/
def firstDeciding (neutral : Bool) : List (Except EvalFault Bool) → Except EvalFault Bool
  | [] => .ok neutral
  | .error e :: _ => .error e
  | .ok b :: rest => if b = neutral then firstDeciding neutral rest else .ok b

/-! ### The first that decides -/

@[simp] theorem firstDeciding_nil : firstDeciding neutral [] = .ok neutral := rfl

@[simp] theorem firstDeciding_neutral : firstDeciding neutral (.ok neutral :: rs) = firstDeciding neutral rs :=
  if_pos rfl

theorem firstDeciding_of_ne (h : r ≠ .ok neutral) : firstDeciding neutral (r :: rs) = r := by
  cases r with
  | error e => rfl
  | ok b => exact if_neg fun hb => h (congrArg Except.ok hb)

theorem firstDeciding_eq_neutral_iff : firstDeciding neutral rs = .ok neutral ↔ ∀ r ∈ rs, r = .ok neutral := by
  induction rs with
  | nil => simp
  | cons r rs ih =>
    by_cases h : r = .ok neutral
    · simp [h, ih]
    · simp [firstDeciding_of_ne h, h]

theorem firstDeciding_mem (neutral : Bool) (rs : List (Except EvalFault Bool)) :
    firstDeciding neutral rs = .ok neutral ∨ firstDeciding neutral rs ∈ rs := by
  induction rs with
  | nil => exact .inl rfl
  | cons r rs ih =>
    by_cases h : r = .ok neutral
    · rw [h, firstDeciding_neutral]
      exact ih.imp_right (List.mem_cons_of_mem _)
    · rw [firstDeciding_of_ne h]
      exact .inr List.mem_cons_self

/-- What stands first can be gathered into one outcome. -/
theorem firstDeciding_append (rs more : List (Except EvalFault Bool)) :
    firstDeciding neutral (rs ++ more) = firstDeciding neutral (firstDeciding neutral rs :: more) := by
  induction rs with
  | nil => simp
  | cons r rs ih =>
    by_cases h : r = .ok neutral
    · simp [h, ih]
    · rw [List.cons_append, firstDeciding_of_ne h, firstDeciding_of_ne h, firstDeciding_of_ne h]

/-- Outcomes in the middle can be gathered as well. -/
theorem firstDeciding_gathered (before : List (Except EvalFault Bool)) :
    firstDeciding neutral (before ++ firstDeciding neutral rs :: more) =
      firstDeciding neutral (before ++ rs ++ more) := by
  rw [List.append_assoc, firstDeciding_append, firstDeciding_append before]
  by_cases h : firstDeciding neutral before = .ok neutral
  · rw [h, firstDeciding_neutral, firstDeciding_neutral, firstDeciding_append]
  · rw [firstDeciding_of_ne h, firstDeciding_of_ne h]

/-- Nothing behind an outcome that decides is looked at. -/
theorem firstDeciding_cut (h : r ≠ .ok neutral) (before : List (Except EvalFault Bool)) :
    firstDeciding neutral (before ++ r :: more) = firstDeciding neutral (before ++ [r]) := by
  rw [firstDeciding_append, firstDeciding_append before]
  by_cases hb : firstDeciding neutral before = .ok neutral
  · rw [hb, firstDeciding_neutral, firstDeciding_neutral, firstDeciding_of_ne h, firstDeciding_of_ne h]
  · rw [firstDeciding_of_ne hb, firstDeciding_of_ne hb]

theorem firstDeciding_map_not :
    firstDeciding (!neutral) (rs.map (·.map not)) = (firstDeciding neutral rs).map not := by
  induction rs with
  | nil => rfl
  | cons r rs ih =>
    cases r with
    | error e => rfl
    | ok b =>
      by_cases h : b = neutral
      · rw [h, firstDeciding_neutral, ← ih]
        exact firstDeciding_neutral
      · have hne : (Except.ok b : Except EvalFault Bool) ≠ .ok neutral := by simpa using h
        have hnot : (Except.ok (!b) : Except EvalFault Bool) ≠ .ok (!neutral) := by simpa using h
        rw [firstDeciding_of_ne hne]
        exact firstDeciding_of_ne hnot

/-- Whether all outcomes are neutral does not hang on their order, so two answers agree. -/
theorem firstDeciding_perm (h : rs.Perm more) (ha : firstDeciding neutral rs = .ok a)
    (hb : firstDeciding neutral more = .ok b) : a = b := by
  have hall : firstDeciding neutral rs = .ok neutral ↔ firstDeciding neutral more = .ok neutral := by
    simp only [firstDeciding_eq_neutral_iff, h.mem_iff]
  rw [ha, hb, Except.ok.injEq, Except.ok.injEq] at hall
  exact Bool.eq_iff_iff.mpr (by cases neutral <;> simpa using hall)

theorem firstDeciding_ok (h : ∀ r ∈ rs, ∃ b, r = .ok b) : ∃ b, firstDeciding neutral rs = .ok b := by
  rcases firstDeciding_mem neutral rs with hneutral | hmem
  · exact ⟨neutral, hneutral⟩
  · exact h _ hmem

/-! ### Groups -/

theorem evaluateAll_eq (items : List Condition) :
    evaluateAll s items = firstDeciding true (items.map (evaluate s)) := by
  induction items with
  | nil => rfl
  | cons c rest ih =>
    rw [evaluateAll, List.map_cons, ih]
    cases c.evaluate s with
    | error e => rfl
    | ok b => cases b <;> rfl

theorem evaluateAny_eq (items : List Condition) :
    evaluateAny s items = firstDeciding false (items.map (evaluate s)) := by
  induction items with
  | nil => rfl
  | cons c rest ih =>
    rw [evaluateAny, List.map_cons, ih]
    cases c.evaluate s with
    | error e => rfl
    | ok b => cases b <;> rfl

theorem evaluate_group (all : Bool) (items : List Condition) :
    (group all items).evaluate s = firstDeciding all (items.map (evaluate s)) := by
  cases all with
  | true => rw [group, evaluate, evaluateAll_eq]
  | false => rw [group, evaluate, evaluateAny_eq]

theorem evaluate_negation (c : Condition) : (negation c).evaluate s = (c.evaluate s).map not := by
  rw [evaluate]
  cases c.evaluate s <;> rfl

theorem evaluate_negation_negation (c : Condition) : (negation (negation c)).evaluate s = c.evaluate s := by
  rw [evaluate_negation, evaluate_negation]
  cases c.evaluate s with
  | error e => rfl
  | ok b => exact congrArg Except.ok (Bool.not_not b)

theorem evaluate_negation_group (all : Bool) (items : List Condition) :
    (negation (group all items)).evaluate s = (group (!all) (items.map negation)).evaluate s := by
  have houtcomes : (items.map negation).map (evaluate s) = (items.map (evaluate s)).map (·.map not) := by
    rw [List.map_map, List.map_map]
    exact List.map_congr_left fun c _ => evaluate_negation c
  rw [evaluate_negation, evaluate_group, evaluate_group, houtcomes, firstDeciding_map_not]

theorem evaluate_nested (all : Bool) (before inner after : List Condition) :
    (group all (before ++ group all inner :: after)).evaluate s = (group all (before ++ inner ++ after)).evaluate s := by
  simp only [evaluate_group, List.map_append, List.map_cons, firstDeciding_gathered]

theorem evaluate_cut {all : Bool} {c : Condition} (h : c.evaluate s ≠ .ok all) (before after : List Condition) :
    (group all (before ++ c :: after)).evaluate s = (group all (before ++ [c])).evaluate s := by
  simp only [evaluate_group, List.map_append, List.map_cons, List.map_nil, firstDeciding_cut h]

theorem evaluate_perm {all : Bool} {items order : List Condition} (h : items.Perm order)
    (ha : (group all items).evaluate s = .ok a) (hb : (group all order).evaluate s = .ok b) : a = b := by
  rw [evaluate_group] at ha hb
  exact firstDeciding_perm (h.map _) ha hb

theorem evaluate_ok (all : Bool) {items : List Condition} (h : ∀ c ∈ items, ∃ b, c.evaluate s = .ok b) :
    ∃ b, (group all items).evaluate s = .ok b := by
  rw [evaluate_group]
  exact firstDeciding_ok (List.forall_mem_map.mpr h)

/-- An item that fails hides what would decide behind it, and not what decides before it. -/
theorem exists_perm_fails (s : Scope) (all : Bool) :
    ∃ items order : List Condition, items.Perm order ∧ (group all items).evaluate s = .ok (!all) ∧
      ∃ e, (group all order).evaluate s = .error e := by
  refine ⟨[constant (!all), invalid (.notConditions "and")], [invalid (.notConditions "and"), constant (!all)],
    List.Perm.swap _ _ _, ?_, .invalid (.notConditions "and"), ?_⟩
  · cases all <;> rfl
  · cases all <;> rfl

/-- Conditions keep the laws of truth values whether they answer or fail. Negations cancel out and
go through a group, which turns into the other kind; a group in one of its own kind can be opened.
Two orders of the items of a group never answer differently, and all orders answer alike where no
item fails, though an order may fail where another answers; and what stands behind the item that
decides does not count. -/
theorem evaluate_lawful (s : Scope) :
    (∀ c : Condition, (negation (negation c)).evaluate s = c.evaluate s) ∧
    (∀ (all : Bool) (items : List Condition),
      (negation (group all items)).evaluate s = (group (!all) (items.map negation)).evaluate s) ∧
    (∀ (all : Bool) (before inner after : List Condition),
      (group all (before ++ group all inner :: after)).evaluate s =
        (group all (before ++ inner ++ after)).evaluate s) ∧
    (∀ (all : Bool) (items order : List Condition), items.Perm order →
      (∀ a b, (group all items).evaluate s = .ok a → (group all order).evaluate s = .ok b → a = b) ∧
      ((∀ c ∈ items, ∃ b, c.evaluate s = .ok b) →
        ∃ b, (group all items).evaluate s = .ok b ∧ (group all order).evaluate s = .ok b)) ∧
    (∀ all : Bool, ∃ items order : List Condition, items.Perm order ∧
      (group all items).evaluate s = .ok (!all) ∧ ∃ e, (group all order).evaluate s = .error e) ∧
    (∀ (all : Bool) (before : List Condition) (c : Condition) (after : List Condition), c.evaluate s ≠ .ok all →
      (group all (before ++ c :: after)).evaluate s = (group all (before ++ [c])).evaluate s) := by
  refine ⟨evaluate_negation_negation, evaluate_negation_group, evaluate_nested, fun all items order h => ⟨?_, ?_⟩,
    exists_perm_fails s, fun all before c after h => evaluate_cut h before after⟩
  · exact fun a b => evaluate_perm h
  · intro hitems
    obtain ⟨b, hb⟩ := evaluate_ok all hitems
    obtain ⟨b', hb'⟩ := evaluate_ok all fun c hc => hitems c (h.mem_iff.mpr hc)
    exact ⟨b, hb, evaluate_perm h hb hb' ▸ hb'⟩

/-- It asks whether a text is an item of null. -/
def broken : Condition := .compare .isIn (.literal (.string "a")) (.literal .null)

/-- Of all three items one does not hold and one fails, so no order that answers says yes; without the
one that fails both orders answer; and behind what holds the one that fails does not count. -/
theorem sample_evaluate_lawful :
    [constant false, broken, constant true].Perm [constant true, constant false, broken] ∧
      (group true [constant false, broken, constant true]).evaluate (.ofData .null) = .ok false ∧
      (∀ b, (group true [constant true, constant false, broken]).evaluate (.ofData .null) = .ok b → false = b) ∧
      [constant false, constant true].Perm [constant true, constant false] ∧
      (∃ b, (group true [constant false, constant true]).evaluate (.ofData .null) = .ok b ∧
        (group true [constant true, constant false]).evaluate (.ofData .null) = .ok b) ∧
      (constant true).evaluate (.ofData .null) ≠ .ok false ∧
      (group false ([constant false] ++ constant true :: [broken])).evaluate (.ofData .null) =
        (group false ([constant false] ++ [constant true])).evaluate (.ofData .null) := by
  have hthree : [constant false, broken, constant true].Perm [constant true, constant false, broken] :=
    ((List.Perm.swap _ _ _).cons _).trans (List.Perm.swap _ _ _)
  have htwo : [constant false, constant true].Perm [constant true, constant false] := List.Perm.swap _ _ _
  have hfalse : (group true [constant false, broken, constant true]).evaluate (.ofData .null) = .ok false := rfl
  have hanswers : ∀ c ∈ [constant false, constant true], ∃ b, c.evaluate (.ofData .null) = .ok b := by
    simp [evaluate]
  have hdecides : (constant true).evaluate (.ofData .null) ≠ .ok false := by simp [evaluate]
  obtain ⟨_, _, _, horders, _, hcut⟩ := evaluate_lawful (.ofData .null)
  exact ⟨hthree, hfalse, fun b hb => (horders true _ _ hthree).1 false b hfalse hb, htwo,
    (horders true _ _ htwo).2 hanswers, hdecides, hcut false _ _ _ hdecides⟩

end Condition

end DiagramEditor
