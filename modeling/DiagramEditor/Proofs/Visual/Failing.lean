import DiagramEditor.EditError
import DiagramEditor.Visual.Render

/-!
# When a rendering fails

Rendering follows a template into its children, into the body of an iteration once for each
item, and into the branch its condition decides on. It fails just when it comes upon an
iteration over something that is neither an array nor null. Whatever else goes wrong, a
condition, a binding, a type that is unknown, is made up for.
-/

set_option autoImplicit false

namespace DiagramEditor

open Json

/-- A condition that fails to evaluate does not hold. -/
theorem Condition.verdict_fst (c : Condition) (s : Scope) : (c.verdict s).1 = true ↔ c.evaluate s = .ok true := by
  rw [verdict]
  cases c.evaluate s <;> simp

namespace Template

/-- Following the first template in the first scope comes upon the second template in the
second scope. A condition that fails to evaluate decides like one that does not hold. -/
inductive Reaches : Scope → Template → Scope → Template → Prop
  | here (s : Scope) (t : Template) : Reaches s t s t
  | child {s s' : Scope} {shape : Shape} {children : List Template} {child t : Template} :
    child ∈ children → Reaches s child s' t → Reaches s (.element shape children) s' t
  | item {s s' : Scope} {iterable : Path} {iterand : String} {body t : Template} {items : List Value} {n : Nat} :
    Path.resolve? (s.concrete iterable) s.data = some (.array items) → n < items.length →
    Reaches (s.bind iterand (Path.item (s.concrete iterable) n)) body s' t →
    Reaches s (.iteration iterable iterand body) s' t
  | yes {s s' : Scope} {condition : Condition} {yes t : Template} {no : Option Template} :
    condition.evaluate s = .ok true → Reaches s yes s' t → Reaches s (.decision condition yes no) s' t
  | no {s s' : Scope} {condition : Condition} {yes no t : Template} :
    condition.evaluate s ≠ .ok true → Reaches s no s' t → Reaches s (.decision condition yes (some no)) s' t

/-- There is nothing to repeat over: what the iterable leads to in the bound data is there,
but is neither an array nor null. -/
def Stuck (s : Scope) : Template → Prop
  | .iteration iterable _ _ =>
    ∃ v, Path.resolve? (s.concrete iterable) s.data = some v ∧ v ≠ .null ∧ ∀ items, v ≠ .array items
  | _ => False

/-- Somewhere in the template rendering gets stuck. -/
def Fails (s : Scope) (t : Template) : Prop := ∃ s' u, Reaches s t s' u ∧ u.Stuck s'

theorem Reaches.data_eq {s s' : Scope} {t u : Template} (h : Reaches s t s' u) : s'.data = s.data := by
  induction h with
  | here => rfl
  | child _ _ ih | yes _ _ ih | no _ _ ih => exact ih
  | item _ _ _ ih => rw [ih]; rfl

section Fails

variable {s : Scope}

theorem fails_element {shape : Shape} {children : List Template} :
    Fails s (.element shape children) ↔ ∃ child ∈ children, Fails s child := by
  constructor
  · rintro ⟨s', u, hreach, hstuck⟩
    cases hreach with
    | here => exact hstuck.elim
    | child hchild hreach => exact ⟨_, hchild, s', u, hreach, hstuck⟩
  · rintro ⟨child, hchild, s', u, hreach, hstuck⟩
    exact ⟨s', u, .child hchild hreach, hstuck⟩

theorem fails_iteration {iterable : Path} {iterand : String} {body : Template} :
    Fails s (.iteration iterable iterand body) ↔
      Stuck s (.iteration iterable iterand body) ∨
        ∃ items, Path.resolve? (s.concrete iterable) s.data = some (.array items) ∧
          ∃ n < items.length, Fails (s.bind iterand (Path.item (s.concrete iterable) n)) body := by
  constructor
  · rintro ⟨s', u, hreach, hstuck⟩
    cases hreach with
    | here => exact .inl hstuck
    | item hitems hn hreach => exact .inr ⟨_, hitems, _, hn, s', u, hreach, hstuck⟩
  · rintro (hstuck | ⟨items, hitems, n, hn, s', u, hreach, hstuck⟩)
    · exact ⟨s, _, .here s _, hstuck⟩
    · exact ⟨s', u, .item hitems hn hreach, hstuck⟩

theorem fails_yes {condition : Condition} {yes : Template} {no : Option Template}
    (h : condition.evaluate s = .ok true) : Fails s (.decision condition yes no) ↔ Fails s yes := by
  constructor
  · rintro ⟨s', u, hreach, hstuck⟩
    cases hreach with
    | here => exact hstuck.elim
    | yes _ hreach => exact ⟨s', u, hreach, hstuck⟩
    | no hnot _ => exact absurd h hnot
  · rintro ⟨s', u, hreach, hstuck⟩
    exact ⟨s', u, .yes h hreach, hstuck⟩

theorem fails_no {condition : Condition} {yes : Template} {no : Option Template}
    (h : condition.evaluate s ≠ .ok true) : Fails s (.decision condition yes no) ↔ ∃ t ∈ no, Fails s t := by
  constructor
  · rintro ⟨s', u, hreach, hstuck⟩
    cases hreach with
    | here => exact hstuck.elim
    | yes holds _ => exact absurd holds h
    | no _ hreach => exact ⟨_, rfl, s', u, hreach, hstuck⟩
  · rintro ⟨t, ht, s', u, hreach, hstuck⟩
    obtain rfl : no = some t := ht
    exact ⟨s', u, .no h hreach, hstuck⟩

end Fails

end Template

/-! ### Errors -/

/-- The only error is that of an iteration over no array, and it comes just in this case. -/
def ErrorWhen {α : Type} (r : Except TemplateFault α) (P : Prop) : Prop :=
  ∀ fault, r = .error fault ↔ fault = .notIterable ∧ P

namespace ErrorWhen

theorem ok {α : Type} (a : α) : ErrorWhen (.ok a) False := by simp [ErrorWhen]

theorem error {α : Type} : ErrorWhen (.error .notIterable : Except TemplateFault α) True := by
  intro fault
  rw [Except.error.injEq, and_true, eq_comm]

theorem of_iff {α : Type} {r : Except TemplateFault α} {P Q : Prop} (h : ErrorWhen r P) (hPQ : P ↔ Q) :
    ErrorWhen r Q := by
  intro fault
  rw [h fault, hPQ]

theorem andThen {a b : Except TemplateFault Rendered} {P Q : Prop} (ha : ErrorWhen a P) (hb : ErrorWhen b Q) :
    ErrorWhen (Rendered.andThen a b) (P ∨ Q) := by
  intro fault
  cases a with
  | error first =>
    obtain ⟨rfl, hP⟩ := (ha first).mp rfl
    simp [Rendered.andThen, hP, eq_comm]
  | ok first =>
    have hP : ¬ P := fun hP => by simpa using (ha .notIterable).mpr ⟨rfl, hP⟩
    rw [or_iff_right hP, ← hb fault]
    cases b <;> simp [Rendered.andThen]

theorem overItems {item : Nat → Except TemplateFault Rendered} {P : Nat → Prop} (h : ∀ n, ErrorWhen (item n) (P n))
    (n count : Nat) : ErrorWhen (Rendered.overItems item n count) (∃ k < count, P (n + k)) := by
  induction count generalizing n with
  | zero => exact (ok _).of_iff (by simp)
  | succ count ih =>
    refine ((h n).andThen (ih (n + 1))).of_iff ?_
    constructor
    · rintro (hn | ⟨k, hk, hP⟩)
      · exact ⟨0, Nat.succ_pos _, hn⟩
      · exact ⟨k + 1, Nat.succ_lt_succ hk, by rwa [Nat.add_right_comm, Nat.add_assoc] at hP⟩
    · rintro ⟨k, hk, hP⟩
      cases k with
      | zero => exact .inl hP
      | succ k => exact .inr ⟨k, Nat.lt_of_succ_lt_succ hk, by rwa [Nat.add_right_comm, Nat.add_assoc]⟩

end ErrorWhen

namespace Template

mutual

/-- A template is rendered unless rendering gets stuck in it. -/
theorem errorWhen_expand (owner : ElementId) (parent slot : String) (s : Scope) (t : Template) :
    ErrorWhen (expand owner parent slot s t) (Fails s t) := by
  match t with
  | .element shape children =>
    have hchildren := errorWhen_expandChildren owner (parent ++ "_" ++ slot) s 0 children
    intro fault
    rw [fails_element, ← hchildren fault, expand]
    cases expandChildren owner (parent ++ "_" ++ slot) s 0 children <;> simp
  | .iteration iterable iterand body =>
    rw [expand]
    cases hfound : Path.resolve? (s.concrete iterable) s.data with
    | none => exact (ErrorWhen.ok _).of_iff (by simp [fails_iteration, Stuck, hfound])
    | some v =>
      have hover : ∀ v, (v ≠ .null ∧ ∀ items, v ≠ .array items) →
          Path.resolve? (s.concrete iterable) s.data = some v → Fails s (.iteration iterable iterand body) :=
        fun v hv hfound => fails_iteration.mpr (.inl ⟨v, hfound, hv⟩)
      cases v with
      | null => exact (ErrorWhen.ok _).of_iff (by simp [fails_iteration, Stuck, hfound])
      | array items =>
        have hitem := fun n => errorWhen_expand owner parent (slot ++ "_" ++ iterand ++ toString n)
          (s.bind iterand (Path.item (s.concrete iterable) n)) body
        refine (ErrorWhen.overItems hitem 0 items.length).of_iff ?_
        simp [fails_iteration, Stuck, hfound]
      | _ => exact ErrorWhen.error.of_iff (iff_of_true trivial (hover _ (by simp) hfound))
  | .decision condition yes no =>
    have hiff := condition.verdict_fst s
    rw [expand]
    generalize condition.verdict s = verdict at hiff ⊢
    obtain ⟨holds, fault⟩ := verdict
    cases holds with
    | true =>
      refine ((ErrorWhen.ok _).andThen (errorWhen_expand owner parent slot s yes)).of_iff ?_
      rw [fails_yes (hiff.mp rfl), false_or]
    | false =>
      have hnot : condition.evaluate s ≠ .ok true := fun hholds => Bool.noConfusion (hiff.mpr hholds)
      cases no with
      | none => exact (ErrorWhen.ok _).of_iff (by simp [fails_no hnot])
      | some no =>
        refine ((ErrorWhen.ok _).andThen (errorWhen_expand owner parent slot s no)).of_iff ?_
        simp [fails_no hnot]

theorem errorWhen_expandChildren (owner : ElementId) (parent : String) (s : Scope) (n : Nat) (ts : List Template) :
    ErrorWhen (expandChildren owner parent s n ts) (∃ t ∈ ts, Fails s t) := by
  match ts with
  | [] => exact (ErrorWhen.ok _).of_iff (by simp)
  | t :: rest =>
    have hfirst := errorWhen_expand owner parent ("child" ++ toString n) s t
    rw [expandChildren]
    refine (hfirst.andThen (errorWhen_expandChildren owner parent s (n + 1) rest)).of_iff ?_
    simp

end

end Template

/-! ### Models -/

namespace Language

variable {l : Language} {e : Element}

/-- Rendering the element comes upon the template in the scope. -/
def Reaches (l : Language) (e : Element) (s : Scope) (t : Template) : Prop :=
  ∃ child ∈ (l.templateFor e).1.children, Template.Reaches (Scope.ofData e.data) child s t

/-- Rendering the element comes upon an iteration whose iterable, with the names of the iterations
around it replaced, leads in the bound data to something that is neither an array nor null. -/
def Sticks (l : Language) (e : Element) : Prop :=
  ∃ s iterable iterand body, l.Reaches e s (.iteration iterable iterand body) ∧
    ∃ v, Path.resolve? (s.concrete iterable) e.data = some v ∧ v ≠ .null ∧ ∀ items, v ≠ .array items

theorem sticks_iff : l.Sticks e ↔ ∃ child ∈ (l.templateFor e).1.children, child.Fails (Scope.ofData e.data) := by
  constructor
  · rintro ⟨s, iterable, iterand, body, ⟨child, hchild, hreach⟩, hfound⟩
    have hdata : s.data = e.data := hreach.data_eq
    exact ⟨child, hchild, s, _, hreach, by rwa [Template.Stuck, hdata]⟩
  · rintro ⟨child, hchild, s, t, hreach, hstuck⟩
    have hdata : s.data = e.data := hreach.data_eq
    cases t with
    | iteration iterable iterand body =>
      rw [Template.Stuck, hdata] at hstuck
      exact ⟨s, iterable, iterand, body, ⟨child, hchild, hreach⟩, hstuck⟩
    | _ => exact hstuck.elim

theorem errorWhen_renderElement (l : Language) (e : Element) : ErrorWhen (l.renderElement e) (l.Sticks e) := by
  have hchildren := Template.errorWhen_expandChildren e.id e.id (Scope.ofData e.data) 0 (l.templateFor e).1.children
  intro fault
  rw [sticks_iff, ← hchildren fault]
  simp only [renderElement, RootTemplate.render]
  cases Template.expandChildren e.id e.id (Scope.ofData e.data) 0 (l.templateFor e).1.children <;> simp

theorem errorWhen_renderAll (l : Language) (es : List Element) :
    ErrorWhen (l.renderAll es) (∃ e ∈ es, l.Sticks e) := by
  induction es with
  | nil => exact (ErrorWhen.ok _).of_iff (by simp)
  | cons e rest ih => exact ((errorWhen_renderElement l e).andThen ih).of_iff (by simp)

/-- Nothing is repeated in what is drawn for an element of no known type. -/
theorem not_sticks_of_untyped (h : e.tag.isEmpty = true ∨ l.find? e.kind e.tag = none) : ¬ l.Sticks e := by
  rw [sticks_iff]
  rintro ⟨child, hchild, hfails⟩
  by_cases hempty : e.tag.isEmpty = true
  · simp [templateFor, hempty, RootTemplate.bare] at hchild
  · obtain rfl : child = .element ⟨"label", [("text", .literal (.string e.tag))], []⟩ [] := by
      simpa [templateFor, hempty, h.resolve_left hempty, RootTemplate.labelled] using hchild
    simp [Template.fails_element] at hfails

/-- A model is rendered unless one of its elements makes rendering stick at an iteration over
something that is no array, and an element of no known type never does. -/
theorem render_eq_error_iff (l : Language) (m : Model) :
    (∀ fault, l.render m = .error fault ↔
      fault = .notIterable ∧ ∃ e ∈ m.nodes.map Element.node ++ m.edges.map Element.edge, l.Sticks e) ∧
    (EditError.template .notIterable).kind = "TEMPLATE_ERROR" ∧
    TemplateFault.notIterable.message = "iteration iterable must be an array" ∧
    ∀ e, e.tag.isEmpty = true ∨ l.find? e.kind e.tag = none → ¬ l.Sticks e := by
  refine ⟨fun fault => ?_, rfl, rfl, fun e => not_sticks_of_untyped⟩
  rw [← errorWhen_renderAll l _ fault, render]
  cases l.renderAll (m.nodes.map .node ++ m.edges.map .edge) <;> simp

end Language

end DiagramEditor
