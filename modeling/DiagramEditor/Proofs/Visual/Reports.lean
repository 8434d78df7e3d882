import DiagramEditor.Proofs.Operation.EditLabel
import DiagramEditor.Proofs.Visual.Drawn
import DiagramEditor.Proofs.Visual.Environment

/-!
# What a rendering reports

A rendering reports conditions that could not be evaluated and types that are unknown, and what is
said of the one is never said of the other. So a rendering reports an unknown type just when one of
the elements has a type, but none that the language has for its kind.
-/

set_option autoImplicit false

namespace DiagramEditor

open Json

/-- Texts differ that start with texts neither of which is the start of the other. -/
theorem Text.append_ne_append {a b x y : String} (hab : ¬ a.toList <+: b.toList) (hba : ¬ b.toList <+: a.toList) :
    a ++ x ≠ b ++ y := by
  intro h
  have hlist : a.toList ++ x.toList = b.toList ++ y.toList := by
    rw [← String.toList_append, h, String.toList_append]
  have ha : a.toList <+: a.toList ++ x.toList := List.prefix_append ..
  have hb : b.toList <+: a.toList ++ x.toList := hlist ▸ List.prefix_append ..
  exact (List.prefix_or_prefix_of_prefix ha hb).elim hab hba

namespace Diagnostic

/-- The report says that a type is unknown. -/
def TellsUnknownType (x : Diagnostic) : Prop := ∃ tag : TypeTag, x.reason = "unknown type: '" ++ tag ++ "'"

/-- The report gives the fault of a condition. -/
def TellsFault (x : Diagnostic) : Prop := ∃ fault : EvalFault, x.reason = fault.message

end Diagnostic

theorem ConditionFault.message_ne (fault : ConditionFault) (tag : TypeTag) :
    fault.message ≠ "unknown type: '" ++ (tag ++ "'") := by
  unfold message
  cases fault <;> simp only [String.append_assoc] <;> exact Text.append_ne_append (by decide) (by decide)

theorem EvalFault.message_ne (fault : EvalFault) (tag : TypeTag) :
    fault.message ≠ "unknown type: '" ++ (tag ++ "'") := by
  unfold message
  cases fault with
  | invalid fault => exact fault.message_ne tag
  | notANumber =>
    rw [← String.append_empty (s := "cannot order NaN")]
    exact Text.append_ne_append (by decide) (by decide)
  | _ =>
    simp only [String.append_assoc]
    exact Text.append_ne_append (by decide) (by decide)

theorem Diagnostic.TellsFault.not_tellsUnknownType {x : Diagnostic} (h : x.TellsFault) : ¬ x.TellsUnknownType := by
  rintro ⟨tag, hreason⟩
  obtain ⟨fault, hfault⟩ := h
  rw [hfault, String.append_assoc] at hreason
  exact fault.message_ne tag hreason

namespace Rendered

/-- All reports are of conditions. -/
def OnlyFaults (r : Rendered) : Prop := ∀ x ∈ r.diagnostics, x.TellsFault

theorem onlyFaults_nothing : nothing.OnlyFaults := by simp [OnlyFaults, nothing]

theorem OnlyFaults.append {a b : Rendered} (ha : a.OnlyFaults) (hb : b.OnlyFaults) : (a.append b).OnlyFaults :=
  fun x hx => (List.mem_append.mp hx).elim (ha x) (hb x)

theorem onlyFaults_overItems {item : Nat → Except TemplateFault Rendered} {n count : Nat} {r : Rendered}
    (hitem : ∀ n r, item n = .ok r → r.OnlyFaults) (h : overItems item n count = .ok r) : r.OnlyFaults := by
  induction count generalizing n r with
  | zero => exact Except.ok.inj h ▸ onlyFaults_nothing
  | succ count ih =>
    obtain ⟨first, more, hfirst, hmore, rfl⟩ := eq_append_of_andThen h
    exact (hitem n first hfirst).append (ih hmore)

end Rendered

namespace Template

theorem onlyFaults_failureReport (owner : ElementId) (id : String) (fault : Option EvalFault) :
    (⟨[], failureReport owner id fault⟩ : Rendered).OnlyFaults := by
  intro x hx
  cases fault with
  | none => cases hx
  | some fault => exact ⟨fault, by rw [List.mem_singleton.mp hx]⟩

mutual

theorem onlyFaults_expand {owner : ElementId} {parent slot : String} {s : Scope} {r : Rendered} (t : Template)
    (h : expand owner parent slot s t = .ok r) : r.OnlyFaults := by
  match t with
  | .element shape children =>
    rw [expand] at h
    split at h
    · cases h
    · rename_i inner hinner
      have hchildren := onlyFaults_expandChildren children hinner
      rw [← Except.ok.inj h]
      exact hchildren
  | .iteration iterable iterand body =>
    rw [expand] at h
    split at h
    · cases h
    · exact Rendered.onlyFaults_overItems (fun n r hitem => onlyFaults_expand body hitem) h
  | .decision condition yes no =>
    have hreport := onlyFaults_failureReport owner (parent ++ "_" ++ slot) (condition.verdict s).2
    unfold expand at h
    by_cases hholds : (condition.verdict s).1 = true
    · simp only [hholds, if_true] at h
      obtain ⟨first, more, hfirst, hmore, rfl⟩ := Rendered.eq_append_of_andThen h
      exact (Except.ok.inj hfirst ▸ hreport).append (onlyFaults_expand yes hmore)
    · simp only [hholds, Bool.false_eq_true, if_false] at h
      match no with
      | none => exact Except.ok.inj h ▸ hreport
      | some no =>
        obtain ⟨first, more, hfirst, hmore, rfl⟩ := Rendered.eq_append_of_andThen h
        exact (Except.ok.inj hfirst ▸ hreport).append (onlyFaults_expand no hmore)

theorem onlyFaults_expandChildren {owner : ElementId} {parent : String} {s : Scope} {r : Rendered} {n : Nat}
    (ts : List Template) (h : expandChildren owner parent s n ts = .ok r) : r.OnlyFaults := by
  match ts with
  | [] => exact Except.ok.inj h ▸ Rendered.onlyFaults_nothing
  | t :: rest =>
    obtain ⟨first, more, hfirst, hmore, rfl⟩ := Rendered.eq_append_of_andThen h
    exact (onlyFaults_expand t hfirst).append (onlyFaults_expandChildren rest hmore)

end

end Template

namespace Language

variable {l : Language} {e : Element} {r : Rendered}

/-- The language has no type of the element's tag for its kind, and the element is not without a type. -/
def NotKnown (l : Language) (e : Element) : Prop := e.tag ≠ "" ∧ l.find? e.kind e.tag = none

theorem tells_templateFor (l : Language) (e : Element) :
    (∃ x ∈ (l.templateFor e).2, x.TellsUnknownType) ↔ l.NotKnown e := by
  rw [reports_templateFor, unknownType, NotKnown]
  split
  · simp [*, Diagnostic.TellsUnknownType]
  · simp [*]

theorem tells_renderElement (h : l.renderElement e = .ok r) :
    (∃ x ∈ r.diagnostics, x.TellsUnknownType) ↔ l.NotKnown e := by
  rw [← l.tells_templateFor e]
  simp only [renderElement, RootTemplate.render] at h
  cases hinner : Template.expandChildren e.id e.id (Scope.ofData e.data) 0 (l.templateFor e).1.children with
  | error fault => simp [hinner] at h
  | ok inner =>
    simp only [hinner, Except.ok.injEq] at h
    subst h
    -- what is reported besides comes from conditions
    have hfaults := Template.onlyFaults_expandChildren _ hinner
    constructor
    · rintro ⟨x, hx, htells⟩
      rcases List.mem_append.mp hx with hx | hx
      · exact ⟨x, hx, htells⟩
      · exact absurd htells (hfaults x hx).not_tellsUnknownType
    · rintro ⟨x, hx, htells⟩
      exact ⟨x, List.mem_append_left _ hx, htells⟩

theorem tells_renderAll {es : List Element} (h : l.renderAll es = .ok r) :
    (∃ x ∈ r.diagnostics, x.TellsUnknownType) ↔ ∃ e ∈ es, l.NotKnown e := by
  induction es generalizing r with
  | nil =>
    obtain rfl := Except.ok.inj h
    simp [Rendered.nothing]
  | cons e rest ih =>
    obtain ⟨first, more, hfirst, hmore, rfl⟩ := Rendered.eq_append_of_andThen h
    rw [List.exists_mem_cons_iff, ← tells_renderElement hfirst, ← ih hmore]
    simp [Rendered.append, or_and_right, exists_or]

/-- An unknown type is reported just when an element has one. -/
theorem tells_render {m : Model} {r : Rendering} (h : l.render m = .ok r) :
    (∃ x ∈ r.diagnostics, x.TellsUnknownType) ↔ ∃ e ∈ m.elements, l.NotKnown e := by
  rw [render] at h
  cases hall : l.renderAll (m.nodes.map .node ++ m.edges.map .edge) with
  | error fault => simp [hall] at h
  | ok all =>
    simp only [hall, Except.ok.injEq] at h
    exact h ▸ tells_renderAll hall

end Language

end DiagramEditor
