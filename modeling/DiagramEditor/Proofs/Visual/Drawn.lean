import DiagramEditor.Proofs.Scope
import DiagramEditor.Proofs.Template.Sound
import DiagramEditor.Visual.Render
import Mathlib.Data.List.Forall2

/-!
# What a template draws

Following a template comes upon element templates, each in a scope. They are told here
without ids, diagnostics and nesting; the rendered elements are those, one by one.
-/

set_option autoImplicit false

namespace DiagramEditor

open Json

namespace Template

mutual

/-- The element templates that are come upon, each with its scope. -/
def drawn (s : Scope) : Template → List (Shape × Scope)
  | .element shape children => (shape, s) :: drawnAll s children
  | .iteration iterable iterand body =>
    match s.lookup? iterable with
    | some (.array items) =>
      (List.range items.length).flatMap fun n => drawn (s.bind iterand (Path.item (s.concrete iterable) n)) body
    | _ => []
  | .decision condition yes no =>
    if (condition.verdict s).1 then drawn s yes
    else
      match no with
      | none => []
      | some no => drawn s no

def drawnAll (s : Scope) : List Template → List (Shape × Scope)
  | [] => []
  | t :: rest => drawn s t ++ drawnAll s rest

end

end Template

theorem forall₂_imp_of_mem {α β : Type} {R S : α → β → Prop} {as : List α} {bs : List β}
    (h : List.Forall₂ R as bs) (himp : ∀ a ∈ as, ∀ b ∈ bs, R a b → S a b) : List.Forall₂ S as bs := by
  obtain ⟨hlength, hzip⟩ := List.forall₂_iff_zip.mp h
  refine List.forall₂_iff_zip.mpr ⟨hlength, fun hm => ?_⟩
  obtain ⟨ha, hb⟩ := List.of_mem_zip hm
  exact himp _ ha _ hb (hzip hm)

theorem exists_of_forall₂ {α β : Type} {R : α → β → Prop} {as : List α} {bs : List β} (h : List.Forall₂ R as bs)
    {b : β} (hb : b ∈ bs) : ∃ a ∈ as, R a b := by
  induction h with
  | nil => cases hb
  | cons hfirst _ ih =>
    rcases List.mem_cons.mp hb with rfl | hb
    · exact ⟨_, List.mem_cons_self, hfirst⟩
    · obtain ⟨a, ha, hab⟩ := ih hb
      exact ⟨a, List.mem_cons_of_mem _ ha, hab⟩

/-- The element was made from the template in the scope. -/
def Shape.Draws (place : Shape × Scope) (v : VisualElement) : Prop :=
  ∃ id children, v = place.1.element place.2 id children

namespace Rendered

theorem eq_append_of_andThen {a b : Except TemplateFault Rendered} {r : Rendered} (h : andThen a b = .ok r) :
    ∃ first second, a = .ok first ∧ b = .ok second ∧ r = first.append second := by
  unfold andThen at h
  split at h
  · cases h
  · split at h
    · cases h
    · exact ⟨_, _, rfl, rfl, (Except.ok.inj h).symm⟩

theorem of_andThen {a b : Except TemplateFault Rendered} {r : Rendered} (h : andThen a b = .ok r) :
    ∃ first second, a = .ok first ∧ b = .ok second ∧ r.elements = first.elements ++ second.elements := by
  obtain ⟨first, second, ha, hb, rfl⟩ := eq_append_of_andThen h
  exact ⟨first, second, ha, hb, rfl⟩

variable {parent : Option String} {places : Nat → List (Shape × Scope)} {item : Nat → Except TemplateFault Rendered}

theorem forall₂_overItems
    (hitem : ∀ n r, item n = .ok r →
      List.Forall₂ (fun place v => Shape.Draws place v.1) (places n) (VisualElement.walkAll parent r.elements))
    {n count : Nat} {r : Rendered} (h : overItems item n count = .ok r) :
    List.Forall₂ (fun place v => Shape.Draws place v.1) ((List.range' n count).flatMap places)
      (VisualElement.walkAll parent r.elements) := by
  induction count generalizing n r with
  | zero =>
    obtain rfl := Except.ok.inj h
    exact .nil
  | succ count ih =>
    obtain ⟨first, more, hfirst, hmore, helements⟩ := of_andThen h
    rw [helements, VisualElement.walkAll_append, List.range'_succ, List.flatMap_cons]
    exact List.rel_append (hitem n first hfirst) (ih hmore)

end Rendered

theorem VisualElement.walk_eq (parent : Option String) (v : VisualElement) :
    v.walk parent = (v, parent) :: walkAll (some v.id) v.children := by
  cases v
  rfl

namespace Template

theorem drawn_iteration {s : Scope} {iterable : Path} {iterand : String} {count : Nat} (body : Template)
    (h : itemCount (Path.resolve? (s.concrete iterable) s.data) = .ok count) :
    drawn s (.iteration iterable iterand body) =
      (List.range count).flatMap fun n => drawn (s.bind iterand (Path.item (s.concrete iterable) n)) body := by
  unfold itemCount at h
  split at h
  · rename_i hmiss
    obtain rfl := Except.ok.inj h
    simp [drawn, Scope.lookup?, hmiss]
  · rename_i hnull
    obtain rfl := Except.ok.inj h
    simp [drawn, Scope.lookup?, hnull]
  · rename_i items hitems
    obtain rfl := Except.ok.inj h
    simp [drawn, Scope.lookup?, hitems]
  · cases h

mutual

/-- The elements that are made come in the order in which a template draws them. -/
theorem forall₂_expand {owner : ElementId} {parent slot : String} {s : Scope} {r : Rendered} (t : Template)
    (h : expand owner parent slot s t = .ok r) (above : Option String) :
    List.Forall₂ (fun place v => Shape.Draws place v.1) (t.drawn s) (VisualElement.walkAll above r.elements) := by
  match t with
  | .element shape children =>
    rw [expand] at h
    split at h
    · cases h
    · rename_i inner hinner
      obtain rfl := Except.ok.inj h
      have hchildren := forall₂_expandChildren children hinner (some (parent ++ "_" ++ slot))
      simp only [VisualElement.walkAll, VisualElement.walk_eq, List.append_nil, drawn]
      exact .cons ⟨_, _, rfl⟩ hchildren
  | .iteration iterable iterand body =>
    rw [expand] at h
    split at h
    · cases h
    · rename_i count hcount
      rw [drawn_iteration body hcount, List.range_eq_range']
      exact Rendered.forall₂_overItems (fun n r hitem => forall₂_expand body hitem above) h
  | .decision condition yes no =>
    unfold expand at h
    unfold drawn
    by_cases hholds : (condition.verdict s).1 = true
    · simp only [hholds, if_true] at h ⊢
      obtain ⟨first, more, hfirst, hmore, helements⟩ := Rendered.of_andThen h
      obtain rfl := Except.ok.inj hfirst
      rw [helements]
      exact forall₂_expand yes hmore above
    · simp only [hholds, Bool.false_eq_true, if_false] at h ⊢
      match no with
      | none =>
        obtain rfl := Except.ok.inj h
        exact .nil
      | some no =>
        obtain ⟨first, more, hfirst, hmore, helements⟩ := Rendered.of_andThen h
        obtain rfl := Except.ok.inj hfirst
        rw [helements]
        exact forall₂_expand no hmore above

theorem forall₂_expandChildren {owner : ElementId} {parent : String} {s : Scope} {n : Nat} {r : Rendered}
    (ts : List Template) (h : expandChildren owner parent s n ts = .ok r) (above : Option String) :
    List.Forall₂ (fun place v => Shape.Draws place v.1) (drawnAll s ts) (VisualElement.walkAll above r.elements) := by
  match ts with
  | [] =>
    obtain rfl := Except.ok.inj h
    exact .nil
  | t :: rest =>
    obtain ⟨first, more, hfirst, hmore, helements⟩ := Rendered.of_andThen h
    rw [helements, VisualElement.walkAll_append, drawnAll]
    exact List.rel_append (forall₂_expand t hfirst above) (forall₂_expandChildren rest hmore above)

end

theorem mem_drawnAll {s : Scope} {ts : List Template} {place : Shape × Scope} (h : place ∈ drawnAll s ts) :
    ∃ t ∈ ts, place ∈ t.drawn s := by
  induction ts with
  | nil => cases h
  | cons t rest ih =>
    rw [drawnAll, List.mem_append] at h
    rcases h with h | h
    · exact ⟨t, List.mem_cons_self, h⟩
    · obtain ⟨u, hu, hplace⟩ := ih h
      exact ⟨u, List.mem_cons_of_mem _ hu, hplace⟩

/-- A sound template is followed in sound scopes only. -/
theorem Sound.of_mem_drawn {t : Template} (ht : t.Sound) {data : Value} {s : Scope} (hs : s.Sound data)
    {place : Shape × Scope} (h : place ∈ t.drawn s) : place.1.Sound ∧ place.2.Sound data := by
  -- the scope grows with every iteration, and stays sound
  induction ht generalizing s with
  | element hshape _ ih =>
    rw [drawn, List.mem_cons] at h
    rcases h with rfl | h
    · exact ⟨hshape, hs⟩
    · obtain ⟨child, hchild, hplace⟩ := mem_drawnAll h
      exact ih child hchild hs hplace
  | @iteration iterable iterand body hiterable _ ih =>
    unfold drawn at h
    split at h
    · rename_i items hitems
      obtain ⟨n, hn, hplace⟩ := List.mem_flatMap.mp h
      exact ih (hs.bind hiterable.toLegible hitems (List.mem_range.mp hn) iterand) hplace
    · cases h
  | decision _ _ ihyes ihno =>
    unfold drawn at h
    split at h
    · exact ihyes hs h
    · split at h
      · cases h
      · exact ihno _ rfl hs h

end Template

namespace RootTemplate

/-- Like the template of a part; the element itself comes first, in the scope of its data. -/
def drawn (t : RootTemplate) (data : Value) : List (Shape × Scope) :=
  (t.shape, Scope.ofData data) :: Template.drawnAll (Scope.ofData data) t.children

theorem Sound.of_mem_drawn {t : RootTemplate} (ht : t.Sound) {data : Value} {place : Shape × Scope}
    (h : place ∈ t.drawn data) : place.1.Sound ∧ place.2.Sound data := by
  rcases List.mem_cons.mp h with rfl | h
  · exact ⟨ht.shape, Scope.sound_ofData data⟩
  · obtain ⟨child, hchild, hplace⟩ := Template.mem_drawnAll h
    exact (ht.children child hchild).of_mem_drawn (Scope.sound_ofData data) hplace

theorem forall₂_render {t : RootTemplate} {id : ElementId} {data : Value} {v : VisualElement}
    {diagnostics : List Diagnostic} (h : t.render id data = .ok (v, diagnostics)) (above : Option String) :
    List.Forall₂ (fun place v => Shape.Draws place v.1) (t.drawn data) (v.walk above) := by
  rw [render] at h
  split at h
  · cases h
  · rename_i inner hinner
    obtain ⟨rfl, _⟩ := Prod.mk.inj (Except.ok.inj h)
    rw [VisualElement.walk_eq]
    exact .cons ⟨_, _, rfl⟩ (Template.forall₂_expandChildren t.children hinner _)

end RootTemplate

/-! ### Properties and arguments -/

namespace Shape

variable {s : Scope} {ps : List (String × Property)} {name : String}

theorem bindingName_injective {other : String} (h : bindingName name = bindingName other) : name = other := by
  have hchars := congrArg String.toList h
  simp only [bindingName, String.toList_append] at hchars
  exact String.toList_inj.mp (List.append_cancel_right hchars)

/-- A property leaves the others alone, and what is recorded of them. -/
theorem addProperty_of_ne {p : String × Property} (h : name ≠ p.1) (parts : Parts) :
    (addProperty s parts p).properties.get? name = parts.properties.get? name ∧
      (addProperty s parts p).args.get? (bindingName name) = parts.args.get? (bindingName name) := by
  obtain ⟨other, property⟩ := p
  have hbinding : bindingName name ≠ bindingName other := fun heq => h (bindingName_injective heq)
  cases property with
  | literal v => exact ⟨Members.get?_insert_of_ne v _ h, rfl⟩
  | bound text =>
    refine ⟨?_, Members.get?_insert_of_ne _ _ hbinding⟩
    simp only [addProperty]
    split
    · exact Members.get?_insert_of_ne _ _ h
    · rfl

theorem foldl_addProperty_of_notMem (h : name ∉ ps.map Prod.fst) (parts : Parts) :
    (ps.foldl (addProperty s) parts).properties.get? name = parts.properties.get? name ∧
      (ps.foldl (addProperty s) parts).args.get? (bindingName name) = parts.args.get? (bindingName name) := by
  induction ps generalizing parts with
  | nil => exact ⟨rfl, rfl⟩
  | cons p ps ih =>
    rw [List.map_cons, List.mem_cons, not_or] at h
    obtain ⟨hproperties, hargs⟩ := ih h.2 (addProperty s parts p)
    obtain ⟨hproperties', hargs'⟩ := addProperty_of_ne (s := s) h.1 parts
    exact ⟨hproperties.trans hproperties', hargs.trans hargs'⟩

/-- A bound property shows what its text stands for, and its path is recorded. -/
theorem foldl_addProperty_bound {text : BoundText} (hps : (ps.map Prod.fst).Nodup) (h : (name, .bound text) ∈ ps)
    (parts : Parts) :
    (ps.foldl (addProperty s) parts).properties.get? name = (s.render? text).or (parts.properties.get? name) ∧
      (ps.foldl (addProperty s) parts).args.get? (bindingName name) =
        some (.string (s.concrete text.primary).print) := by
  induction ps generalizing parts with
  | nil => cases h
  | cons p ps ih =>
    obtain ⟨hfirst, hrest⟩ := List.nodup_cons.mp hps
    rcases List.mem_cons.mp h with rfl | h
    · obtain ⟨hproperties, hargs⟩ :=
        foldl_addProperty_of_notMem (s := s) hfirst (addProperty s parts (name, .bound text))
      refine ⟨hproperties.trans ?_, hargs.trans (Members.get?_insert_self _ _ _)⟩
      simp only [addProperty]
      split
      · rename_i v hv
        rw [Members.get?_insert_self, hv, Option.some_or]
      · rename_i hv
        rw [hv, Option.none_or]
    · have hne : name ≠ p.1 := by
        rintro rfl
        exact hfirst (List.mem_map.mpr ⟨_, h, rfl⟩)
      obtain ⟨hproperties, hargs⟩ := ih hrest h (addProperty s parts p)
      exact ⟨hproperties.trans (by rw [(addProperty_of_ne hne parts).1]), hargs⟩

/-- Properties and arguments are kept in order. -/
structure Parts.Ascending (parts : Parts) : Prop where
  properties : parts.properties.Ascending
  args : parts.args.Ascending

theorem Parts.Ascending.addProperty {parts : Parts} (h : parts.Ascending) (p : String × Property) :
    (addProperty s parts p).Ascending := by
  obtain ⟨name, property⟩ := p
  cases property with
  | literal v => exact ⟨h.properties.insert name v, h.args⟩
  | bound text =>
    refine ⟨?_, h.args.insert _ _⟩
    simp only [Shape.addProperty]
    split
    · exact h.properties.insert _ _
    · exact h.properties

theorem Sound.ascending_render {shape : Shape} (h : shape.Sound) (s : Scope) : (shape.render s).Ascending := by
  have hfold : ∀ (ps : List (String × Property)) (parts : Parts), parts.Ascending →
      (ps.foldl (addProperty s) parts).Ascending := by
    intro ps
    induction ps with
    | nil => exact fun parts hparts => hparts
    | cons p ps ih => exact fun parts hparts => ih _ (hparts.addProperty p)
  exact hfold shape.properties _ ⟨List.Pairwise.nil, h.args⟩

end Shape

end DiagramEditor
