import DiagramEditor.Proofs.Operation.EditLabel
import DiagramEditor.Proofs.Path.Printing
import DiagramEditor.Proofs.Visual.Bindings

/-!
# Ids of rendered elements

The id of a rendered element is put together without any mark of where its parts end, yet
it can be told apart from every other: whatever is drawn in a slot goes by the id of the
slot, or by that id, an underscore and more, and in such ids the number of a slot or of an
item ends where its digits end. Elements of a model that keep as much distance have no
rendered id in common.
-/

set_option autoImplicit false

namespace DiagramEditor

open Json

def Under (place id : String) : Prop := id = place ∨ ∃ rest, id = place ++ "_" ++ rest

namespace Under

variable {place id : String}

theorem below (h : Under place id) {slot top : String} (hplace : place = top ++ "_" ++ slot) : Under top id := by
  rcases h with rfl | ⟨rest, rfl⟩
  · exact .inr ⟨slot, hplace⟩
  · exact .inr ⟨slot ++ "_" ++ rest, by simp only [hplace, String.append_assoc]⟩

/-- What follows the place starts with an underscore. -/
theorem tail (h : Under place id) : ∃ cs, id.toList = place.toList ++ cs ∧ ∀ c ∈ cs.head?, c = '_' := by
  rcases h with rfl | ⟨rest, rfl⟩
  · exact ⟨[], by simp⟩
  · exact ⟨'_' :: rest.toList, by simp⟩

theorem not_above {top slot : String} (hplace : place = top ++ "_" ++ slot) : ¬ Under place top := by
  intro h
  have hlength : place.length = top.length + 1 + slot.length := by
    rw [hplace, String.length_append, String.length_append]
    rfl
  rcases h with heq | ⟨rest, heq⟩
  · have := congrArg String.length heq
    omega
  · have := congrArg String.length heq
    simp only [String.length_append] at this
    omega

/-- A number at the end of a place is read off whatever is under the place. -/
theorem number_unique {stem : String} {m n : Nat} (hm : Under (stem ++ toString m) id)
    (hn : Under (stem ++ toString n) id) : m = n := by
  obtain ⟨cs, hcs, hleft⟩ := hm.tail
  obtain ⟨ds, hds, hright⟩ := hn.tail
  have hnumber : ∀ {es : List Char}, (∀ c ∈ es.head?, c = '_') → ∀ c ∈ es.head?, c.isDigit = false := by
    intro es hes c hc
    rw [hes c hc]
    rfl
  have heq : (toString m).toList ++ cs = (toString n).toList ++ ds := by
    simpa [String.toList_append, List.append_assoc] using hcs.symm.trans hds
  have hdigits := Path.append_inj_of_head (p := Char.isDigit) (fun _ hc => Text.isDigit_of_mem_toString hc)
    (fun _ hc => Text.isDigit_of_mem_toString hc) (hnumber hleft) (hnumber hright) heq
  exact Text.toString_injective hdigits.1

/-- Of two places over the same id one is under the other. -/
theorem comparable {other : String} (h : Under place id) (hother : Under other id) :
    other = place ∨ (∃ rest, other = place ++ "_" ++ rest) ∨ ∃ rest, place = other ++ "_" ++ rest := by
  obtain ⟨cs, hcs, hleft⟩ := h.tail
  obtain ⟨ds, hds, hright⟩ := hother.tail
  have hlonger : ∀ {a b : String} {es xs ys : List Char}, b.toList = a.toList ++ es → xs = es ++ ys →
      (∀ c ∈ xs.head?, c = '_') → b = a ∨ ∃ rest, b = a ++ "_" ++ rest := by
    intro a b es xs ys hb hxs hhead
    cases es with
    | nil => exact .inl (String.toList_inj.mp (by simpa using hb))
    | cons c es =>
      obtain rfl : c = '_' := hhead c (by rw [hxs]; rfl)
      exact .inr ⟨String.ofList es, String.toList_inj.mp (by simp [hb])⟩
  rcases List.append_eq_append_iff.mp (hcs.symm.trans hds) with ⟨es, hes, hrest⟩ | ⟨es, hes, hrest⟩
  · exact (hlonger hes hrest hleft).imp_right .inl
  · rcases hlonger hes hrest hright with heq | hbelow
    · exact .inl heq.symm
    · exact .inr (.inr hbelow)

end Under

/-! ### Ids in places -/

/-- Distinct ids of one place. -/
structure Within (place : String) (ids : List String) : Prop where
  nodup : ids.Nodup
  under : ∀ id ∈ ids, Under place id

/-- Distinct ids of places that are numbered from `n` on. -/
structure Numbered (stem : String) (n : Nat) (ids : List String) : Prop where
  nodup : ids.Nodup
  under : ∀ id ∈ ids, ∃ k, n ≤ k ∧ Under (stem ++ toString k) id

namespace Numbered

variable {stem : String} {n : Nat} {ids : List String}

theorem nil (stem : String) (n : Nat) : Numbered stem n [] := ⟨List.nodup_nil, by simp⟩

theorem cons {first : List String} (hfirst : Within (stem ++ toString n) first) (h : Numbered stem (n + 1) ids) :
    Numbered stem n (first ++ ids) where
  nodup := by
    refine List.nodup_append.mpr ⟨hfirst.nodup, h.nodup, fun id hid other hother heq => ?_⟩
    subst heq
    obtain ⟨k, hk, hunder⟩ := h.under id hother
    have hnumber := (hfirst.under id hid).number_unique hunder
    omega
  under := by
    intro id hid
    rcases List.mem_append.mp hid with hid | hid
    · exact ⟨n, le_refl n, hfirst.under id hid⟩
    · obtain ⟨k, hk, hunder⟩ := h.under id hid
      exact ⟨k, by omega, hunder⟩

theorem below (h : Numbered stem n ids) {place name : String} (hstem : stem = place ++ "_" ++ name) :
    Within place ids where
  nodup := h.nodup
  under := by
    intro id hid
    obtain ⟨k, _, hunder⟩ := h.under id hid
    have hplace : stem ++ toString k = place ++ "_" ++ (name ++ toString k) := by
      simp only [hstem, String.append_assoc]
    exact hunder.below hplace

/-- A place together with the numbered ones below it. -/
theorem within_cons (h : Numbered stem n ids) {place name : String} (hstem : stem = place ++ "_" ++ name) :
    Within place (place :: ids) where
  nodup := by
    refine List.nodup_cons.mpr ⟨fun hid => ?_, h.nodup⟩
    obtain ⟨k, _, hunder⟩ := h.under place hid
    have hplace : stem ++ toString k = place ++ "_" ++ (name ++ toString k) := by
      simp only [hstem, String.append_assoc]
    exact Under.not_above hplace hunder
  under := List.forall_mem_cons.mpr ⟨.inl rfl, (h.below hstem).under⟩

end Numbered

/-! ### Ids of templates -/

namespace VisualElement

def idsOf (found : List (VisualElement × Option String)) : List String := found.map fun f => f.1.id

theorem idsOf_walk (above : Option String) (v : VisualElement) :
    idsOf (v.walk above) = v.id :: idsOf (walkAll (some v.id) v.children) := by
  rw [walk_eq]
  rfl

theorem idsOf_walkAll_append (above : Option String) (vs ws : List VisualElement) :
    idsOf (walkAll above (vs ++ ws)) = idsOf (walkAll above vs) ++ idsOf (walkAll above ws) := by
  rw [walkAll_append, idsOf, List.map_append]
  rfl

end VisualElement

open VisualElement (walkAll idsOf)

theorem Rendered.numbered_overItems {stem : String} {above : Option String}
    {item : Nat → Except TemplateFault Rendered}
    (hitem : ∀ n r, item n = .ok r → Within (stem ++ toString n) (idsOf (walkAll above r.elements)))
    {n count : Nat} {r : Rendered} (h : overItems item n count = .ok r) :
    Numbered stem n (idsOf (walkAll above r.elements)) := by
  induction count generalizing n r with
  | zero =>
    obtain rfl := Except.ok.inj h
    exact .nil stem n
  | succ count ih =>
    obtain ⟨first, more, hfirst, hmore, helements⟩ := of_andThen h
    rw [helements, VisualElement.idsOf_walkAll_append]
    exact .cons (hitem n first hfirst) (ih hmore)

namespace Template

theorem child_stem (parent : String) : parent ++ "_child" = parent ++ "_" ++ "child" := by
  rw [String.append_assoc]
  rfl

mutual

/-- Whatever a template makes goes by distinct ids of its slot. -/
theorem within_expand {owner : ElementId} {s : Scope} {r : Rendered} {parent slot : String} (t : Template)
    (h : expand owner parent slot s t = .ok r) (above : Option String) :
    Within (parent ++ "_" ++ slot) (idsOf (walkAll above r.elements)) := by
  match t with
  | .element shape children =>
    rw [expand] at h
    split at h
    · cases h
    · rename_i inner hinner
      obtain rfl := Except.ok.inj h
      have hchildren := numbered_expandChildren children hinner (some (parent ++ "_" ++ slot))
      simp only [walkAll, List.append_nil, VisualElement.idsOf_walk]
      exact hchildren.within_cons (child_stem _)
  | .iteration iterable iterand body =>
    rw [expand] at h
    split at h
    · cases h
    · rename_i count hcount
      -- The iterand may itself end in digits: it is part of the stem, which is the same for all items.
      have hitems : Numbered (parent ++ "_" ++ slot ++ "_" ++ iterand) 0 (idsOf (walkAll above r.elements)) := by
        refine Rendered.numbered_overItems (fun n r hitem => ?_) h
        have hbody := within_expand body hitem above
        simpa only [String.append_assoc] using hbody
      exact hitems.below rfl
  | .decision condition yes no =>
    unfold expand at h
    by_cases hholds : (condition.verdict s).1 = true
    · simp only [hholds, if_true] at h
      obtain ⟨first, more, hfirst, hmore, helements⟩ := Rendered.of_andThen h
      obtain rfl := Except.ok.inj hfirst
      rw [helements]
      exact within_expand yes hmore above
    · simp only [hholds, Bool.false_eq_true, if_false] at h
      match no with
      | none =>
        obtain rfl := Except.ok.inj h
        exact ⟨List.nodup_nil, by simp [walkAll, idsOf]⟩
      | some no =>
        obtain ⟨first, more, hfirst, hmore, helements⟩ := Rendered.of_andThen h
        obtain rfl := Except.ok.inj hfirst
        rw [helements]
        exact within_expand no hmore above

theorem numbered_expandChildren {owner : ElementId} {s : Scope} {r : Rendered} {parent : String} {n : Nat}
    (ts : List Template) (h : expandChildren owner parent s n ts = .ok r) (above : Option String) :
    Numbered (parent ++ "_child") n (idsOf (walkAll above r.elements)) := by
  match ts with
  | [] =>
    obtain rfl := Except.ok.inj h
    exact .nil _ n
  | t :: rest =>
    obtain ⟨first, more, hfirst, hmore, helements⟩ := Rendered.of_andThen h
    have hslot := within_expand t hfirst above
    rw [← String.append_assoc, ← child_stem] at hslot
    rw [helements, VisualElement.idsOf_walkAll_append]
    exact .cons hslot (numbered_expandChildren rest hmore above)

end

end Template

namespace Language

variable {l : Language}

/-- Whatever is drawn for an element goes by distinct ids under the id of the element. -/
theorem within_renderElement {e : Element} {r : Rendered} (h : l.renderElement e = .ok r) :
    Within e.id (idsOf (walkAll none r.elements)) := by
  rw [renderElement] at h
  simp only [RootTemplate.render] at h
  cases hinner : Template.expandChildren e.id e.id (Scope.ofData e.data) 0 (l.templateFor e).1.children with
  | error fault => simp [hinner] at h
  | ok inner =>
    simp only [hinner, Except.ok.injEq] at h
    have hchildren := Template.numbered_expandChildren _ hinner (some e.id)
    rw [← h]
    simp only [walkAll, List.append_nil, VisualElement.idsOf_walk]
    exact hchildren.within_cons (Template.child_stem _)

/-- No id is another one with an underscore and more behind it. -/
def Separate (ids : List ElementId) : Prop := ∀ a ∈ ids, ∀ b ∈ ids, ∀ rest, b ≠ a ++ "_" ++ rest

theorem separate_iff {ids : List ElementId} :
    Separate ids ↔ ∀ a ∈ ids, ∀ b ∈ ids, ¬ (a ++ "_").toList <+: b.toList := by
  constructor
  · rintro h a ha b hb ⟨cs, hcs⟩
    exact h a ha b hb (String.ofList cs) (String.toList_inj.mp (by simpa using hcs.symm))
  · rintro h a ha b hb rest rfl
    exact h a ha _ hb (by simp [String.toList_append])

instance (ids : List ElementId) : Decidable (Separate ids) := decidable_of_iff _ separate_iff.symm

theorem nodup_renderAll {es : List Element} {r : Rendered} (h : l.renderAll es = .ok r)
    (hnodup : (es.map Element.id).Nodup) (hids : Separate (es.map Element.id)) :
    (idsOf (walkAll none r.elements)).Nodup ∧
      ∀ id ∈ idsOf (walkAll none r.elements), ∃ e ∈ es, Under e.id id := by
  induction es generalizing r with
  | nil =>
    obtain rfl := Except.ok.inj h
    exact ⟨List.nodup_nil, by simp [Rendered.nothing, walkAll, idsOf]⟩
  | cons e rest ih =>
    obtain ⟨first, more, hfirst, hmore, helements⟩ := Rendered.of_andThen h
    rw [List.map_cons, List.nodup_cons] at hnodup
    have hwithin := within_renderElement hfirst
    obtain ⟨hrest, hunder⟩ := ih hmore hnodup.2 fun a ha b hb =>
      hids a (List.mem_cons_of_mem _ ha) b (List.mem_cons_of_mem _ hb)
    rw [helements, VisualElement.idsOf_walkAll_append]
    refine ⟨List.nodup_append.mpr ⟨hwithin.nodup, hrest, fun id hid other hother heq => ?_⟩, fun id hid => ?_⟩
    · subst heq
      obtain ⟨e', he', hother⟩ := hunder id hother
      have hfirst : e.id ∈ (e :: rest).map Element.id := List.mem_map_of_mem List.mem_cons_self
      have hlater : e'.id ∈ (e :: rest).map Element.id := List.mem_map_of_mem (List.mem_cons_of_mem _ he')
      rcases (hwithin.under id hid).comparable hother with heq | ⟨more, heq⟩ | ⟨more, heq⟩
      · exact hnodup.1 (heq ▸ List.mem_map_of_mem he')
      · exact hids _ hfirst _ hlater more heq
      · exact hids _ hlater _ hfirst more heq
    · rcases List.mem_append.mp hid with hid | hid
      · exact ⟨e, List.mem_cons_self, hwithin.under id hid⟩
      · obtain ⟨e', he', hother⟩ := hunder id hid
        exact ⟨e', List.mem_cons_of_mem _ he', hother⟩

end Language

end DiagramEditor
