import DiagramEditor.Proofs.Session.LabelEdit
import DiagramEditor.Proofs.Visual.Ids

/-!
# Looking up rendered elements

The index has one table for everything that was rendered. It is filled root by root, and an
entry takes the place of an earlier one of its id. While the elements of a model keep their
ids apart, every rendered element has its entry and can be found by it. Otherwise an id
leads to what was drawn last under it.
-/

set_option autoImplicit false

namespace DiagramEditor

open Json
open VisualElement (walkAll idsOf)

namespace Table

variable {κ α : Type} [DecidableEq κ] {key : κ}

/-- Puts in one entry after the other. -/
def putAll (entries t : Table κ α) : Table κ α := entries.foldl (fun t p => put p.1 p.2 t) t

theorem get?_append (key : κ) (t u : Table κ α) : get? key (t ++ u) = (get? key t).or (get? key u) := by
  induction t with
  | nil => rfl
  | cons p t ih => by_cases hp : p.1 = key <;> simp [get?, hp, ih]

/-- The last entry of a key is the one that is found. -/
theorem get?_putAll (key : κ) (entries t : Table κ α) :
    get? key (putAll entries t) = (get? key entries.reverse).or (get? key t) := by
  induction entries generalizing t with
  | nil => rfl
  | cons p entries ih =>
    rw [putAll, List.foldl_cons, ← putAll, ih, List.reverse_cons, get?_append, Option.or_assoc]
    congr 1
    by_cases hp : p.1 = key
    · simp [← hp, get?_put_self, get?]
    · simp [get?_put_of_ne _ _ (Ne.symm hp), get?, hp]

theorem putAll_of_nodup {entries t : Table κ α} (h : ((t ++ entries).map Prod.fst).Nodup) :
    putAll entries t = t ++ entries := by
  induction entries generalizing t with
  | nil => simp [putAll]
  | cons p entries ih =>
    have hnew : get? p.1 t = none := by
      rw [get?_eq_none_iff]
      rw [List.map_append, List.nodup_append] at h
      exact fun hp => h.2.2 _ hp _ (by simp) rfl
    rw [putAll, List.foldl_cons, ← putAll, put_of_get?_eq_none _ hnew, ih (by simpa using h)]
    simp

end Table

/-! ### Entries -/

namespace VisualElement

def entries (root : VisualElement) : Table String VisualEntry :=
  (root.walk none).map fun f => (f.1.id, Index.entryOf root.id f)

def entriesOf (roots : List VisualElement) : Table String VisualEntry := roots.flatMap entries

theorem keys_entries (root : VisualElement) : root.entries.map Prod.fst = idsOf (root.walk none) := by
  rw [entries, List.map_map]
  rfl

theorem keys_entriesOf (roots : List VisualElement) :
    (entriesOf roots).map Prod.fst = idsOf (walkAll none roots) := by
  induction roots with
  | nil => rfl
  | cons root rest ih =>
    rw [entriesOf, List.flatMap_cons, List.map_append, keys_entries, ← entriesOf, ih, walkAll, idsOf, idsOf, idsOf,
      List.map_append]

theorem mem_entriesOf {roots : List VisualElement} {p : String × VisualEntry} :
    p ∈ entriesOf roots ↔ ∃ root ∈ roots, ∃ f ∈ root.walk none, p = (f.1.id, Index.entryOf root.id f) := by
  simp only [entriesOf, List.mem_flatMap, entries, List.mem_map, eq_comm]

mutual

theorem find?_eq (id : String) (above : Option String) (v : VisualElement) :
    v.find? id = Table.get? id ((v.walk above).map fun f => (f.1.id, f.1)) := by
  match v with
  | ⟨own, kind, properties, args, children⟩ =>
    rw [find?, walk, List.map_cons, Table.get?, findAmong?_eq id (some own) children]

theorem findAmong?_eq (id : String) (above : Option String) (vs : List VisualElement) :
    findAmong? id vs = Table.get? id ((walkAll above vs).map fun f => (f.1.id, f.1)) := by
  match vs with
  | [] => rfl
  | v :: rest =>
    rw [findAmong?, walkAll, List.map_append, Table.get?_append, ← find?_eq id above v, ← findAmong?_eq id above rest]
    cases v.find? id <;> rfl

end

end VisualElement

namespace VisualGraph

theorem find?_of_nodup {g : VisualGraph} (h : (idsOf (walkAll none g.children)).Nodup)
    {f : VisualElement × Option String} (hf : f ∈ walkAll none g.children) : g.find? f.1.id = some f.1 := by
  rw [find?, VisualElement.findAmong?_eq f.1.id none]
  refine Table.get?_of_mem ?_ (List.mem_map.mpr ⟨f, hf, rfl⟩)
  rw [List.map_map]
  exact h

end VisualGraph

namespace Index

variable {x : Index} {g : VisualGraph} {owner top : ElementId}

theorem visuals_indexVisuals (x : Index) (g : VisualGraph) :
    (x.indexVisuals g).visuals = Table.putAll (VisualElement.entriesOf g.children) [] := by
  simp only [indexVisuals, Table.putAll, VisualElement.entriesOf, List.foldl_flatMap, VisualElement.entries,
    List.foldl_map]
  rfl

/-- From an id the parents lead up to a root. -/
inductive Climbs (x : Index) : String → String → Prop
  | top {id : String} {entry : VisualEntry} :
    x.visual? id = some entry → entry.parent = none → x.Climbs id id
  | up {id above top : String} {entry : VisualEntry} :
    x.visual? id = some entry → entry.parent = some above → x.Climbs above top → x.Climbs id top

mutual

theorem climbs_of_walk {above : String} (habove : x.Climbs above top) (v : VisualElement)
    (h : ∀ f ∈ v.walk (some above), x.visual? f.1.id = some (entryOf owner f)) :
    ∀ f ∈ v.walk (some above), x.Climbs f.1.id top := by
  match v with
  | ⟨id, kind, properties, args, children⟩ =>
    rw [VisualElement.walk, List.forall_mem_cons] at h ⊢
    have hself : x.Climbs id top := .up h.1 rfl habove
    exact ⟨hself, climbs_of_walkAll hself children h.2⟩

theorem climbs_of_walkAll {above : String} (habove : x.Climbs above top) (vs : List VisualElement)
    (h : ∀ f ∈ walkAll (some above) vs, x.visual? f.1.id = some (entryOf owner f)) :
    ∀ f ∈ walkAll (some above) vs, x.Climbs f.1.id top := by
  match vs with
  | [] => exact fun _ hf => absurd hf List.not_mem_nil
  | v :: rest =>
    rw [walkAll, List.forall_mem_append] at h ⊢
    exact ⟨climbs_of_walk habove v h.1, climbs_of_walkAll habove rest h.2⟩

end

theorem climbs_root {root : VisualElement}
    (h : ∀ f ∈ root.walk none, x.visual? f.1.id = some (entryOf root.id f)) :
    ∀ f ∈ root.walk none, x.Climbs f.1.id root.id := by
  rw [VisualElement.walk_eq, List.forall_mem_cons] at h ⊢
  have hroot : x.Climbs root.id root.id := .top h.1 rfl
  exact ⟨hroot, climbs_of_walkAll hroot root.children h.2⟩

/-- The entry of an id that is drawn once under a root, unless a later root draws it again. -/
theorem visual?_indexVisuals {before after : List VisualElement} {root : VisualElement}
    (hg : g.children = before ++ root :: after) (hroot : (idsOf (root.walk none)).Nodup)
    {f : VisualElement × Option String} (hf : f ∈ root.walk none) :
    (x.indexVisuals g).visual? f.1.id =
      (Table.get? f.1.id (VisualElement.entriesOf after).reverse).or (some (entryOf root.id f)) := by
  have hown : Table.get? f.1.id root.entries.reverse = some (entryOf root.id f) := by
    refine Table.get?_of_mem ?_ (List.mem_reverse.mpr (List.mem_map_of_mem hf))
    rw [List.map_reverse, List.nodup_reverse, VisualElement.keys_entries]
    exact hroot
  rw [visual?, visuals_indexVisuals, Table.get?_putAll, hg, VisualElement.entriesOf, List.flatMap_append,
    List.flatMap_cons, List.reverse_append, List.reverse_append, Table.get?_append, Table.get?_append, hown,
    ← VisualElement.entriesOf, Table.get?, Option.or_none, Option.or_assoc, Option.some_or]

end Index

namespace Diagram

variable {d d' : Diagram} {l : Language} {r : Rendering} {root : VisualElement} {f : VisualElement × Option String}

/-- The id of `f` leads to `f` itself, drawn under `root`, and an edit of the label of that
id goes to the element of `root`. -/
structure LeadsTo (d : Diagram) (root : VisualElement) (f : VisualElement × Option String) : Prop where
  entry : d.index.visual? f.1.id = some ⟨f.1.kind, f.2, root.id, f.1.args⟩
  nearest : d.index.nearest? f.1.id = some root.id
  edited : ∀ o p, Operation.labelTarget? d f.1.id = some (o, p) → o.id = root.id

theorem leadsTo_of_visual? (hd : d.InStep) (hroot : root.id ∈ d.model.ids)
    (h : d.index.visual? f.1.id = some (Index.entryOf root.id f)) : d.LeadsTo root f where
  entry := h
  nearest := by simp [Index.nearest?, h, Index.entryOf, hd.contains_eq, Model.contains_iff.mpr hroot]
  edited := by
    intro o p htarget
    obtain ⟨entry, _, hentry, _, _, ho⟩ := Operation.of_labelTarget? htarget
    obtain rfl := Option.some.inj (h.symm.trans hentry)
    rw [hd.element?_eq] at ho
    exact (Model.mem_of_element? ho).2

theorem root_mem_ids (h : d.render l = .ok (d', r)) (hroot : root ∈ r.graph.children) : root.id ∈ d'.model.ids := by
  have hmem := List.mem_map_of_mem (f := VisualElement.id) hroot
  rw [Language.render_roots (of_render h).1] at hmem
  exact hmem

/-! ### Elements with their ids apart -/

/-- The index leads from every rendered element to its own place in the rendering. -/
structure Finds (d : Diagram) (r : Rendering) : Prop where
  distinct : (idsOf (walkAll none r.graph.children)).Nodup
  count : d.index.visuals.length = (walkAll none r.graph.children).length
  roots : ∀ root ∈ r.graph.children, ∃ e ∈ d.model.elements, e.id = root.id
  leads : ∀ root ∈ r.graph.children, ∀ f ∈ root.walk none, d.LeadsTo root f
  climbs : ∀ root ∈ r.graph.children, ∀ f ∈ root.walk none, d.index.Climbs f.1.id root.id
  finds : ∀ f ∈ walkAll none r.graph.children, r.graph.find? f.1.id = some f.1

theorem nodup_of_render (hd : d.InStep) (hids : Language.Separate d.model.ids) (h : d.render l = .ok (d', r)) :
    (idsOf (walkAll none r.graph.children)).Nodup := by
  have hrender := (of_render h).1
  rw [model_of_render h, Language.render] at hrender
  split at hrender
  · cases hrender
  · rename_i all hall
    obtain rfl := Except.ok.inj hrender
    have hnodup : (d.model.elements.map Element.id).Nodup := d.model.ids_elements ▸ hd.closed.ids
    exact (Language.nodup_renderAll hall hnodup (d.model.ids_elements.symm ▸ hids)).1

/-- Where no id of an element is that of another with an underscore and more behind it,
rendered ids are distinct and lead back to what they were given to. -/
theorem finds_of_render (hd : d.Reachable) (hids : Language.Separate d.model.ids)
    (h : d.render l = .ok (d', r)) : d'.Finds r := by
  have hstep := InStep.of_reachable hd
  have hnodup := nodup_of_render hstep hids h
  have hkeys : ((VisualElement.entriesOf r.graph.children).map Prod.fst).Nodup := by
    rw [VisualElement.keys_entriesOf]
    exact hnodup
  have hvisuals : d'.index.visuals = VisualElement.entriesOf r.graph.children := by
    rw [← (of_render h).2, Index.visuals_indexVisuals]
    exact Table.putAll_of_nodup hkeys
  have hentries : ∀ root ∈ r.graph.children, ∀ f ∈ root.walk none,
      d'.index.visual? f.1.id = some (Index.entryOf root.id f) := by
    intro root hroot f hf
    rw [Index.visual?, hvisuals]
    exact Table.get?_of_mem hkeys (VisualElement.mem_entriesOf.mpr ⟨root, hroot, f, hf, rfl⟩)
  exact {
    distinct := hnodup
    count := by
      have hlength := congrArg List.length (VisualElement.keys_entriesOf r.graph.children)
      rwa [idsOf, List.length_map, List.length_map, ← hvisuals] at hlength
    roots := by
      intro root hroot
      obtain ⟨e, he, hid, _⟩ := Language.of_mem_render (of_render h).1 hroot
      exact ⟨e, he, hid⟩
    leads := fun root hroot f hf =>
      leadsTo_of_visual? (hstep.render h) (root_mem_ids h hroot) (hentries root hroot f hf)
    climbs := fun root hroot => Index.climbs_root (hentries root hroot)
    finds := fun f hf => VisualGraph.find?_of_nodup hnodup hf }

/-- Two classes that are linked. -/
def classes : Model :=
  ⟨"classes", [.sample, { Node.sample with id := "n1" }], [⟨"link", "", "n", "n1", [], .emptyObject⟩]⟩

theorem classes_finds_of_render :
    ∃ d d' r, ofModel classes = .ok d ∧ d.Reachable ∧ Language.Separate d.model.ids ∧
      d.render .sample = .ok (d', r) ∧ d'.Finds r := by
  obtain ⟨d, d', r, hd, hids, hr⟩ : ∃ d d' r, ofModel classes = .ok d ∧ d.model.ids = ["n", "n1", "link"] ∧
      d.render .sample = .ok (d', r) := ⟨_, _, _, rfl, rfl, rfl⟩
  have hseparate : Language.Separate d.model.ids := by
    rw [hids]
    decide
  have hreachable := reachable_of_ofModel hd
  exact ⟨d, d', r, hd, hreachable, hseparate, hr, finds_of_render hreachable hseparate hr⟩

/-! ### Elements of any ids -/

/-- An id leads to what was drawn under it last. What is drawn under a root is found by its
id unless the id is drawn again under a later root, and it is that of a later root then. -/
theorem leadsTo_of_render (hd : d.Reachable) (h : d.render l = .ok (d', r)) {before after : List VisualElement}
    (hg : r.graph.children = before ++ root :: after) (hf : f ∈ root.walk none) :
    (f.1.id ∉ idsOf (walkAll none after) → d'.LeadsTo root f) ∧
      (f.1.id ∈ idsOf (walkAll none after) →
        ∃ later ∈ after, later.id ≠ root.id ∧ ∃ g ∈ later.walk none, g.1.id = f.1.id ∧ d'.LeadsTo later g) := by
  have hstep := (InStep.of_reachable hd).render h
  have hroots : root ∈ r.graph.children ∧ ∀ later ∈ after, later ∈ r.graph.children := by
    rw [hg]
    exact ⟨by simp, fun later hlater => by simp [hlater]⟩
  obtain ⟨e, _, _, made, hmade, hroot⟩ := Language.of_mem_render (of_render h).1 hroots.1
  have hnodup := (Language.within_renderElement hmade).nodup
  rw [hroot, walkAll, walkAll, List.append_nil] at hnodup
  have hvisual := Index.visual?_indexVisuals (x := d'.index) hg hnodup hf
  rw [(of_render h).2] at hvisual
  rw [← VisualElement.keys_entriesOf]
  refine ⟨fun hlast => ?_, fun hagain => ?_⟩
  · rw [← List.mem_reverse, ← List.map_reverse, ← Table.get?_eq_none_iff] at hlast
    rw [hlast, Option.none_or] at hvisual
    exact leadsTo_of_visual? hstep (root_mem_ids h hroots.1) hvisual
  · rw [← List.mem_reverse, ← List.map_reverse, ← Table.isSome_get?_iff, Option.isSome_iff_exists] at hagain
    obtain ⟨entry, hentry⟩ := hagain
    obtain ⟨later, hlater, g, hgwalk, heq⟩ :=
      VisualElement.mem_entriesOf.mp (List.mem_reverse.mp (Table.mem_of_get? hentry))
    obtain ⟨hid, rfl⟩ := Prod.mk.inj heq
    rw [hentry, Option.some_or, hid] at hvisual
    have hne : later.id ≠ root.id := by
      intro hsame
      have hids : (r.graph.children.map VisualElement.id).Nodup := by
        rw [Language.render_roots (of_render h).1]
        exact hstep.closed.ids
      rw [hg, List.map_append, List.map_cons] at hids
      exact (List.nodup_cons.mp (List.nodup_append.mp hids).2.1).1 (hsame ▸ List.mem_map_of_mem hlater)
    exact ⟨later, hlater, hne, g, hgwalk, hid.symm,
      leadsTo_of_visual? hstep (root_mem_ids h (hroots.2 later hlater)) hvisual⟩

/-- The second class has the id of a label that is drawn for the first. -/
def colliding : Model :=
  let title : Value := .object [("title", .string "M")]
  ⟨"colliding", [.sample, ⟨"n_child0_group0_attribute0", "class", .origin, none, title⟩], []⟩

theorem colliding_leadsTo_of_render :
    ∃ d d' r root later f, ofModel colliding = .ok d ∧ d.Reachable ∧ d.render .sample = .ok (d', r) ∧
      r.graph.children = [] ++ root :: [later] ∧ f ∈ root.walk none ∧
      (f.1.id ∉ idsOf (walkAll none [later]) → d'.LeadsTo root f) ∧
      (f.1.id ∈ idsOf (walkAll none [later]) →
        ∃ last ∈ [later], last.id ≠ root.id ∧ ∃ g ∈ last.walk none, g.1.id = f.1.id ∧ d'.LeadsTo last g) := by
  obtain ⟨d, d', r, root, later, f, hd, hr, hg, hf⟩ : ∃ d d' r root later f, ofModel colliding = .ok d ∧
      d.render .sample = .ok (d', r) ∧ r.graph.children = [] ++ root :: [later] ∧
      (root.walk none)[1]? = some f := ⟨_, _, _, _, _, _, rfl, rfl, rfl, rfl⟩
  have hmem := List.mem_of_getElem? hf
  have hreachable := reachable_of_ofModel hd
  exact ⟨d, d', r, root, later, f, hd, hreachable, hr, hg, hmem, leadsTo_of_render hreachable hr hg hmem⟩

/-- The id of the label leads to the second class, and so does an edit of the label. -/
theorem colliding_captures :
    ∃ d d' r root f entry o p, ofModel colliding = .ok d ∧ d.render .sample = .ok (d', r) ∧
      root ∈ r.graph.children ∧ f ∈ root.walk none ∧ f.1.id ≠ root.id ∧
      d'.index.visual? f.1.id = some entry ∧ entry.owner ≠ root.id ∧ d'.index.nearest? f.1.id = some entry.owner ∧
      Operation.labelTarget? d' f.1.id = some (o, p) ∧ o.id ≠ root.id := by
  obtain ⟨d, d', r, root, f, entry, o, p, hd, hr, hroot, hf, hid, hlabel, hentry, howner, hnearest, htarget, ho⟩ :
      ∃ d d' r root f entry o p, ofModel colliding = .ok d ∧ d.render .sample = .ok (d', r) ∧
        r.graph.children[0]? = some root ∧ (root.walk none)[1]? = some f ∧ root.id = "n" ∧
        f.1.id = "n_child0_group0_attribute0" ∧ d'.index.visual? f.1.id = some entry ∧ entry.owner = f.1.id ∧
        d'.index.nearest? f.1.id = some entry.owner ∧ Operation.labelTarget? d' f.1.id = some (o, p) ∧
        o.id = f.1.id :=
    ⟨_, _, _, _, _, _, _, _, rfl, rfl, rfl, rfl, rfl, rfl, rfl, rfl, rfl, rfl, rfl⟩
  have hne : f.1.id ≠ root.id := by
    rw [hid, hlabel]
    decide
  exact ⟨d, d', r, root, f, entry, o, p, hd, hr, List.mem_of_getElem? hroot, List.mem_of_getElem? hf, hne, hentry,
    howner ▸ hne, hnearest, htarget, ho ▸ hne⟩

end Diagram

end DiagramEditor
