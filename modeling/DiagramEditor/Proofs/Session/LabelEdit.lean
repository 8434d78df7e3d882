import DiagramEditor.Proofs.Operation.EditLabel
import DiagramEditor.Proofs.Path.Assigning
import DiagramEditor.Proofs.Session.Runs
import DiagramEditor.Proofs.Visual.Bindings

/-!
# From a label to its data and back

A label records where its text comes from. An edit follows the record into the data of
the element the label was drawn for, and the next rendering shows the new text wherever
the same place is recorded.
-/

set_option autoImplicit false

namespace DiagramEditor

open Json

/-! ### Trees and elements -/

namespace Language

variable {l : Language}

theorem of_mem_renderAll {es : List Element} {r : Rendered} (h : l.renderAll es = .ok r) {root : VisualElement}
    (hroot : root ∈ r.elements) : ∃ e ∈ es, ∃ made, l.renderElement e = .ok made ∧ root ∈ made.elements := by
  induction es generalizing r with
  | nil =>
    obtain rfl := Except.ok.inj h
    cases hroot
  | cons e rest ih =>
    obtain ⟨first, more, hfirst, hmore, helements⟩ := Rendered.of_andThen h
    rw [helements, List.mem_append] at hroot
    rcases hroot with hroot | hroot
    · exact ⟨e, List.mem_cons_self, first, hfirst, hroot⟩
    · obtain ⟨e', he', made, hmade, hroot⟩ := ih hmore hroot
      exact ⟨e', List.mem_cons_of_mem _ he', made, hmade, hroot⟩

/-- Every tree of a rendering was drawn for the element of its id. -/
theorem of_mem_render {m : Model} {r : Rendering} (h : l.render m = .ok r) {root : VisualElement}
    (hroot : root ∈ r.graph.children) :
    ∃ e ∈ m.elements, e.id = root.id ∧ ∃ made, l.renderElement e = .ok made ∧ made.elements = [root] := by
  rw [render] at h
  split at h
  · cases h
  · rename_i all hall
    obtain rfl := Except.ok.inj h
    obtain ⟨e, he, made, hmade, hmem⟩ := of_mem_renderAll hall hroot
    obtain ⟨only, honly, hid⟩ := List.map_eq_singleton_iff.mp (renderElement_ids hmade)
    rw [honly] at hmem
    obtain rfl := List.mem_singleton.mp hmem
    exact ⟨e, he, hid.symm, made, hmade, honly⟩

end Language

/-! ### The edit -/

/-- A label was drawn for `o`, and the text it names as its origin is the path `p`. -/
def Rendering.Records (r : Rendering) (label : String) (o : Element) (p : Path) : Prop :=
  ∃ root ∈ r.graph.children, root.id = o.id ∧ ∃ found ∈ root.walk none, found.1.id = label ∧
    ∃ binding, Operation.bindingOf? (Index.entryOf root.id found) = some binding ∧ Path.parse binding = .ok p

namespace Session

variable {s s' : Session}

/-- `text` was written at `p` in the data of `o`, which is `data` now. -/
structure Wrote (l : Language) (m new : Model) (r : Rendering) (o : Element) (p : Path) (text : String)
    (data : Value) : Prop where
  rewrites : m.Rewrites new o.id data
  written : Path.resolve? p data = some (.string text)
  kept : ∀ q, p.Apart q → Path.resolve? q data = Path.resolve? q o.data
  rendered : l.render new = .ok r
  drawn : o.id ∈ r.graph.children.map VisualElement.id
  /-- What has recorded the same place shows the text. -/
  shown : ∀ root ∈ r.graph.children, root.id = o.id →
    List.Forall₂
      (fun place v => ∀ name q, (name, .bound (.single q)) ∈ place.1.properties →
        (Shape.bindingName name, .string p.print) ∈ v.1.args → name ∉ (o.shownUnder v.2).map Prod.fst →
          ∀ w, (name, w) ∈ v.1.properties ↔ w = .string text)
      ((l.templateFor o).1.drawn data) (root.walk none)

/-- Why an edit of a label is refused. Once it was made, only the rendering can fail. -/
inductive RefusesLabel (s : Session) (label text : String) (ids : IdSupply) : EditError → Prop
  | noLanguage : s.language = none → s.RefusesLabel label text ids .noLanguageLoaded
  | noModel : s.diagram = none → s.RefusesLabel label text ids .noModelLoaded
  | edit {d : Diagram} : s.diagram = some d → ¬ Operation.Editable d label text →
    s.RefusesLabel label text ids (.bindingNotFound label)
  | rendering {l : Language} {d : Diagram} {outcome : Outcome} {w : Workspace} {fault : TemplateFault} :
    s.language = some l → s.diagram = some d →
    (Operation.editLabel label text).apply ⟨l, s.policy⟩ ⟨d, ids⟩ = (.ok outcome, w) →
    l.render w.diagram.model = .error fault → s.RefusesLabel label text ids (.template fault)

variable {label text : String} {o : Element} {p : Path} {l : Language}

theorem shownUnder_withData (o : Element) (data : Value) (parent : Option String) :
    (o.withData data).shownUnder parent = o.shownUnder parent := by
  cases parent <;> cases o <;> rfl

theorem templateFor_withData (l : Language) (o : Element) (data : Value) :
    l.templateFor (o.withData data) = l.templateFor o := by
  cases o <;> rfl

/-- The rendering after an edit, for an element of a closed model and a path that was read. -/
theorem wrote_of_rewrites {m new : Model} {r : Rendering} (hl : l.Compiled) (hm : m.Closed) (ho : o ∈ m.elements)
    (hp : p.Readable) (hfault : (Path.assign p (.string text) o.data).fault = none)
    (hnew : m.Rewrites new o.id (Path.assign p (.string text) o.data).data) (hr : l.render new = .ok r) :
    Wrote l m new r o p text (Path.assign p (.string text) o.data).data where
  rewrites := hnew
  written := Path.resolve?_assign hfault
  kept := fun q hq => Path.resolve?_assign_of_apart hq
  rendered := hr
  drawn := by
    have hid : o.id ∈ new.ids := by
      rw [hnew.ids_eq, ← Model.ids_elements]
      exact List.mem_map_of_mem ho
    rw [Language.render_roots hr]
    exact hid
  shown := by
    intro root hroot hid
    obtain ⟨e, he, heid, made, hmade, hroots⟩ := Language.of_mem_render hr hroot
    obtain rfl := hnew.eq_withData hm ho he (heid.trans hid)
    obtain ⟨only, honly, hshows⟩ := Language.renderElement_shows hl hmade
    obtain rfl : root = only := by simpa using hroots.symm.trans honly
    rw [Element.data_withData, templateFor_withData] at hshows
    refine forall₂_imp_of_mem hshows fun place hplace v _ hv name q hm hbinding hname => ?_
    obtain ⟨hshape, hscope⟩ := (hl.sound_templateFor _).of_mem_drawn hplace
    have hprint := Value.string.inj ((hv.sources name _ hm _).mp hbinding)
    have hlegible := hscope.legible_concrete (hshape.sources name _ hm).toLegible
    have hsame : p = place.2.concrete q := Path.print_injective hp.toLegible hlegible hprint
    rw [shownUnder_withData] at hv
    intro w
    rw [hv.values name q hm hname, ← hsame, Path.resolve?_assign hfault, Option.some.injEq, eq_comm]

/-- What the owner of a label is, told by the index, is told by the rendering it was filled from. -/
theorem records_of_labelTarget? {d : Diagram} {r : Rendering} (hd : d.InStep)
    (hindex : d.index = d.index.indexVisuals r.graph) (h : Operation.labelTarget? d label = some (o, p)) :
    o ∈ d.model.elements ∧ p.Readable ∧ r.Records label o p := by
  obtain ⟨entry, binding, hentry, hbinding, hparse, ho⟩ := Operation.of_labelTarget? h
  rw [hd.element?_eq] at ho
  obtain ⟨hmem, hid⟩ := Model.mem_of_element? ho
  refine ⟨hmem, Path.readable_of_parse hparse, ?_⟩
  rw [hindex] at hentry
  obtain ⟨root, hroot, found, hfound, heq⟩ := Index.of_mem_indexVisuals (Table.mem_of_get? hentry)
  obtain ⟨rfl, rfl⟩ := Prod.mk.inj heq
  exact ⟨root, hroot, hid.symm, found, hfound, rfl, binding, hbinding, hparse⟩

theorem editLabel_ok (h : s.Reachable) (hl : ∀ l, s.language = some l → l.Compiled) {ids ids' : IdSupply}
    {report : EditReport} (hok : s.apply (.editLabel label text) ids = (.ok report, s', ids')) :
    ∃ l d d' r o p data, s.language = some l ∧ s.diagram = some d ∧ s.rendering = some r ∧ s'.diagram = some d' ∧
      o ∈ d.model.elements ∧ Operation.labelTarget? d label = some (o, p) ∧ r.Records label o p ∧
      Wrote l d.model d'.model report.rendering o p text data := by
  have happlies := s.applies_apply (.editLabel label text) ids
  rw [hok] at happlies
  cases happlies with
  | @rendered l d d' _ _ _ hlang hdiag hedit hnew =>
    obtain ⟨r, _, hkept, _, hindex⟩ := (current_of_reachable h).1.rendered l d hlang hdiag
    have hstep := Diagram.InStep.of_reachable (h.diagram d hdiag)
    change (Operation.runEditLabel label text).on ⟨d, ids⟩ = _ at hedit
    rcases Operation.on_runEditLabel (w := ⟨d, ids⟩) hstep label text with hrefused | hedited
    · rw [hrefused.2] at hedit
      cases hedit
    · obtain ⟨o, p, written, htarget, hfault, hrewrites, hon⟩ := hedited
      rw [hon] at hedit
      obtain ⟨_, rfl⟩ := Prod.mk.inj hedit
      obtain ⟨ho, hp, hrecords⟩ := records_of_labelTarget? hstep hindex htarget
      have hwrote := wrote_of_rewrites (hl l hlang) hstep.closed ho hp hfault
        (Diagram.model_of_render hnew ▸ hrewrites) (Diagram.of_render hnew).1
      exact ⟨l, d, d', r, o, p, _, hlang, hdiag, hkept, rfl, ho, htarget, hrecords, hwrote⟩

theorem editLabel_error (h : s.Reachable) {ids : IdSupply} {e : EditError}
    (he : (s.apply (.editLabel label text) ids).1 = .error e) : s.RefusesLabel label text ids e := by
  have happlies := s.applies_apply (.editLabel label text) ids
  generalize s.apply (.editLabel label text) ids = answer at happlies he
  cases happlies with
  | noLanguage hlang =>
    obtain rfl := Except.error.inj he
    exact .noLanguage hlang
  | noModel hdiag =>
    obtain rfl := Except.error.inj he
    exact .noModel hdiag
  | @refused _ d _ _ hlang hdiag hedit =>
    obtain rfl := Except.error.inj he
    have hstep := Diagram.InStep.of_reachable (h.diagram d hdiag)
    change (Operation.runEditLabel label text).on ⟨d, ids⟩ = _ at hedit
    rcases Operation.on_runEditLabel (w := ⟨d, ids⟩) hstep label text with hrefused | hedited
    · rw [hrefused.2] at hedit
      obtain rfl := Except.error.inj (Prod.mk.inj hedit).1
      exact .edit hdiag hrefused.1
    · obtain ⟨_, _, _, _, _, _, hon⟩ := hedited
      rw [hon] at hedit
      cases hedit
  | unrendered hlang hdiag hedit hnew =>
    obtain rfl := Except.error.inj he
    obtain ⟨fault, hfault, rfl⟩ := Diagram.error_of_render hnew
    exact .rendering hlang hdiag hedit hfault
  | rendered => cases he

/-- An edit of a label puts the text at the recorded path of the owner and nothing else,
and the next rendering shows it wherever that path is recorded; an edit that cannot be made
is refused for want of a binding. -/
theorem editLabel_shown (h : s.Reachable) (hl : ∀ l, s.language = some l → l.Compiled) (label text : String)
    (ids : IdSupply) :
    (∀ report s' ids', s.apply (.editLabel label text) ids = (.ok report, s', ids') →
      ∃ l d d' r o p data, s.language = some l ∧ s.diagram = some d ∧ s.rendering = some r ∧ s'.diagram = some d' ∧
        o ∈ d.model.elements ∧ Operation.labelTarget? d label = some (o, p) ∧ r.Records label o p ∧
        Wrote l d.model d'.model report.rendering o p text data) ∧
    ∀ e, (s.apply (.editLabel label text) ids).1 = .error e → s.RefusesLabel label text ids e :=
  ⟨fun _ _ _ hok => editLabel_ok h hl hok, fun _ he => editLabel_error h he⟩

/-- A class with two attributes, under the language that draws a label for each. -/
def sample : Session :=
  (start "sample" ⟨none⟩ .permissive).after [.installLanguage .sample, .installModel ⟨"sample", [.sample], []⟩]

theorem sample_editLabel_shown :
    sample.Reachable ∧ (∀ l, sample.language = some l → l.Compiled) ∧
      ∃ report s' ids', sample.apply (.editLabel "n_child0_group0_attribute1" "c") .start = (.ok report, s', ids') ∧
        ∃ l d d' r o p data, sample.language = some l ∧ sample.diagram = some d ∧ sample.rendering = some r ∧
          s'.diagram = some d' ∧ o ∈ d.model.elements ∧
          Operation.labelTarget? d "n_child0_group0_attribute1" = some (o, p) ∧
          r.Records "n_child0_group0_attribute1" o p ∧ Wrote l d.model d'.model report.rendering o p "c" data := by
  have h : sample.Reachable := ⟨_, _, _, _, rfl⟩
  have hl : ∀ l, sample.language = some l → l.Compiled := by
    intro l hlang
    have hsample : sample.language = some .sample := rfl
    obtain rfl := Option.some.inj (hsample.symm.trans hlang)
    exact Language.compiled_sample
  have hok : (sample.apply (.editLabel "n_child0_group0_attribute1" "c") .start).1.isOk = true := by decide +kernel
  obtain ⟨hwrites, _⟩ := editLabel_shown h hl "n_child0_group0_attribute1" "c" .start
  cases hresult : sample.apply (.editLabel "n_child0_group0_attribute1" "c") .start with
  | mk result rest =>
    cases result with
    | error e =>
      rw [hresult] at hok
      cases hok
    | ok report => exact ⟨h, hl, report, rest.1, rest.2, rfl, hwrites report rest.1 rest.2 hresult⟩

end Session

end DiagramEditor
