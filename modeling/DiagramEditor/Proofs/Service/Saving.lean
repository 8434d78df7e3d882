import DiagramEditor.Proofs.Model.Rereading
import DiagramEditor.Proofs.Service.Runs

/-!
# What is got back of a saved model

Saving never looks at what it writes. In a store that keeps texts, what was saved is got
back if all coordinates are finite and no data is nested too deep; otherwise every attempt
to load it is refused, until another model is saved in its place.
-/

set_option autoImplicit false

namespace DiagramEditor

open Json

theorem Store.model_putModel {m : Model} (hm : m.Orderly) (hnumbers : m.toValue.Legible) (t : TextStore)
    (sourceId : String) (preview : Option String) (who : Credentials) :
    (m.Fits → (Store.text (t.putModel sourceId m preview)).model sourceId who = .ok (some m)) ∧
      (¬ m.Fits →
        ∃ fault, (Store.text (t.putModel sourceId m preview)).model sourceId who = .error (.document fault)) := by
  obtain ⟨hfits, hmisfits⟩ := Model.ofText_compact hm hnumbers
  have hread : (Store.text (t.putModel sourceId m preview)).model sourceId who =
      (TextStore.read Model.decode m.toValue.compact).map some := by
    simp only [model, authorize, stored, TextStore.stored, TextStore.putModel, Table.get?_put_self]
    cases TextStore.read Model.decode m.toValue.compact <;> simp only [Except.map, Option.map_some]
  rw [hread]
  refine ⟨fun h => ?_, fun h => ?_⟩
  · simp only [TextStore.read, hfits h, Except.map]
  · obtain ⟨e, he⟩ := hmisfits h
    exact ⟨_, by simp only [TextStore.read, he, Except.map]; rfl⟩

theorem Session.Reachable.closed {s : Session} (h : s.Reachable) {m : Model} (hm : s.model = .ok m) : m.Closed := by
  rw [model] at hm
  split at hm
  · rename_i d hd
    obtain rfl := Except.ok.inj hm
    exact (Diagram.InStep.of_reachable (h.diagram d hd)).closed
  · cases hm

namespace Service

variable {v v' : Service}

/-- A model that was saved as text is got back just when it fits, whatever is asked of the
service before it is saved again. -/
theorem model_of_saved (hv : v.Reachable) {t : TextStore} (ht : v.shared.store = .text t) {id : Uuid}
    {preview : Option String} {who : Option Credentials} {a : Answer}
    (h : v.answer (.inSession id (.saveModel preview)) who = (.ok a, v')) :
    ∃ s m, v.session? id = some s ∧ s.model = .ok m ∧
      ((∀ n ∈ m.nodes, n.data.Ordered) → (∀ e ∈ m.edges, e.data.Ordered) → m.toValue.Legible →
        ∀ calls credentials, (∀ c ∈ calls, ¬ Call.Saves c.1) →
          (m.Fits → (v'.after calls).shared.store.model s.sourceId credentials = .ok (some m)) ∧
          (¬ m.Fits →
            ∃ fault, (v'.after calls).shared.store.model s.sourceId credentials = .error (.document fault))) := by
  rw [answer, inSession] at h
  split at h
  · cases h
  · rename_i s hs
    obtain ⟨hmodel, hsource⟩ := (SessionCall.saveModel preview).model_adopt who s
    cases hrun : (SessionCall.saveModel preview).run v.shared ((SessionCall.saveModel preview).adopt who s) with
    | mk r rest =>
      rw [hrun] at h
      obtain ⟨rfl, rfl⟩ := Prod.mk.inj h
      obtain ⟨m, hm, hsave⟩ := SessionCall.of_run_saveModel hrun
      rw [hmodel] at hm
      rw [hsource, ht] at hsave
      have hstore : rest.1.store = .text (t.putModel s.sourceId m preview) := (Prod.mk.inj hsave).2.symm
      refine ⟨s, m, hs, hm, fun hnodes hedges hnumbers calls credentials hcalls => ?_⟩
      have hclosed := (hv.sessions (id, s) (Table.mem_of_get? hs)).closed hm
      have hm : m.Orderly := ⟨hclosed.nodup_nodes, hclosed.nodup_edges, hnodes, hedges⟩
      rw [store_after hcalls, hstore]
      exact Store.model_putModel hm hnumbers t s.sourceId preview credentials

/-- A class with the given data, made in the only session of a service that keeps texts. -/
def sample (data : Value) : Service :=
  let document : LanguageDocument := ⟨"uml", "", 1, [("class", .empty)], []⟩
  let inSession (call : SessionCall) : Call × Option Credentials := (.inSession (.numbered 1) call, none)
  (⟨⟨.standard, .allStore, .text .empty, [], .empty, .start⟩, []⟩ : Service).after
    [(.openSession "d.uml", none), inSession (.loadLanguage ⟨none, some document⟩), inSession .loadModel,
      inSession (.apply (.createNode "class" none)),
      inSession (.apply (.changeData (Uuid.numbered 3).print data .replace))]

def sampleModel (data : Value) : Model :=
  ⟨(Uuid.numbered 2).print, [⟨(Uuid.numbered 3).print, "class", .origin, some .standard, data⟩], []⟩

theorem reachable_sample (data : Value) : (sample data).Reachable := ⟨_, _, rfl⟩

theorem legible_sampleModel {data : Value} (h : data.Legible) : (sampleModel data).toValue.Legible := by
  have hzero : (Value.ofFloat 0).Legible := .ofFloat (by decide +kernel)
  have hwidth : (Value.ofFloat 50).Legible := .ofFloat (by decide +kernel)
  have hheight : (Value.ofFloat 25).Legible := .ofFloat (by decide +kernel)
  have hposition : Point.origin.toValue.Legible := .object (by simp [Point.origin, hzero])
  have hsize : Size.standard.toValue.Legible := .object (by simp [Size.standard, hwidth, hheight])
  have hnode : (Node.toValue ⟨(Uuid.numbered 3).print, "class", .origin, some .standard, data⟩).Legible :=
    .object (by simp [Members.whenSome, Value.Legible.string, hposition, hsize, h])
  exact .object (by simp [sampleModel, Value.Legible.string, Value.Legible.array, hnode])

theorem ordered_sampleModel {data : Value} (h : data.Ordered) : ∀ n ∈ (sampleModel data).nodes, n.data.Ordered := by
  simpa [sampleModel] using h

theorem fits_sampleModel {data : Value} : (sampleModel data).Fits ↔ data.depth ≤ 124 := by
  constructor
  · exact fun h => (h.nodes _ (List.mem_singleton_self _)).data
  · intro h
    refine ⟨fun n hn => ?_, by simp [sampleModel]⟩
    obtain rfl := List.mem_singleton.mp hn
    have hposition : Point.origin.IsFinite := by decide +kernel
    have hsize : Size.standard.IsFinite := by decide +kernel
    exact ⟨hposition, fun s hs => Option.some.inj hs ▸ hsize, h⟩

/-- A sample that is saved is held by the store as a text. -/
theorem save_sample (data : Value) : ∃ s a v', (sample data).session? (.numbered 1) = some s ∧
    s.model = .ok (sampleModel data) ∧ (sample data).shared.store = .text .empty ∧
    (sample data).answer (.inSession (.numbered 1) (.saveModel none)) none = (.ok a, v') ∧
    v'.shared.store = .text (TextStore.empty.putModel s.sourceId (sampleModel data) none) :=
  ⟨_, _, _, rfl, rfl, rfl, rfl, rfl⟩

theorem sample_model_of_saved :
    ∃ s a v' m, (sample .emptyObject).Reachable ∧ (sample .emptyObject).shared.store = .text .empty ∧
      (sample .emptyObject).answer (.inSession (.numbered 1) (.saveModel none)) none = (.ok a, v') ∧
      (sample .emptyObject).session? (.numbered 1) = some s ∧ s.model = .ok m ∧
      v'.shared.store.model s.sourceId s.credentials = .ok (some m) := by
  obtain ⟨s, a, v', hs, hm, ht, h, _⟩ := save_sample .emptyObject
  obtain ⟨s', m, hs', hm', hreads⟩ := model_of_saved (reachable_sample _) ht h
  obtain rfl := Option.some.inj (hs.symm.trans hs')
  obtain rfl := Except.ok.inj (hm.symm.trans hm')
  have hordered : Value.Ordered .emptyObject := .object List.Pairwise.nil (by simp)
  have hread := hreads (ordered_sampleModel hordered) (by simp [sampleModel]) (legible_sampleModel (.object (by simp)))
    [] s.credentials (by simp)
  exact ⟨s, a, v', _, reachable_sample _, ht, h, hs, hm, hread.1 (fits_sampleModel.mpr (by decide))⟩

/-- So many arrays inside one another. -/
def nested : Nat → Value
  | 0 => .array []
  | n + 1 => .array [nested n]

theorem depth_nested (n : Nat) : (nested n).depth = n + 1 := by
  induction n with
  | zero => rfl
  | succ n ih => simp [nested, Value.depth, Value.depthItems, ih]

theorem ordered_nested (n : Nat) : (nested n).Ordered := by
  induction n with
  | zero => exact .array (by simp)
  | succ n ih => exact .array (by simpa using ih)

theorem legible_nested (n : Nat) : (nested n).Legible := by
  induction n with
  | zero => exact .array (by simp)
  | succ n ih => exact .array (by simpa using ih)

/-- What was saved with data nested 125 deep cannot be loaded again. -/
theorem nested_lost :
    ∃ s a v' m, (sample (nested 124)).Reachable ∧ (sample (nested 124)).shared.store = .text .empty ∧
      (sample (nested 124)).answer (.inSession (.numbered 1) (.saveModel none)) none = (.ok a, v') ∧
      (sample (nested 124)).session? (.numbered 1) = some s ∧ s.model = .ok m ∧
      ∃ fault, v'.shared.store.model s.sourceId s.credentials = .error (.document fault) := by
  obtain ⟨s, a, v', hs, hm, ht, h, hstore⟩ := save_sample (nested 124)
  have horderly : (sampleModel (nested 124)).Orderly :=
    ⟨List.nodup_singleton _, List.nodup_nil, ordered_sampleModel (ordered_nested 124), by simp [sampleModel]⟩
  have hdeep : ¬ (sampleModel (nested 124)).Fits := by
    rw [fits_sampleModel, depth_nested]
    decide
  obtain ⟨fault, hfault⟩ := (Store.model_putModel horderly (legible_sampleModel (legible_nested 124)) .empty
    s.sourceId none s.credentials).2 hdeep
  exact ⟨s, a, v', _, reachable_sample _, ht, h, hs, hm, fault, hstore ▸ hfault⟩

end Service

end DiagramEditor
