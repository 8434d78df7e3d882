import DiagramEditor.Proofs.Language.Rereading
import DiagramEditor.Proofs.Service.Saving

/-!
# Two ways to keep documents

A store that keeps documents as they are and a store that keeps their texts cannot be told
apart by what they answer, as long as every document they are given has a text that is read
back. The rows of the one are the texts of what the other holds, call by call, and what both
answer is told by the calls before: the last document that came in under a name.
-/

set_option autoImplicit false

namespace DiagramEditor

open Json

/-! ### Documents -/

/-- A language document whose text is read back: orderly, as all are that were read, so that no
optional part is `null`, not nested too deep, and without numbers that are read as others. -/
structure LanguageDocument.Storable (d : LanguageDocument) : Prop where
  orderly : d.Orderly
  depth : d.toValue.depth ≤ Tree.maxDepth
  numbers : d.toValue.Legible

/-- A model whose text is read back, likewise, with coordinates that are finite. -/
structure Model.Storable (m : Model) : Prop where
  orderly : m.Orderly
  fits : m.Fits
  numbers : m.toValue.Legible

theorem LanguageDocument.Storable.read {d : LanguageDocument} (h : d.Storable) :
    TextStore.read decode d.toValue.compact = .ok d := by
  rw [TextStore.read, h.orderly.ofText_compact h.depth h.numbers]

theorem Model.Storable.read {m : Model} (h : m.Storable) : TextStore.read decode m.toValue.compact = .ok m := by
  rw [TextStore.read, (Model.ofText_compact h.orderly h.numbers).1 h.fits]

/-! ### Tables -/

namespace Table

variable {κ α β : Type} [DecidableEq κ]

/-- The table with something made of each entry under the same key. -/
def mapped (f : α → β) (t : Table κ α) : Table κ β := t.map fun entry => (entry.1, f entry.2)

theorem get?_mapped (f : α → β) (key : κ) (t : Table κ α) : get? key (mapped f t) = (get? key t).map f := by
  induction t with
  | nil => rfl
  | cons entry rest ih =>
    obtain ⟨k, a⟩ := entry
    by_cases hk : k = key
    · simp [mapped, get?, hk]
    · simpa [mapped, get?, hk] using ih

theorem mapped_put (f : α → β) (key : κ) (a : α) (t : Table κ α) :
    mapped f (put key a t) = put key (f a) (mapped f t) := by
  induction t with
  | nil => rfl
  | cons entry rest ih =>
    obtain ⟨k, b⟩ := entry
    by_cases hk : k = key
    · simp [mapped, put, hk]
    · simpa [mapped, put, hk] using ih

theorem mapped_erase (f : α → β) (key : κ) (t : Table κ α) :
    mapped f (erase key t) = erase key (mapped f t) := by
  rw [erase_eq_filter, erase_eq_filter, mapped, mapped, List.filter_map]
  rfl

end Table

/-! ### The texts of what is kept -/

def LanguageDocument.row (d : LanguageDocument) : LanguageRow := ⟨d.name, d.version, d.toValue.compact⟩

def StoredModel.row (m : StoredModel) : ModelRow := ⟨m.model.toValue.compact, m.preview⟩

namespace MemoryStore

/-- The store that keeps the texts of the same documents. -/
def asText (s : MemoryStore) : TextStore :=
  ⟨Table.mapped LanguageDocument.row s.languages, Table.mapped StoredModel.row s.models⟩

/-- No call needs a token, and every document can be read back from its text. -/
structure Open (s : MemoryStore) : Prop where
  token : s.requiredToken = none
  ids : (s.languages.map Prod.fst).Nodup
  languages : ∀ entry ∈ s.languages, entry.2.Storable
  models : ∀ entry ∈ s.models, entry.2.sourceId = entry.1 ∧ entry.2.model.Storable

variable {s : MemoryStore}

theorem open_empty : (empty none).Open := ⟨rfl, List.nodup_nil, by simp [empty], by simp [empty]⟩

theorem Open.authorize (h : s.Open) (who : Credentials) : s.authorize who = .ok () := by
  simp only [MemoryStore.authorize, h.token]

/-! ### Changes -/

theorem asText_putLanguage (d : LanguageDocument) (s : MemoryStore) :
    (s.putLanguage d).asText = s.asText.putLanguage d := by
  rw [asText, putLanguage, Table.mapped_put]
  rfl

theorem asText_putModel (sourceId : String) (m : Model) (preview : Option String) (s : MemoryStore) :
    (s.putModel sourceId m preview).asText = s.asText.putModel sourceId m preview := by
  rw [asText, putModel, Table.mapped_put]
  rfl

theorem Open.putLanguage (h : s.Open) {d : LanguageDocument} (hd : d.Storable) : (s.putLanguage d).Open where
  token := h.token
  ids := Table.nodup_put d.id d h.ids
  languages entry hm := by
    rcases Table.mem_of_mem_put hm with rfl | hm
    · exact hd
    · exact h.languages entry hm
  models := h.models

theorem Open.putModel (h : s.Open) (sourceId : String) {m : Model} (hm : m.Storable) (preview : Option String) :
    (s.putModel sourceId m preview).Open where
  token := h.token
  ids := h.ids
  languages := h.languages
  models entry hentry := by
    rcases Table.mem_of_mem_put hentry with rfl | hentry
    · exact ⟨rfl, hm⟩
    · exact h.models entry hentry

theorem Open.eraseModel (h : s.Open) (sourceId : String) :
    ({ s with models := Table.erase sourceId s.models } : MemoryStore).Open where
  token := h.token
  ids := h.ids
  languages := h.languages
  models entry hentry := h.models entry (Table.mem_of_mem_erase hentry)

/-! ### Answers -/

theorem Open.language_asText (h : s.Open) (id : String) : s.asText.language id = .ok (Table.get? id s.languages) := by
  rw [TextStore.language, asText, Table.get?_mapped]
  cases hd : Table.get? id s.languages with
  | none => rfl
  | some d =>
    have hread := (h.languages (id, d) (Table.mem_of_get? hd)).read
    simp only [Option.map_some, LanguageDocument.row, hread]
    rfl

theorem Open.stored_asText (h : s.Open) (sourceId : String) :
    s.asText.stored sourceId = .ok (Table.get? sourceId s.models) := by
  rw [TextStore.stored, asText, Table.get?_mapped]
  cases hm : Table.get? sourceId s.models with
  | none => rfl
  | some m =>
    obtain ⟨hsource, hmodel⟩ := h.models (sourceId, m) (Table.mem_of_get? hm)
    simp only [Option.map_some, StoredModel.row, hmodel.read, ← show m.sourceId = sourceId from hsource]
    rfl

theorem summaries_asText (s : MemoryStore) : s.asText.summaries = s.summaries := by
  rw [TextStore.summaries, summaries, asText, Table.mapped, List.map_map]
  rfl

theorem summaries_perm (s : MemoryStore) :
    s.summaries.Perm (s.languages.map fun entry => ⟨entry.1, entry.2.name, entry.2.version⟩) :=
  List.mergeSort_perm _ _

/-- Every language is listed once, in the order of the ids. -/
theorem Open.summaries_ascending (h : s.Open) : s.summaries.Pairwise fun a b => a.id < b.id := by
  have hids : (s.summaries.map LanguageSummary.id).Nodup := by
    rw [(s.summaries_perm.map LanguageSummary.id).nodup_iff, List.map_map]
    exact h.ids
  have hsorted : s.summaries.Pairwise fun a b => (!decide (b.id < a.id)) = true := by
    refine List.pairwise_mergeSort (fun a b c hab hbc => ?_) (fun a b => ?_) _
    · simp only [Bool.not_eq_true', decide_eq_false_iff_not, not_lt] at hab hbc ⊢
      exact hab.trans hbc
    · simp only [Bool.or_eq_true, Bool.not_eq_true', decide_eq_false_iff_not, not_lt]
      exact le_total a.id b.id
  refine (hsorted.and (List.pairwise_map.mp hids)).imp fun hab => ?_
  simp only [Bool.not_eq_true', decide_eq_false_iff_not, not_lt] at hab
  exact lt_of_le_of_ne hab.1 hab.2

theorem Open.mem_summaries (h : s.Open) {x : LanguageSummary} :
    x ∈ s.summaries ↔ ∃ d, Table.get? x.id s.languages = some d ∧ x.name = d.name ∧ x.version = d.version := by
  rw [s.summaries_perm.mem_iff, List.mem_map]
  constructor
  · rintro ⟨⟨id, d⟩, hd, rfl⟩
    exact ⟨d, Table.get?_of_mem h.ids hd, rfl, rfl⟩
  · obtain ⟨id, name, version⟩ := x
    rintro ⟨d, hd, rfl, rfl⟩
    exact ⟨(id, d), Table.mem_of_get? hd, rfl⟩

end MemoryStore

/-! ### Calls -/

/-- What either store can be asked. -/
inductive StoreCall where
  | putLanguage (d : LanguageDocument)
  | language (id : String) (who : Credentials)
  | list
  | save (sourceId : String) (m : Model) (preview : Option String) (who : Credentials)
  | model (sourceId : String) (who : Credentials)
  | stored (sourceId : String)
  | deleteModel (sourceId : String)

inductive StoreAnswer where
  | done (r : Except StoreError Unit)
  | language (r : Except StoreError (Option LanguageDocument))
  | listing (summaries : List LanguageSummary)
  | model (r : Except StoreError (Option Model))
  | stored (r : Except StoreError (Option StoredModel))

/-- The documents that a call brings can be read back from their texts. -/
def StoreCall.Storable : StoreCall → Prop
  | putLanguage d => d.Storable
  | save _ m _ _ => m.Storable
  | _ => True

namespace Store

def respond (s : Store) : StoreCall → StoreAnswer × Store
  | .putLanguage d => (.done (.ok ()), s.putLanguage d)
  | .language id who => (.language (s.language id who), s)
  | .list => (.listing s.summaries, s)
  | .save sourceId m preview who =>
    let (r, s') := s.save sourceId m preview who
    (.done r, s')
  | .model sourceId who => (.model (s.model sourceId who), s)
  | .stored sourceId => (.stored (s.stored sourceId), s)
  | .deleteModel sourceId =>
    let (r, s') := s.deleteModel sourceId
    (.done r, s')

/-- The answers to some calls, one after the other. -/
def answers (s : Store) : List StoreCall → List StoreAnswer
  | [] => []
  | c :: rest => (s.respond c).1 :: answers (s.respond c).2 rest

/-! ### What is due -/

/-- The language that came in last under an id, in a history of calls with the latest first. -/
def languagePut? (id : String) : List StoreCall → Option LanguageDocument
  | [] => none
  | .putLanguage d :: earlier => if d.id = id then some d else languagePut? id earlier
  | _ :: earlier => languagePut? id earlier

/-- The model that was saved last for a source, unless it was deleted since. -/
def modelSaved? (source : String) : List StoreCall → Option StoredModel
  | [] => none
  | .save other m preview _ :: earlier =>
    if other = source then some ⟨other, m, preview⟩ else modelSaved? source earlier
  | .deleteModel other :: earlier => if other = source then none else modelSaved? source earlier
  | _ :: earlier => modelSaved? source earlier

/-- The answer to a call that the calls before it make due. -/
def Due (history : List StoreCall) : StoreCall → StoreAnswer → Prop
  | .putLanguage _, a | .save _ _ _ _, a => a = .done (.ok ())
  | .language id _, a => a = .language (.ok (languagePut? id history))
  | .list, a => ∃ l, a = .listing l ∧ l.Pairwise (fun x y => x.id < y.id) ∧
      ∀ x, x ∈ l ↔ ∃ d, languagePut? x.id history = some d ∧ x.name = d.name ∧ x.version = d.version
  | .model source _, a => a = .model (.ok ((modelSaved? source history).map (·.model)))
  | .stored source, a => a = .stored (.ok (modelSaved? source history))
  | .deleteModel source, a =>
    a = .done (if (modelSaved? source history).isSome then .ok () else .error (.modelNotFound source))

/-- Each call has the answer that is due, and none is left without one. -/
def AllDue (history : List StoreCall) : List StoreCall → List StoreAnswer → Prop
  | [], as => as = []
  | c :: rest, as => ∃ a more, as = a :: more ∧ Due history c a ∧ AllDue (c :: history) rest more

/-- The store holds what came in and was not replaced or deleted since. -/
structure Holds (history : List StoreCall) (s : MemoryStore) : Prop where
  languages : ∀ id, Table.get? id s.languages = languagePut? id history
  models : ∀ source, Table.get? source s.models = modelSaved? source history

namespace Holds

variable {history : List StoreCall} {s : MemoryStore}

theorem empty : Holds [] (.empty none) := ⟨fun _ => rfl, fun _ => rfl⟩

theorem putLanguage (h : Holds history s) (d : LanguageDocument) :
    Holds (.putLanguage d :: history) (s.putLanguage d) where
  languages id := by
    rw [languagePut?]
    by_cases hid : d.id = id
    · rw [if_pos hid, ← hid]
      exact Table.get?_put_self _ _ _
    · rw [if_neg hid, ← h.languages id]
      exact Table.get?_put_of_ne _ _ (Ne.symm hid)
  models := h.models

theorem putModel (h : Holds history s) (source : String) (m : Model) (preview : Option String) (who : Credentials) :
    Holds (.save source m preview who :: history) (s.putModel source m preview) where
  languages := h.languages
  models other := by
    rw [modelSaved?]
    by_cases hs : source = other
    · rw [if_pos hs, ← hs]
      exact Table.get?_put_self _ _ _
    · rw [if_neg hs, ← h.models other]
      exact Table.get?_put_of_ne _ _ (Ne.symm hs)

theorem eraseModel (h : Holds history s) (source : String) :
    Holds (.deleteModel source :: history) { s with models := Table.erase source s.models } where
  languages := h.languages
  models other := by
    rw [modelSaved?]
    by_cases hs : source = other
    · rw [if_pos hs, ← hs]
      exact Table.get?_erase_self _ _
    · rw [if_neg hs, ← h.models other]
      exact Table.get?_erase_of_ne _ (Ne.symm hs)

/-- What is not there need not be deleted. -/
theorem deleteAbsent (h : Holds history s) {source : String} (hs : Table.get? source s.models = none) :
    Holds (.deleteModel source :: history) s := by
  have herase := h.eraseModel source
  rwa [Table.erase_of_get?_eq_none hs] at herase

end Holds

/-- Both stores give the same answer, the one that is due, and are the same again but for the texts. -/
theorem respond_asText {history : List StoreCall} {s : MemoryStore} (h : s.Open) (hs : Holds history s)
    {c : StoreCall} (hc : c.Storable) :
    ∃ (a : StoreAnswer) (s' : MemoryStore), s'.Open ∧ Holds (c :: history) s' ∧ Due history c a ∧
      (memory s).respond c = (a, memory s') ∧ (text s.asText).respond c = (a, text s'.asText) := by
  -- what reads only leaves the store as it is
  have hread : ∀ {c : StoreCall}, (∀ id, languagePut? id (c :: history) = languagePut? id history) →
      (∀ source, modelSaved? source (c :: history) = modelSaved? source history) → Holds (c :: history) s :=
    fun hl hm => ⟨fun id => hl id ▸ hs.languages id, fun source => hm source ▸ hs.models source⟩
  cases c with
  | putLanguage d =>
    refine ⟨.done (.ok ()), s.putLanguage d, h.putLanguage hc, hs.putLanguage d, rfl, rfl, ?_⟩
    rw [MemoryStore.asText_putLanguage]
    rfl
  | language id who =>
    refine ⟨.language (.ok (Table.get? id s.languages)), s, h, hread (fun _ => rfl) (fun _ => rfl), ?_, ?_, ?_⟩
    · rw [hs.languages id]
      rfl
    · simp only [respond, language, authorize, findLanguage, h.authorize]
    · simp only [respond, language, authorize, findLanguage, h.language_asText]
  | list =>
    refine ⟨.listing s.summaries, s, h, hread (fun _ => rfl) (fun _ => rfl), ?_, rfl, ?_⟩
    · refine ⟨_, rfl, h.summaries_ascending, fun x => ?_⟩
      rw [h.mem_summaries, hs.languages]
    · simp only [respond, summaries, s.summaries_asText]
  | save source m preview who =>
    refine ⟨.done (.ok ()), s.putModel source m preview, h.putModel source hc preview,
      hs.putModel source m preview who, rfl, ?_, ?_⟩
    · simp only [respond, save, authorize, h.authorize, putModel]
    · simp only [respond, save, authorize, putModel, MemoryStore.asText_putModel]
  | model source who =>
    refine ⟨.model (.ok ((Table.get? source s.models).map (·.model))), s, h, hread (fun _ => rfl) (fun _ => rfl), ?_,
      ?_, ?_⟩
    · rw [hs.models source]
      rfl
    · simp only [respond, model, authorize, stored, h.authorize, Except.map]
    · simp only [respond, model, authorize, stored, h.stored_asText, Except.map]
  | stored source =>
    refine ⟨.stored (.ok (Table.get? source s.models)), s, h, hread (fun _ => rfl) (fun _ => rfl), ?_, rfl, ?_⟩
    · rw [hs.models source]
      rfl
    · simp only [respond, stored, h.stored_asText]
  | deleteModel source =>
    have hkept : (text s.asText).hasModel source = (memory s).hasModel source := by
      simp only [hasModel, MemoryStore.asText, Table.get?_mapped, Option.isSome_map]
    have herased : (text s.asText).eraseModel source =
        text { s with models := Table.erase source s.models }.asText := by
      simp only [eraseModel, MemoryStore.asText, Table.mapped_erase]
    have hfound : (memory s).hasModel source = (modelSaved? source history).isSome := by
      rw [← hs.models source]
      rfl
    cases hm : (memory s).hasModel source with
    | true =>
      refine ⟨.done (.ok ()), _, h.eraseModel source, hs.eraseModel source, ?_, ?_, ?_⟩
      · simp only [Due, ← hfound, hm, if_true]
      · simp only [respond, deleteModel, hm, if_true, eraseModel]
      · simp only [respond, deleteModel, hkept, hm, if_true, herased]
    | false =>
      have habsent : Table.get? source s.models = none := Option.isNone_iff_eq_none.mp (by
        rw [← Option.not_isSome]
        exact congrArg not hm)
      refine ⟨.done (.error (.modelNotFound source)), s, h, hs.deleteAbsent habsent, ?_, ?_, ?_⟩
      · simp [Due, ← hfound, hm]
      · simp [respond, deleteModel, hm]
      · simp [respond, deleteModel, hkept, hm]

theorem answers_asText {calls : List StoreCall} (hcalls : ∀ c ∈ calls, c.Storable) {history : List StoreCall}
    {s : MemoryStore} (h : s.Open) (hs : Holds history s) :
    (text s.asText).answers calls = (memory s).answers calls ∧
      AllDue history calls ((memory s).answers calls) := by
  induction calls generalizing s history with
  | nil => exact ⟨rfl, rfl⟩
  | cons c rest ih =>
    rw [List.forall_mem_cons] at hcalls
    obtain ⟨a, s', h', hs', hdue, hmemory, htext⟩ := respond_asText h hs hcalls.1
    obtain ⟨hsame, hdues⟩ := ih hcalls.2 h' hs'
    simp only [answers, hmemory, htext, hsame, true_and]
    exact ⟨a, _, rfl, hdue, hdues⟩

/-- From the start on the two stores answer alike, whatever they are asked, and every answer is due: a
document is the one that came in last under its name, the languages are listed once each in the order of
their ids, and only a model that is there is deleted. -/
theorem answers_alike {calls : List StoreCall} (hcalls : ∀ c ∈ calls, c.Storable) :
    (text .empty).answers calls = (memory (.empty none)).answers calls ∧
      AllDue [] calls ((memory (.empty none)).answers calls) :=
  answers_asText hcalls MemoryStore.open_empty .empty

/-- A name, one of two. -/
def sampleName : Schema := .text ⟨some "Name", none⟩ (some ["a", "b"]) none

/-- A language with a class whose data has a name. -/
def sampleLanguage : LanguageDocument :=
  let schema : Schema := .object ⟨none, some (.bool true)⟩ [("name", sampleName)]
  ⟨"uml", "UML", 2, [("class", { TypeDocument.empty with schema := some schema, constraints := [.null] })], []⟩

theorem orderly_sampleLanguage : sampleLanguage.Orderly := by
  have hname : sampleName.Orderly := .text _ _ (by simp [Caption.Orderly])
  have hschema : Schema.Orderly (.object ⟨none, some (.bool true)⟩ [("name", sampleName)]) := by
    refine .object ?_ (List.nodup_singleton _) (by simpa using hname)
    intro v hv
    obtain rfl := Option.some.inj hv
    exact ⟨.bool true, by simp⟩
  refine ⟨by decide, List.nodup_singleton _, List.nodup_nil, ?_, by simp [sampleLanguage]⟩
  simp only [sampleLanguage, List.forall_mem_singleton]
  exact ⟨by simp [TypeDocument.empty], by simpa using hschema, by simp [TypeDocument.empty], by simpa using .null⟩

theorem legible_sampleLanguage : sampleLanguage.toValue.Legible := by decide +kernel

theorem storable_sampleLanguage : sampleLanguage.Storable :=
  ⟨orderly_sampleLanguage, by decide +kernel, legible_sampleLanguage⟩

theorem storable_sampleModel : (Service.sampleModel .emptyObject).Storable := by
  have hordered : Value.Ordered .emptyObject := .object List.Pairwise.nil (by simp)
  refine ⟨⟨List.nodup_singleton _, List.nodup_nil, Service.ordered_sampleModel hordered, by simp [Service.sampleModel]⟩,
    Service.fits_sampleModel.mpr (by decide), Service.legible_sampleModel (.object (by simp))⟩

/-- What was put is got back and listed, and a model that was deleted cannot be deleted again. -/
theorem sample_answers_alike :
    ∃ calls : List StoreCall, (∀ c ∈ calls, c.Storable) ∧
      (memory (.empty none)).answers calls =
        [.done (.ok ()), .listing [⟨"uml", "UML", 2⟩], .language (.ok (some sampleLanguage)),
         .done (.ok ()), .stored (.ok (some ⟨"d.uml", Service.sampleModel .emptyObject, some "<svg/>"⟩)),
         .done (.ok ()), .model (.ok none), .done (.error (.modelNotFound "d.uml"))] ∧
      (text .empty).answers calls = (memory (.empty none)).answers calls ∧
      AllDue [] calls ((memory (.empty none)).answers calls) := by
  have hcalls : ∀ c ∈ [StoreCall.putLanguage sampleLanguage, .list, .language "uml" .anonymous,
      .save "d.uml" (Service.sampleModel .emptyObject) (some "<svg/>") .anonymous, .stored "d.uml",
      .deleteModel "d.uml", .model "d.uml" .anonymous, .deleteModel "d.uml"], c.Storable := by
    simp only [List.forall_mem_cons]
    exact ⟨storable_sampleLanguage, trivial, trivial, storable_sampleModel, trivial, trivial, trivial, trivial, by simp⟩
  refine ⟨_, hcalls, ?_, answers_alike hcalls⟩
  have hlist : ((MemoryStore.empty none).putLanguage sampleLanguage).summaries = [⟨"uml", "UML", 2⟩] :=
    List.mergeSort_singleton _
  simp only [answers, respond, putLanguage, summaries, hlist]
  rfl

/-- A language with a class that has the given template, if any. -/
def classLanguage (template : Option Value) : LanguageDocument :=
  ⟨"uml", "", 1, [("class", { TypeDocument.empty with visualTemplate := template })], []⟩

theorem legible_classLanguage : (classLanguage (some .null)).toValue.Legible := by decide +kernel

/-- The class is read back without a template. -/
theorem read_classLanguage : TextStore.read LanguageDocument.decode (classLanguage (some .null)).toValue.compact =
    .ok (classLanguage none) := by
  have hread : LanguageDocument.decode (Tree.ofValue (classLanguage (some .null)).toValue) = .ok (classLanguage none) :=
    rfl
  have hdepth : (classLanguage (some .null)).toValue.depth ≤ Tree.maxDepth := by decide +kernel
  rw [TextStore.read, Decoder.ofText, Tree.ofText_compact legible_classLanguage]
  simp only [Tree.limit_ofValue _ hdepth, hread]
  rfl

/-- A template of `null` is kept by the one store and lost by the other, for in a text `null` is how
the absence of a template is written. Nothing but that is amiss with the document. -/
theorem null_template_told_apart :
    (classLanguage (some .null)).toValue.depth ≤ Tree.maxDepth ∧ (classLanguage (some .null)).toValue.Legible ∧
      (memory (.empty none)).answers [.putLanguage (classLanguage (some .null)), .language "uml" .anonymous] =
        [.done (.ok ()), .language (.ok (some (classLanguage (some .null))))] ∧
      (text .empty).answers [.putLanguage (classLanguage (some .null)), .language "uml" .anonymous] =
        [.done (.ok ()), .language (.ok (some (classLanguage none)))] ∧
      classLanguage (some .null) ≠ classLanguage none := by
  have hfound : (TextStore.empty.putLanguage (classLanguage (some .null))).language "uml" =
      .ok (some (classLanguage none)) := by
    have hrow : Table.get? "uml" (TextStore.empty.putLanguage (classLanguage (some .null))).languages =
        some (classLanguage (some .null)).row := rfl
    rw [TextStore.language, hrow]
    simp only [LanguageDocument.row, read_classLanguage]
    rfl
  refine ⟨by decide +kernel, legible_classLanguage, rfl, ?_, ?_⟩
  · simp only [answers, respond, putLanguage, language, authorize, findLanguage, hfound]
  · simp [classLanguage]

end Store

end DiagramEditor
