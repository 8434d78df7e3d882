import DiagramEditor.Proofs.Operation.Rereading
import DiagramEditor.Proofs.Wire.Canonical

/-!
# Canonical operations

An operation may be given by older names and with parts left out. It is then read as if it had
been given in full, under the names with which it is written.
-/

set_option autoImplicit false

namespace DiagramEditor

open Json

open Members (fill rename update)

/-- The item with the parts that were left out. -/
def Bounds.canonical : Value → Value :=
  Value.inObject fun ms => fill "newPosition" .null (fill "newSize" .null ms)

theorem Bounds.gives_canonical_iff {v : Value} {b : Bounds} : decode.Gives (canonical v) b ↔ decode.Gives v b := by
  cases v with
  | object ms =>
    have hposition : Record.Owns fields (.defaulted "newPosition" (Decoder.option Point.decode)
        fun v b => { b with position := v }) := ⟨rfl, rfl, by decide⟩
    have hsize : Record.Owns fields (.defaulted "newSize" (Decoder.option Size.decode)
        fun v b => { b with size := v }) := ⟨rfl, rfl, by decide⟩
    exact (Record.gives_fill_iff hposition (by decide) rfl rfl).trans (Record.gives_fill_iff hsize (by decide) rfl rfl)
  | _ => exact Iff.rfl

def Routing.canonical : Value → Value := Value.inObject (fill "newRoutingPoints" (.array []))

theorem Routing.gives_canonical_iff {v : Value} {r : Routing} : decode.Gives (canonical v) r ↔ decode.Gives v r := by
  cases v with
  | object ms =>
    have hpoints : Record.Owns fields (.defaulted "newRoutingPoints" (Decoder.list Point.decode)
        fun v r => { r with points := v }) := ⟨rfl, rfl, by decide⟩
    exact Record.gives_fill_iff hpoints (by decide) rfl rfl
  | _ => exact Iff.rfl

namespace Operation

/-- The name a kind is written with in place of any other it has. -/
def canonicalKind : Value → Value
  | .string name => .string ((Table.get? name kinds).elim name Kind.name)
  | v => v

/-- The fields of a kind under the names they are written with, and those that were left out. -/
def canonicalContent : Kind → Members → Members
  | .createNode, ms | .paste, ms => fill "location" .null ms
  | .changeBounds, ms => update "newBounds" (Value.eachItem Bounds.canonical) ms
  | .changeRouting, ms => update "newRoutingPoints" (Value.eachItem Routing.canonical) ms
  | .changeData, ms => fill "mode" (.string ChangeMode.replace.name) (rename "newModel" "boundData" ms)
  | _, ms => ms

def kindOf? (ms : Members) : Option Kind :=
  match Members.get? "kind" ms with
  | some (.string name) => Table.get? name kinds
  | _ => none

/-- The members of an operation as they would be written. -/
def canonical (ms : Members) : Members :=
  update "kind" canonicalKind ((kindOf? ms).elim ms fun kind => canonicalContent kind ms)

/-- Whatever the kind, its fields are read of the canonical members as of those that were given. -/
theorem gives_canonicalContent_iff {kind : Kind} {ms : Members} {d : Draft} :
    (bodyOf kind).Gives (.object (canonicalContent kind ms)) d ↔ (bodyOf kind).Gives (.object ms) d := by
  cases kind with
  | createNode =>
    have hlocation : Record.Owns (fieldsOf .createNode) locationField := ⟨rfl, rfl, by decide⟩
    exact Record.gives_fill_iff hlocation (by decide) rfl rfl
  | paste =>
    have hlocation : Record.Owns (fieldsOf .paste) locationField := ⟨rfl, rfl, by decide⟩
    exact Record.gives_fill_iff hlocation (by decide) rfl rfl
  | changeBounds =>
    refine Record.gives_update_iff fun f hf v => ?_
    obtain rfl := Option.some.inj hf
    exact Field.readsAlike_make (fun _ => Decoder.gives_eachItem_iff fun _ _ => Bounds.gives_canonical_iff) _ _ _
  | changeRouting =>
    refine Record.gives_update_iff fun f hf v => ?_
    obtain rfl := Option.some.inj hf
    exact Field.readsAlike_make (fun _ => Decoder.gives_eachItem_iff fun _ _ => Routing.gives_canonical_iff) _ _ _
  | changeData =>
    have hmode : Record.Owns (fieldsOf .changeData) (.defaulted "mode" ChangeMode.decode
        fun v d => { d with mode := v }) := ⟨rfl, rfl, by decide⟩
    exact (Record.gives_fill_iff hmode (by decide) rfl rfl).trans (Record.gives_rename_iff rfl)
  | createEdge | deleteElements | reconnectEdge | editLabel | cut | refreshShowcase => exact Iff.rfl

theorem others_canonicalContent (kind : Kind) (ms : Members) :
    Tagged.others "kind" (canonicalContent kind ms) = canonicalContent kind (Tagged.others "kind" ms) := by
  cases kind with
  | createNode | paste => exact Members.filter_fill (p := (· ≠ "kind")) "location" (by decide) _ _
  | changeBounds | changeRouting => exact Members.filter_update (p := (· ≠ "kind")) _ _ _
  | changeData =>
    have hmode := Members.filter_fill (p := (· ≠ "kind")) "mode" (by decide) (.string ChangeMode.replace.name)
      (rename "newModel" "boundData" ms)
    rw [Members.filter_rename (p := (· ≠ "kind")) _ _ (by decide)] at hmode
    exact hmode
  | createEdge | deleteElements | reconnectEdge | editLabel | cut | refreshShowcase => rfl

theorem given_canonicalContent (kind : Kind) (ms : Members) :
    Tagged.given "kind" (canonicalContent kind ms) = Tagged.given "kind" ms := by
  have hkey : ∀ {key}, key ≠ "kind" → ∀ m ∈ Tagged.given "kind" ms, m.1 ≠ key := fun hne m hm heq =>
    hne (heq ▸ Tagged.key_of_mem_given hm)
  cases kind with
  | createNode | paste => exact Members.filter_fill_of_not (p := (· = "kind")) "location" (by decide) _ _
  | changeBounds | changeRouting =>
    exact (Members.filter_update (p := (· = "kind")) _ _ ms).trans (Members.update_eq_self (hkey (by decide)))
  | changeData =>
    have hrename := Members.filter_rename (p := (· = "kind")) "newModel" "boundData" (by decide) ms
    have hmode := Members.filter_fill_of_not (p := (· = "kind")) "mode" (by decide)
      (.string ChangeMode.replace.name) (rename "newModel" "boundData" ms)
    exact hmode.trans (hrename.trans (Members.rename_eq_self (hkey (by decide))))
  | createEdge | deleteElements | reconnectEdge | editLabel | cut | refreshShowcase => rfl

theorem gives_canonicalKind_iff {v : Value} {kind : Kind} :
    (Tagged.byName kinds).Gives (canonicalKind v) kind ↔ (Tagged.byName kinds).Gives v kind := by
  cases v with
  | string name =>
    rw [Tagged.gives_byName_iff, Tagged.gives_byName_iff, canonicalKind]
    cases hname : Table.get? name kinds with
    | none => simp [hname]
    | some k => simp [hname, k.get?_name]
  | _ => exact Iff.rfl

theorem kindOf?_eq {ms : Members} {v : Value} {kind : Kind} (hgiven : Tagged.given "kind" ms = [("kind", v)])
    (hv : (Tagged.byName kinds).Gives v kind) : kindOf? ms = some kind := by
  obtain ⟨name, rfl, hname⟩ := Tagged.gives_byName_iff.mp hv
  have hkind : Members.get? "kind" ms = some (.string name) := by
    rw [← Tagged.get?_given, hgiven]
    rfl
  simp only [kindOf?, hkind, hname]

theorem given_canonical (ms : Members) :
    Tagged.given "kind" (canonical ms) = update "kind" canonicalKind (Tagged.given "kind" ms) := by
  refine (Members.filter_update (p := (· = "kind")) _ _ _).trans (congrArg _ ?_)
  cases kindOf? ms with
  | none => rfl
  | some kind => exact given_canonicalContent kind ms

theorem others_canonical (ms : Members) : Tagged.others "kind" (canonical ms) =
    (kindOf? ms).elim (Tagged.others "kind" ms) fun kind => canonicalContent kind (Tagged.others "kind" ms) := by
  have hupdate := Members.filter_update (p := (· ≠ "kind")) "kind" canonicalKind
    ((kindOf? ms).elim ms fun kind => canonicalContent kind ms)
  have hothers : ∀ ms, update "kind" canonicalKind (Tagged.others "kind" ms) = Tagged.others "kind" ms := fun ms =>
    Members.update_eq_self fun m hm hkey => absurd hkey (Tagged.key_of_mem_others hm)
  refine hupdate.trans ((hothers _).trans ?_)
  cases kindOf? ms with
  | none => rfl
  | some kind => exact others_canonicalContent kind ms

/-- An operation is read of its canonical members if it is read of those that were given. -/
theorem gives_canonical_iff {ms : Members} {op : Operation} :
    decode.Gives (.object (canonical ms)) op ↔ decode.Gives (.object ms) op := by
  have hupdate : ∀ v, update "kind" canonicalKind [("kind", v)] = [("kind", canonicalKind v)] := fun v => by
    simp [update]
  rw [gives_object_iff, gives_object_iff, given_canonical, others_canonical]
  constructor
  · rintro ⟨kind, v, d, hgiven, hv, hd, hop⟩
    obtain ⟨⟨key, w⟩, hw, hwv⟩ := List.map_eq_singleton_iff.mp hgiven
    have hm : (key, w) ∈ Tagged.given "kind" ms := by simp [hw]
    obtain rfl : key = "kind" := Tagged.key_of_mem_given hm
    obtain rfl : canonicalKind w = v := congrArg Prod.snd hwv
    rw [gives_canonicalKind_iff] at hv
    rw [kindOf?_eq hw hv] at hd
    exact ⟨kind, w, d, hw, hv, gives_canonicalContent_iff.mp hd, hop⟩
  · rintro ⟨kind, v, d, hgiven, hv, hd, hop⟩
    refine ⟨kind, canonicalKind v, d, ?_, gives_canonicalKind_iff.mpr hv, ?_, hop⟩
    · rw [hgiven, hupdate]
    · rw [kindOf?_eq hgiven hv]
      exact gives_canonicalContent_iff.mpr hd

theorem variant_ofDraft (d : Draft) (kind : Kind) : (ofDraft d kind).variant = kind := by
  cases kind <;> rfl

/-- Nothing is left out of the canonical members. -/
theorem name_mem_canonicalContent {kind : Kind} {ms : Members} {d : Draft} (h : (bodyOf kind).Gives (.object ms) d) :
    ∀ f ∈ fieldsOf kind, f.name ∈ (canonicalContent kind ms).map Prod.fst := by
  have hrequired := fun f hf => Record.exists_key_of_required (f := f) (nodup_fieldsOf kind) h hf
  have hplain : ∀ f ∈ fieldsOf kind, f.presence = .required → f.otherName = none → f.name ∈ ms.map Prod.fst := by
    intro f hf hp hother
    obtain ⟨key, hkey, hname | hname⟩ := hrequired f hf hp
    · exact hname ▸ hkey
    · cases hother.symm.trans hname
  cases kind with
  | createNode =>
    simp only [canonicalContent, Members.mem_keys_fill, fieldsOf, List.forall_mem_cons]
    exact ⟨.inr (hplain tagField (by simp [fieldsOf]) rfl rfl), .inl rfl, by simp⟩
  | paste =>
    simp only [canonicalContent, Members.mem_keys_fill, fieldsOf, List.forall_mem_cons]
    exact ⟨.inr (hplain _ List.mem_cons_self rfl rfl), .inl rfl, by simp⟩
  | changeBounds | changeRouting =>
    rw [canonicalContent, Members.keys_update]
    exact fun f hf => hplain f hf (by revert f; decide) (by revert f; decide)
  | changeData =>
    have helement := hplain (elementField "elementId") List.mem_cons_self rfl rfl
    have hdata : "boundData" ∈ (rename "newModel" "boundData" ms).map Prod.fst := by
      obtain ⟨key, hkey, rfl | hother⟩ := hrequired _ (List.mem_cons_of_mem _ List.mem_cons_self) rfl
      · exact Members.mem_keys_rename hkey (by decide)
      · obtain rfl : "newModel" = key := Option.some.inj hother
        exact Members.new_mem_keys_rename hkey
    simp only [canonicalContent, Members.mem_keys_fill, fieldsOf, List.forall_mem_cons]
    exact ⟨.inr (Members.mem_keys_rename helement (by decide)), .inr hdata, .inl rfl, by simp⟩
  | createEdge | deleteElements | reconnectEdge | editLabel | cut | refreshShowcase =>
    exact fun f hf => hplain f hf (by revert f; decide) (by revert f; decide)

/-- The canonical members name the operation as it is reported and have all the parts with which it is
written. -/
theorem canonical_complete {ms : Members} {op : Operation} (h : decode.Gives (.object ms) op) :
    Members.get? "kind" (canonical ms) = some (.string op.kind) ∧
      ∀ m ∈ op.content, m.1 ∈ (canonical ms).map Prod.fst := by
  obtain ⟨kind, v, d, hgiven, hv, hd, rfl⟩ := gives_object_iff.mp h
  obtain ⟨name, rfl, hname⟩ := Tagged.gives_byName_iff.mp hv
  constructor
  · rw [← Tagged.get?_given, given_canonical, hgiven, kind_eq, variant_ofDraft]
    simp [update, Members.get?, canonicalKind, hname]
  · intro m hm
    have hkey : m.1 ∈ (fieldsOf kind).map Field.name := by
      have hmem := List.mem_map_of_mem (f := Prod.fst) hm
      rwa [keys_content, variant_ofDraft] at hmem
    obtain ⟨f, hf, hname⟩ := List.mem_map.mp hkey
    have hmem := name_mem_canonicalContent hd f hf
    have hothers := others_canonical ms
    rw [kindOf?_eq hgiven hv, Option.elim_some] at hothers
    rw [← hothers, hname] at hmem
    exact (List.filter_sublist.map Prod.fst).subset hmem

/-- An operation is read of its document as it was, its kind being named as it is reported. A document
with older names and with parts left out is read as the canonical one, which has all the parts. -/
theorem read_as_written :
    (∀ op : Operation, op.Writable → decode.ofValue op.toValue.sorted = .ok op ∧
      ∃ ms, op.toValue.sorted = .object ms ∧ Members.get? "kind" ms = some (.string op.kind)) ∧
      ∀ (ms : Members) (op : Operation),
        (decode.ofValue (.object (canonical ms)) = .ok op ↔ decode.ofValue (.object ms) = .ok op) ∧
          (decode.ofValue (.object ms) = .ok op →
            decode.ofValue (Value.object (canonical ms)).sorted = .ok op ∧
              Members.get? "kind" (canonical ms) = some (.string op.kind) ∧
                ∀ m ∈ op.content, m.1 ∈ (canonical ms).map Prod.fst) := by
  simp only [Decoder.ofValue_eq_ok_iff]
  refine ⟨fun op h => ⟨decode_ignoresOrder _ _ h.gives, _, rfl, ?_⟩,
    fun ms op => ⟨gives_canonical_iff, fun h => ⟨?_, ?_⟩⟩⟩
  · rw [← Tagged.get?_given, Tagged.given_sorted, Tagged.given_cons ne_kind_of_mem_content, kind_eq]
    rfl
  · exact decode_ignoresOrder _ _ (gives_canonical_iff.mpr h)
  · exact canonical_complete h

/-- A change of bound data to `null`, under the older names. -/
def olderChange : Members := [("elementId", .string "n"), ("kind", .string "modelChange"), ("newModel", .null)]

example :
    canonical olderChange =
      [("mode", .string "replace"), ("elementId", .string "n"), ("kind", .string "changeBoundData"),
       ("boundData", .null)] :=
  rfl

theorem olderChange_read_as_written :
    decode.ofValue (changeData "n" .null .replace).toValue.sorted = .ok (changeData "n" .null .replace) ∧
      decode.ofValue (.object (canonical olderChange)) = .ok (changeData "n" .null .replace) := by
  have hread : decode.ofValue (.object olderChange) = .ok (changeData "n" .null .replace) := rfl
  exact ⟨(read_as_written.1 (changeData "n" .null .replace) .null).1, (read_as_written.2 _ _).1.mpr hread⟩

end Operation

end DiagramEditor
