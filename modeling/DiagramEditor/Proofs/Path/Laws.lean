import DiagramEditor.Proofs.Path.Assigning
import DiagramEditor.Proofs.Json.Ordered

/-!
# The laws of assignments

A value can be written at a path when every step of it finds a container to start from, and
then it is found there, nothing apart from it has changed, a second value takes its place
as if it had never been written, and writing what is there changes nothing. Where a value
cannot be written, all that may have changed are nulls and missing members, which have
become objects or nulls.
-/

set_option autoImplicit false

namespace DiagramEditor

open Json

namespace Segment

/-- A step can be made from what stands there: a name from an object, from null or from
nothing, an index from an array with such an item. -/
def Fits : Segment → Option Value → Prop
  | .field _, found => found = none ∨ found = some .null ∨ ∃ members, found = some (.object members)
  | .index n, found => ∃ items, found = some (.array items) ∧ n < items.length

theorem fits_field_iff {name : String} {v : Value} :
    (field name).Fits (some v) ↔ ∃ members, Path.asMembers? v = some members := by
  cases v <;> simp [Fits, Path.asMembers?]

end Segment

namespace Path

variable {p q : Path} {new other data : Value} {members : Members} {name : String}

/-- Every step on the way fits what is found where it begins. -/
def Fits (p : Path) (found : Option Value) : Prop :=
  ∀ before s rest, p = before ++ s :: rest → s.Fits (found.bind (resolve? before))

/-- A value can be written there. -/
def Writable (p : Path) (data : Value) : Prop := p ≠ [] ∧ p.Fits (some data)

/-- What may become of a place when nothing could be written. Whatever is neither null nor
missing stays, an array with as many items. -/
def Kept : Option Value → Option Value → Prop
  | none, after => after = none ∨ after = some .null ∨ ∃ members, after = some (.object members)
  | some .null, after => after = some .null ∨ ∃ members, after = some (.object members)
  | some (.array items), after => ∃ more, after = some (.array more) ∧ more.length = items.length
  | some (.object _), after => ∃ members, after = some (.object members)
  | some v, after => after = some v

/-! ### Where a value can be written -/

theorem fits_nil (found : Option Value) : Fits [] found := by
  intro before s rest h
  simp at h

/-- The first step, and the others from where it leads. -/
theorem fits_cons {s : Segment} {found : Option Value} :
    Fits (s :: p) found ↔ s.Fits found ∧ p.Fits (found.bind (step? s)) := by
  constructor
  · intro h
    refine ⟨by simpa [resolve?] using h [] s p rfl, fun before t rest hp => ?_⟩
    have hlater := h (s :: before) t rest (by rw [hp]; rfl)
    rwa [Option.bind_assoc]
  · rintro ⟨hfirst, hrest⟩ before t rest hp
    cases before with
    | nil =>
      obtain ⟨rfl, rfl⟩ := List.cons.inj hp
      simpa [resolve?] using hfirst
    | cons u before =>
      obtain ⟨rfl, rfl⟩ := List.cons.inj hp
      have hlater := hrest before t rest rfl
      rwa [Option.bind_assoc] at hlater

/-- What stands where a member is missing or null: enough for the step that follows. -/
theorem memberSlot_eq (members : Members) (name : String) (rest : Path) :
    memberSlot members name rest =
      match Members.get? name members with
      | none | some .null => if startsWithIndex rest then .null else .emptyObject
      | some v => v := by
  unfold memberSlot
  cases Members.get? name members with
  | none => rfl
  | some v => cases v <;> rfl

/-- The slot is the member, or it stands for one that is null or missing. -/
theorem memberSlot_cases (members : Members) (name : String) (rest : Path) :
    Members.get? name members = some (memberSlot members name rest) ∨
      (Members.get? name members = none ∨ Members.get? name members = some .null) ∧
        (memberSlot members name rest = .null ∨ memberSlot members name rest = .emptyObject) := by
  rw [memberSlot_eq]
  cases Members.get? name members with
  | none => cases startsWithIndex rest <;> simp
  | some v => cases v <;> cases startsWithIndex rest <;> simp

/-- The slot made for a member fits the next step just where the member does. -/
theorem fits_memberSlot {s : Segment} {rest : Path} :
    Fits (s :: rest) (some (memberSlot members name (s :: rest))) ↔ Fits (s :: rest) (Members.get? name members) := by
  have hlater : (some (memberSlot members name (s :: rest))).bind (step? s) = (Members.get? name members).bind (step? s) := by
    have hone := resolve?_memberSlot (q := [s]) members name (s :: rest) (List.cons_ne_nil _ _)
    simpa [resolve?] using hone
  have hfirst : s.Fits (some (memberSlot members name (s :: rest))) ↔ s.Fits (Members.get? name members) := by
    rw [memberSlot_eq]
    cases Members.get? name members with
    | none => cases s <;> simp [Segment.Fits, startsWithIndex, Value.emptyObject]
    | some v => cases v <;> cases s <;> simp [Segment.Fits, startsWithIndex, Value.emptyObject]
  rw [fits_cons, fits_cons, hlater, hfirst]

theorem fault_assignFrom_eq_none_iff (before : Path) :
    (assignFrom before new p data).fault = none ↔ p.Writable data := by
  induction p generalizing before data with
  | nil => simp [assignFrom, Writable]
  | cons s rest ih =>
    rw [Writable, and_iff_right (List.cons_ne_nil s rest), fits_cons]
    cases s with
    | field name =>
      rw [Segment.fits_field_iff, Option.bind_some, step?_field]
      cases hm : asMembers? data with
      | none => cases rest <;> simp [assignFrom, hm]
      | some members =>
        cases rest with
        | nil => simp [assignFrom, hm, fits_nil]
        | cons t rest =>
          simp only [assignFrom, hm, ih, Writable, fits_memberSlot]
          simp
    | index n =>
      cases data with
      | array items =>
        cases rest with
        | nil =>
          by_cases hn : n < items.length <;> simp [assignFrom, hn, fits_nil, Segment.Fits]
        | cons t rest =>
          cases hv : items[n]? with
          | none =>
            have hn : ¬ n < items.length := by simpa using hv
            simp [assignFrom, Segment.Fits, hn]
          | some v =>
            have hn : n < items.length := (List.getElem?_eq_some_iff.mp hv).1
            simp only [assignFrom, hv, ih, Writable, Option.bind_some, step?]
            simp [Segment.Fits, hn]
      | _ => cases rest <;> simp [assignFrom, Segment.Fits]

/-! ### What is there once a value was written -/

theorem asMembers?_object (members : Members) : asMembers? (.object members) = some members := rfl

/-- A member that a path goes on from is not null, so the next step starts from it. -/
theorem memberSlot_of_get? {rest : Path} {v w : Value} (hget : Members.get? name members = some v) (hne : rest ≠ [])
    (hv : resolve? rest v = some w) : memberSlot members name rest = v := by
  rw [memberSlot_eq, hget]
  cases v with
  | null => simp [resolve?_null hne] at hv
  | _ => rfl

/-- A second value is written as if there had been no first one. -/
theorem assignFrom_assignFrom (before : Path) (h : (assignFrom before new p data).fault = none) :
    assignFrom before other p (assignFrom before new p data).data = assignFrom before other p data := by
  induction p generalizing before data with
  | nil => rfl
  | cons s rest ih =>
    cases s with
    | field name =>
      cases hm : asMembers? data with
      | none => cases rest <;> simp [assignFrom, hm] at h
      | some members =>
        cases rest with
        | nil => simp only [assignFrom, hm, asMembers?_object, Members.insert_insert]
        | cons t rest =>
          simp only [assignFrom, hm] at h ⊢
          have hslot := memberSlot_of_get? (Members.get?_insert_self name _ members) (List.cons_ne_nil t rest)
            (resolve?_assignFrom _ h)
          simp only [asMembers?_object, hslot, ih _ h, Members.insert_insert]
    | index n =>
      cases data with
      | array items =>
        cases rest with
        | nil =>
          by_cases hn : n < items.length
          · simp [assignFrom, hn]
          · simp [assignFrom, hn] at h
        | cons t rest =>
          cases hv : items[n]? with
          | none => simp [assignFrom, hv] at h
          | some v =>
            have hn : n < items.length := (List.getElem?_eq_some_iff.mp hv).1
            simp only [assignFrom, hv] at h ⊢
            simp only [List.getElem?_set_self hn, ih _ h, List.set_set]
      | _ => cases rest <;> cases h

/-- Writing what is there changes nothing. -/
theorem assignFrom_self (before : Path) (hd : data.Ordered) (h : resolve? p data = some new) :
    (assignFrom before new p data).data = data := by
  induction p generalizing before data with
  | nil => rfl
  | cons s rest ih =>
    rw [resolve?, Option.bind_eq_some_iff] at h
    obtain ⟨v, hstep, hv⟩ := h
    cases s with
    | field name =>
      cases hd with
      | object hasc hmembers =>
        have hget : Members.get? name _ = some v := hstep
        cases rest with
        | nil =>
          obtain rfl : v = new := Option.some.inj hv
          simp only [assignFrom, asMembers?_object, hasc.insert_of_get? hget]
        | cons t rest =>
          have hslot : memberSlot _ name (t :: rest) = v :=
            memberSlot_of_get? hget (List.cons_ne_nil t rest) hv
          simp only [assignFrom, asMembers?_object, hslot]
          rw [ih _ (hmembers _ (Members.mem_of_get? hget)) hv, hasc.insert_of_get? hget]
      | _ => cases hstep
    | index n =>
      cases hd with
      | @array items hitems =>
        have hget : items[n]? = some v := hstep
        obtain ⟨hn, hitem⟩ := List.getElem?_eq_some_iff.mp hget
        have hset : items.set n v = items := hitem ▸ List.set_getElem_self hn
        cases rest with
        | nil =>
          obtain rfl : v = new := Option.some.inj hv
          simp only [assignFrom, if_pos hn, hset]
        | cons t rest => simp only [assignFrom, hget, ih _ (hitems v (List.mem_of_getElem? hget)) hv, hset]
      | _ => cases hstep

/-! ### What is left where nothing could be written -/

theorem Kept.refl (found : Option Value) : Kept found found := by
  cases found with
  | none => exact .inl rfl
  | some v =>
    cases v with
    | null => exact .inl rfl
    | array items => exact ⟨items, rfl, rfl⟩
    | object members => exact ⟨members, rfl⟩
    | _ => rfl

theorem kept_object (hm : asMembers? data = some members) (more : Members) :
    Kept (some data) (some (.object more)) := by
  cases data with
  | null => exact .inr ⟨more, rfl⟩
  | object _ => exact ⟨more, rfl⟩
  | _ => cases hm

theorem Kept.of_missing {found after : Option Value} (h : found = none ∨ found = some .null)
    (hafter : after = some .null ∨ ∃ members, after = some (.object members)) : Kept found after := by
  rcases h with rfl | rfl
  · exact .inr hafter
  · exact hafter

/-- What may become of the slot made for a member may become of the member. -/
theorem Kept.of_memberSlot {rest : Path} {after : Option Value}
    (h : Kept (resolve? q (memberSlot members name rest)) after) :
    Kept ((Members.get? name members).bind (resolve? q)) after := by
  cases q with
  | nil =>
    have hroot : (Members.get? name members).bind (resolve? []) = Members.get? name members :=
      Option.bind_fun_some _
    rw [hroot]
    rcases memberSlot_cases members name rest with hv | ⟨hmissing, hslot⟩
    · rw [hv]
      exact h
    · refine .of_missing hmissing ?_
      rcases hslot with hslot | hslot <;> rw [hslot] at h
      · exact h
      · exact .inr h
  | cons s q => rwa [resolve?_memberSlot members name rest (List.cons_ne_nil s q)] at h

/-- Where nothing could be written, every place is what it was, but that a null or a missing
member may have become an object or a null. -/
theorem kept_assignFrom (before : Path) (h : (assignFrom before new p data).fault ≠ none) (q : Path) :
    Kept (resolve? q data) (resolve? q (assignFrom before new p data).data) := by
  -- the two paths are followed together; where they part nothing has changed
  induction p generalizing before data q with
  | nil => exact .refl _
  | cons s rest ih =>
    cases s with
    | field name =>
      cases hm : asMembers? data with
      | none => cases rest <;> simp [assignFrom, hm, Kept.refl]
      | some members =>
        cases rest with
        | nil => simp [assignFrom, hm] at h
        | cons t rest =>
          simp only [assignFrom, hm] at h ⊢
          cases q with
          | nil => exact kept_object hm _
          | cons u q =>
            by_cases hu : u = .field name
            · subst hu
              rw [resolve?, resolve?, step?_field, step?_field, hm, asMembers?_object, Option.bind_some, Option.bind_some,
                Members.get?_insert_self, Option.bind_some]
              exact .of_memberSlot (ih _ h q)
            · rw [resolve?_insert hu hm]
              exact .refl _
    | index n =>
      cases data with
      | array items =>
        cases rest with
        | nil =>
          by_cases hn : n < items.length <;> simp [assignFrom, hn, Kept.refl] at h ⊢
        | cons t rest =>
          cases hv : items[n]? with
          | none => simp [assignFrom, hv, Kept.refl]
          | some v =>
            have hn : n < items.length := (List.getElem?_eq_some_iff.mp hv).1
            simp only [assignFrom, hv] at h ⊢
            cases q with
            | nil => exact ⟨_, rfl, List.length_set⟩
            | cons u q =>
              by_cases hu : u = .index n
              · subst hu
                rw [resolve?, resolve?, step?, step?, List.getElem?_set_self hn, hv, Option.bind_some, Option.bind_some]
                exact ih _ h q
              · rw [resolve?_set hu]
                exact .refl _
      | _ => cases rest <;> exact .refl _

/-- Writing and reading by paths obey the laws of a lens. Which writings succeed is told by what
the steps of the path meet; those that succeed are found, leave all that lies apart, replace one
another and change nothing where nothing is new; those that fail keep all but nulls and missing
members. -/
theorem assign_lawful (p : Path) (new data : Value) (hd : data.Ordered) :
    ((assign p new data).fault = none ↔ p.Writable data) ∧
      (∀ q, p.Apart q → resolve? q (assign p new data).data = resolve? q data) ∧
      ((assign p new data).fault = none →
        resolve? p (assign p new data).data = some new ∧
          (∀ other, assign p other (assign p new data).data = assign p other data) ∧
          (resolve? p data = some new → (assign p new data).data = data)) ∧
      ((assign p new data).fault ≠ none → ∀ q, Kept (resolve? q data) (resolve? q (assign p new data).data)) := by
  refine ⟨fault_assignFrom_eq_none_iff [], fun q h => resolve?_assign_of_apart h, fun h => ⟨?_, ?_, ?_⟩, ?_⟩
  · exact resolve?_assign h
  · exact fun other => assignFrom_assignFrom [] h
  · exact fun hr => assignFrom_self [] hd hr
  · exact fun h q => kept_assignFrom [] h q

/-- An object with a list, whose second item is null, and a null. -/
def sampleData : Value :=
  .object [("items", .array [.object [("name", .string "a")], .null]), ("title", .null)]

theorem ordered_sampleData : sampleData.Ordered := by
  refine .object (List.pairwise_pair.mpr (by decide)) fun m hm => ?_
  rcases List.mem_cons.mp hm with rfl | hm
  · refine .array fun v hv => ?_
    rcases List.mem_cons.mp hv with rfl | hv
    · exact .object (List.pairwise_singleton _ _) (by simpa using .string _)
    · exact List.mem_singleton.mp hv ▸ .null
  · exact List.mem_singleton.mp hm ▸ .null

/-- A label is written into the null item; below the null title no item is found, and only the
title and its member have changed. -/
theorem sample_assign_lawful :
    sampleData.Ordered ∧
      (assign [.field "items", .index 1, .field "label"] (.string "b") sampleData).fault = none ∧
      resolve? [.field "items", .index 1, .field "label"]
          (assign [.field "items", .index 1, .field "label"] (.string "b") sampleData).data = some (.string "b") ∧
      (assign [.field "title", .field "lines", .index 0] (.string "b") sampleData).fault ≠ none ∧
      Kept (resolve? [.field "title", .field "lines"] sampleData)
        (resolve? [.field "title", .field "lines"]
          (assign [.field "title", .field "lines", .index 0] (.string "b") sampleData).data) := by
  have hwritten : (assign [.field "items", .index 1, .field "label"] (.string "b") sampleData).fault = none := rfl
  have hbroken : (assign [.field "title", .field "lines", .index 0] (.string "b") sampleData).fault ≠ none := by
    rintro ⟨⟩
  obtain ⟨_, _, hfound, _⟩ := assign_lawful _ (.string "b") sampleData ordered_sampleData
  obtain ⟨_, _, _, hkept⟩ := assign_lawful _ (.string "b") sampleData ordered_sampleData
  exact ⟨ordered_sampleData, hwritten, (hfound hwritten).1, hbroken, hkept hbroken _⟩

end Path

end DiagramEditor
