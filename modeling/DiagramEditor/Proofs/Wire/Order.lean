import DiagramEditor.Proofs.Wire.Records
import Mathlib.Data.List.Pairwise

/-!
# The order of members

A record that is read from an object is found from the members in any order, since its fields
set different parts of it. So what is read of a document is also read of it once it is sorted.
-/

set_option autoImplicit false

namespace DiagramEditor

open Json

namespace Json.Tree

mutual

/-- The tree of a value can be skipped. -/
theorem isWhole_ofValue (v : Value) : (ofValue v).isWhole = true := by
  match v with
  | .null | .bool _ | .number _ | .string _ => rfl
  | .array vs => rw [ofValue, isWhole, areWhole_ofValues vs]
  | .object ms => rw [ofValue, isWhole, membersWhole_ofMembers ms]

theorem areWhole_ofValues (vs : List Value) : areWhole (ofValues vs) = true := by
  match vs with
  | [] => rfl
  | v :: rest => rw [ofValues, areWhole, isWhole_ofValue v, areWhole_ofValues rest, Bool.and_self]

theorem membersWhole_ofMembers (ms : Members) : membersWhole (ofMembers ms) = true := by
  match ms with
  | [] => rfl
  | (k, v) :: rest => rw [ofMembers, membersWhole, isWhole_ofValue v, membersWhole_ofMembers rest, Bool.and_self]

end

end Json.Tree

/-! ### Records -/

/-- It makes no difference which of two fields is read first. -/
def Field.Commutes {α : Type} (f g : Field α) : Prop :=
  ∀ t u set set', f.read t = .ok set → g.read u = .ok set' → ∀ a, set (set' a) = set' (set a)

instance {α : Type} : Std.Symm (Field.Commutes (α := α)) :=
  ⟨fun _ _ h t u set set' hset hset' a => (h u t set' set hset' hset a).symm⟩

namespace Record

variable {α : Type} {fields : List (Field α)} {m : String × Value} {ms ms' : Members} {a b : α}

/-- Every two fields of a record set different parts. -/
def Independent (fields : List (Field α)) : Prop := fields.Pairwise Field.Commutes

/-- What the members set, read one after the other. -/
inductive Sets (fields : List (Field α)) : Members → α → α → Prop
  | nil (a : α) : Sets fields [] a a
  | skip {m : String × Value} {ms : Members} {a b : α} :
    fields.find? (·.answersTo m.1) = none → Sets fields ms a b → Sets fields (m :: ms) a b
  | field {m : String × Value} {ms : Members} {f : Field α} {set : α → α} {a b : α} :
    fields.find? (·.answersTo m.1) = some f → f.read (Tree.ofValue m.2) = .ok set → Sets fields ms (set a) b →
    Sets fields (m :: ms) a b

/-- The names of the fields that are given. -/
def met (fields : List (Field α)) (ms : Members) : List String :=
  ms.filterMap fun m => (fields.find? (·.answersTo m.1)).map Field.name

theorem met_cons (m : String × Value) (ms : Members) :
    met fields (m :: ms) = ((fields.find? (·.answersTo m.1)).map Field.name).toList ++ met fields ms := by
  rw [met, List.filterMap_cons]
  cases fields.find? (·.answersTo m.1) <;> rfl

theorem sets_nil_iff : Sets fields [] a b ↔ a = b :=
  ⟨fun h => by cases h; rfl, fun h => h ▸ .nil a⟩

theorem sets_skip_iff (hf : fields.find? (·.answersTo m.1) = none) :
    Sets fields (m :: ms) a b ↔ Sets fields ms a b := by
  refine ⟨fun h => ?_, .skip hf⟩
  cases h with
  | skip _ h => exact h
  | field hf' => cases hf.symm.trans hf'

theorem sets_field_iff {f : Field α} (hf : fields.find? (·.answersTo m.1) = some f) :
    Sets fields (m :: ms) a b ↔ ∃ set, f.read (Tree.ofValue m.2) = .ok set ∧ Sets fields ms (set a) b := by
  refine ⟨fun h => ?_, fun ⟨set, hset, h⟩ => .field hf hset h⟩
  cases h with
  | skip hf' => cases hf.symm.trans hf'
  | field hf' hset h =>
    obtain rfl := Option.some.inj (hf.symm.trans hf')
    exact ⟨_, hset, h⟩

theorem readMembers_eq_ok_iff {seen : List String} {found : List String × α} :
    readMembers fields (Tree.ofMembers ms) seen a = .ok found ↔
      found.1 = (met fields ms).reverse ++ seen ∧ Sets fields ms a found.2 ∧ (met fields ms).Nodup ∧
        ∀ name ∈ met fields ms, name ∉ seen := by
  induction ms generalizing seen a with
  | nil =>
    rw [Tree.ofMembers, readMembers, Except.ok.injEq, sets_nil_iff, Prod.ext_iff]
    simp [met, eq_comm]
  | cons m ms ih =>
    obtain ⟨key, v⟩ := m
    rw [Tree.ofMembers, readMembers, met_cons]
    cases hf : fields.find? (·.answersTo key) with
    | none => simp [Tree.isWhole_ofValue, ih, sets_skip_iff (m := (key, v)) hf]
    | some f =>
      by_cases hseen : f.name ∈ seen
      · simp [hseen]
      · cases hset : f.read (Tree.ofValue v) with
        | error e => simp [hseen, hset, sets_field_iff (m := (key, v)) hf]
        | ok set =>
          simp only [List.contains_eq_mem, hseen, decide_false, Bool.false_eq_true, if_false, hset, ih,
            sets_field_iff (m := (key, v)) hf, Except.ok.injEq, exists_eq_left', Option.map_some, Option.toList_some,
            List.singleton_append, List.reverse_cons, List.append_assoc, List.nodup_cons, List.mem_cons, not_or,
            forall_eq_or_imp]
          constructor
          · rintro ⟨hfound, h, hn, hnew⟩
            exact ⟨hfound, h, ⟨fun hm => (hnew _ hm).1 rfl, hn⟩, not_false, fun name hm => (hnew name hm).2⟩
          · rintro ⟨hfound, h, hn, _, hnew⟩
            exact ⟨hfound, h, hn.2, fun name hm => ⟨fun heq => hn.1 (heq ▸ hm), hnew name hm⟩⟩

/-- A record is read of an object if its members set it, no field is given twice and no required
one is left out. -/
theorem gives_object_iff {start : α} :
    (decode fields start).Gives (.object ms) a ↔
      Sets fields ms start a ∧ (met fields ms).Nodup ∧
        ∀ f ∈ fields, f.presence = .required → f.name ∈ met fields ms := by
  have hmissing : ∀ seen, missing? fields seen = none ↔ ∀ f ∈ fields, f.presence = .required → f.name ∈ seen := by
    simp [missing?, List.find?_eq_none]
  have hdecode : (decode fields start).Gives (.object ms) a ↔
      ∃ seen, readMembers fields (Tree.ofMembers ms) [] start = .ok (seen, a) ∧ missing? fields seen = none := by
    rw [Decoder.Gives, Tree.ofValue, decode]
    cases readMembers fields (Tree.ofMembers ms) [] start with
    | error e => simp
    | ok found =>
      obtain ⟨seen, c⟩ := found
      cases hm : missing? fields seen <;> simp [hm]
  simp [hdecode, hmissing, readMembers_eq_ok_iff, and_assoc]

/-- A record is read of members that give these fields, each of them once and all that are required. -/
theorem gives_of_sets {start : α} (names : List String) (h : Sets fields ms start a) (hmet : met fields ms = names)
    (hn : names.Nodup) (hrequired : ∀ f ∈ fields, f.presence = .required → f.name ∈ names) :
    (decode fields start).Gives (.object ms) a := by
  subst hmet
  exact gives_object_iff.mpr ⟨h, hn, hrequired⟩

theorem met_perm (hperm : ms.Perm ms') : (met fields ms).Perm (met fields ms') := hperm.filterMap _

theorem Sets.perm (hind : Independent fields) (hperm : ms.Perm ms') (hn : (met fields ms).Nodup) :
    Sets fields ms a b → Sets fields ms' a b := by
  induction hperm generalizing a with
  | nil => exact id
  | cons m _ ih =>
    rw [met_cons] at hn
    intro h
    cases h with
    | skip hf h => exact .skip hf (ih hn.of_append_right h)
    | field hf hset h => exact .field hf hset (ih hn.of_append_right h)
  | swap m n ms =>
    intro h
    cases h with
    | skip hf h =>
      cases h with
      | skip hg h => exact .skip hg (.skip hf h)
      | field hg hset h => exact .field hg hset (.skip hf h)
    | field hf hset h =>
      cases h with
      | skip hg h => exact .skip hg (.field hf hset h)
      | @field _ _ g set' _ _ hg hset' h =>
        rename_i f set
        have hne : f ≠ g := by
          rintro rfl
          simp [met_cons, hf, hg] at hn
        have hcommutes : f.Commutes g :=
          hind.forall (List.mem_of_find?_eq_some hf) (List.mem_of_find?_eq_some hg) hne
        rw [← hcommutes _ _ set set' hset hset'] at h
        exact .field hg hset' (.field hf hset h)
  | trans h₁ _ ih₁ ih₂ => exact fun h => ih₂ ((met_perm h₁).nodup_iff.mp hn) (ih₁ hn h)

theorem gives_object_perm (hind : Independent fields) (hperm : ms.Perm ms') {start : α} :
    (decode fields start).Gives (.object ms) a ↔ (decode fields start).Gives (.object ms') a := by
  have himp : ∀ {ms ms' : Members}, ms.Perm ms' → (decode fields start).Gives (.object ms) a →
      (decode fields start).Gives (.object ms') a := fun hperm h => by
    obtain ⟨hsets, hn, hrequired⟩ := gives_object_iff.mp h
    exact gives_object_iff.mpr ⟨hsets.perm hind hperm hn, (met_perm hperm).nodup_iff.mp hn,
      fun f hf hp => (met_perm hperm).subset (hrequired f hf hp)⟩
  exact ⟨himp hperm, himp hperm.symm⟩

/-- Some field answers to the key. -/
def known (fields : List (Field α)) (key : String) : Bool := (fields.find? (·.answersTo key)).isSome

theorem known_eq_false (hf : fields.find? (·.answersTo m.1) = none) : known fields m.1 = false := by rw [known, hf]; rfl

theorem known_eq_true {f : Field α} (hf : fields.find? (·.answersTo m.1) = some f) : known fields m.1 = true := by
  rw [known, hf]
  rfl

theorem met_filter_known (ms : Members) : met fields (ms.filter fun m => known fields m.1) = met fields ms := by
  induction ms with
  | nil => rfl
  | cons m ms ih =>
    cases hf : fields.find? (·.answersTo m.1) with
    | none => simp [known_eq_false hf, met_cons, hf, ih]
    | some f => simp [known_eq_true hf, met_cons, hf, ih]

theorem sets_filter_known_iff : Sets fields (ms.filter fun m => known fields m.1) a b ↔ Sets fields ms a b := by
  induction ms generalizing a with
  | nil => exact Iff.rfl
  | cons m ms ih =>
    cases hf : fields.find? (·.answersTo m.1) with
    | none => simp [known_eq_false hf, sets_skip_iff hf, ih]
    | some f => simp [known_eq_true hf, sets_field_iff hf, ih]

/-- Only members that a field answers to matter. -/
theorem gives_object_known {start : α} :
    (decode fields start).Gives (.object (ms.filter fun m => known fields m.1)) a ↔
      (decode fields start).Gives (.object ms) a := by
  rw [gives_object_iff, gives_object_iff, sets_filter_known_iff, met_filter_known]

/-- A field is not given twice, so its key is not. -/
theorem nodup_known (hn : (met fields ms).Nodup) : ((ms.filter fun m => known fields m.1).map Prod.fst).Nodup := by
  induction ms with
  | nil => exact List.nodup_nil
  | cons m ms ih =>
    rw [met_cons] at hn
    have hrest := ih hn.of_append_right
    cases hf : fields.find? (·.answersTo m.1) with
    | none => rwa [List.filter_cons_of_neg (by simp [known_eq_false hf])]
    | some f =>
      rw [hf] at hn
      have hkey : m.1 ∉ (ms.filter fun m => known fields m.1).map Prod.fst := by
        intro hm
        obtain ⟨other, hother, hkey⟩ := List.mem_map.mp hm
        refine (List.nodup_cons.mp hn).1 (List.mem_filterMap.mpr ⟨other, (List.mem_filter.mp hother).1, ?_⟩)
        rw [hkey, hf]
        rfl
      rw [List.filter_cons_of_pos (by simp [known_eq_true hf])]
      exact List.nodup_cons.mpr ⟨hkey, hrest⟩

end Record

/-! ### Sorting -/

/-- What is read of a document is also read of it once it is sorted. -/
def Decoder.IgnoresOrder {α : Type} (d : Decoder α) : Prop := ∀ v a, d.Gives v a → d.Gives v.sorted a

namespace Field

variable {α β γ : Type} {d : Decoder β} {d' : Decoder γ}

/-- What is set by a member is also set by it once it is sorted. -/
def IgnoresOrder (f : Field α) : Prop :=
  ∀ v set, f.read (Tree.ofValue v) = .ok set → f.read (Tree.ofValue v.sorted) = .ok set

theorem of_read_make {name : String} {presence : Presence} {set : β → α → α} {t : Tree} {change : α → α}
    (h : (make name presence d set).read t = .ok change) : ∃ b, d t = .ok b ∧ change = set b := by
  cases hb : d t with
  | error e => simp [make, hb, Except.map] at h
  | ok b => exact ⟨b, rfl, by simpa [make, hb, Except.map] using h.symm⟩

theorem read_of_gives {name : String} {presence : Presence} {set : β → α → α} {v : Value} {b : β} (h : d.Gives v b) :
    (make name presence d set).read (Tree.ofValue v) = .ok (set b) := by
  rw [Decoder.Gives] at h
  simp [make, h, Except.map]

/-- Whichever of its two names a field is given by, it is read alike. -/
theorem read_orNamed_of_gives {name other : String} {presence : Presence} {set : β → α → α} {v : Value} {b : β}
    (h : d.Gives v b) : ((make name presence d set).orNamed other).read (Tree.ofValue v) = .ok (set b) := by
  have hread : (make name presence d set).read (Tree.ofValue v) = .ok (set b) := read_of_gives h
  exact hread

@[simp] theorem ignoresOrder_make {name : String} {presence : Presence} {set : β → α → α} (hd : d.IgnoresOrder) :
    (make name presence d set).IgnoresOrder := by
  intro v change h
  obtain ⟨b, hb, rfl⟩ := of_read_make h
  exact read_of_gives (hd v b hb)

@[simp] theorem commutes_make {name name' : String} {presence presence' : Presence} {set : β → α → α} {set' : γ → α → α}
    (h : ∀ b c a, set b (set' c a) = set' c (set b a)) :
    (make name presence d set).Commutes (make name' presence' d' set') := by
  intro t u change change' hchange hchange' a
  obtain ⟨b, _, rfl⟩ := of_read_make hchange
  obtain ⟨c, _, rfl⟩ := of_read_make hchange'
  exact h b c a

/-- A second name changes how a field is found, not how it is read. -/
@[simp] theorem commutes_orNamed {f g : Field α} {other : String} : f.Commutes (g.orNamed other) ↔ f.Commutes g :=
  Iff.rfl

@[simp] theorem orNamed_commutes {f g : Field α} {other : String} : (f.orNamed other).Commutes g ↔ f.Commutes g :=
  Iff.rfl

@[simp] theorem ignoresOrder_orNamed {f : Field α} {other : String} : (f.orNamed other).IgnoresOrder ↔ f.IgnoresOrder :=
  Iff.rfl

end Field

namespace Record

variable {α : Type} {fields : List (Field α)} {ms : Members} {a b : α}

@[simp] theorem independent_nil : Independent ([] : List (Field α)) := List.Pairwise.nil

@[simp] theorem independent_cons {f : Field α} :
    Independent (f :: fields) ↔ (∀ g ∈ fields, f.Commutes g) ∧ Independent fields := List.pairwise_cons

theorem met_sortedMembers (ms : Members) : met fields (Value.sortedMembers ms) = met fields ms := by
  rw [met, Value.sortedMembers_eq_map, List.filterMap_map]
  rfl

/-- Once its keys are sorted, an object without a repeated key gives what its sorted values give. -/
theorem gives_sorted_iff (hind : Independent fields) (hn : (ms.map Prod.fst).Nodup) {start : α} :
    (decode fields start).Gives (Value.object ms).sorted a ↔
      (decode fields start).Gives (.object (Value.sortedMembers ms)) a :=
  gives_object_perm hind (Members.ofList_perm (by rwa [Value.keys_sortedMembers]))

theorem Sets.sorted (hfields : ∀ f ∈ fields, f.IgnoresOrder) (h : Sets fields ms a b) :
    Sets fields (Value.sortedMembers ms) a b := by
  induction h with
  | nil a => exact .nil a
  | skip hf _ ih => exact .skip hf ih
  | field hf hset _ ih => exact .field hf (hfields _ (List.mem_of_find?_eq_some hf) _ _ hset) ih

theorem readItems_sorted (hfields : ∀ f ∈ fields, f.IgnoresOrder) {vs : List Value}
    (h : readItems fields (Tree.ofValues vs) a = .ok b) :
    readItems fields (Tree.ofValues (Value.sortedItems vs)) a = .ok b := by
  induction fields generalizing vs a with
  | nil =>
    cases vs with
    | nil => exact h
    | cons v vs => cases h
  | cons f fields ih =>
    rw [List.forall_mem_cons] at hfields
    cases vs with
    | nil =>
      rw [Tree.ofValues, readItems] at h
      split at h
      · rename_i hp
        rw [Value.sortedItems, Tree.ofValues, readItems, if_pos hp]
        have hrest : readItems fields (Tree.ofValues []) a = .ok b := h
        exact ih hfields.2 hrest
      · cases h
    | cons v vs =>
      rw [Tree.ofValues, readItems] at h
      split at h
      · cases h
      · rename_i set hset
        rw [Value.sortedItems, Tree.ofValues, readItems, hfields.1 v set hset]
        exact ih hfields.2 h

/-- A record whose fields are read in any order is read of a document once it is sorted. -/
theorem ignoresOrder (hind : Independent fields) (hfields : ∀ f ∈ fields, f.IgnoresOrder) (start : α) :
    (decode fields start).IgnoresOrder := by
  intro v a h
  match v with
  | .null | .bool _ | .number _ | .string _ => exact h
  | .array vs => exact readItems_sorted hfields h
  | .object ms =>
    obtain ⟨hsets, hn, hrequired⟩ := gives_object_iff.mp h
    rw [← met_sortedMembers] at hn hrequired
    have hinside : (decode fields start).Gives (.object (Value.sortedMembers ms)) a :=
      gives_object_iff.mpr ⟨hsets.sorted hfields, hn, hrequired⟩
    rw [Value.sorted, ← gives_object_known, Members.filter_ofList]
    exact (gives_object_perm hind (Members.ofList_perm (nodup_known hn))).mpr (gives_object_known.mpr hinside)

end Record

namespace Decoder

variable {α : Type} {d : Decoder α}

@[simp] theorem string_ignoresOrder : string.IgnoresOrder := by
  rintro (_ | _ | _ | _ | _ | _) a h <;> exact h

@[simp] theorem float_ignoresOrder : float.IgnoresOrder := by
  rintro (_ | _ | _ | _ | _ | _) a h <;> exact h

theorem gives_value_iff {v w : Value} : value.Gives v w ↔ w = v.sorted := by
  rw [Gives, value, Tree.toValue?_ofValue_sorted, Except.ok.injEq, eq_comm]

@[simp] theorem value_ignoresOrder : value.IgnoresOrder := by
  intro v w h
  rw [gives_value_iff] at h ⊢
  rw [h, Value.sorted_sorted]

@[simp] theorem IgnoresOrder.option (hd : d.IgnoresOrder) : (Decoder.option d).IgnoresOrder := by
  intro v found h
  by_cases hv : v = .null
  · subst hv
    exact h
  · have hread : (d (Tree.ofValue v)).map some = .ok found := by
      cases v with
      | null => exact absurd rfl hv
      | _ => exact h
    cases ha : d (Tree.ofValue v) with
    | error e => simp [ha, Except.map] at hread
    | ok a =>
      obtain rfl : some a = found := by simpa [ha, Except.map] using hread
      exact (hd v a ha).option (by cases v <;> simp_all [Value.sorted])

theorem gives_items_iff {vs : List Value} {as : List α} :
    items d (Tree.ofValues vs) = .ok as ↔ List.Forall₂ d.Gives vs as := by
  induction vs generalizing as with
  | nil => simp [Tree.ofValues, items, eq_comm]
  | cons v vs ih =>
    rw [Tree.ofValues, items, List.forall₂_cons_left_iff]
    cases ha : d (Tree.ofValue v) with
    | error e => simp [Gives, ha, bind, Except.bind]
    | ok a =>
      cases hrest : items d (Tree.ofValues vs) with
      | error e => simp [Gives, ha, hrest, ← ih, bind, Except.bind]
      | ok more => simp [Gives, ha, hrest, ← ih, bind, Except.bind, pure, Except.pure, eq_comm]

theorem gives_list_iff {v : Value} {as : List α} :
    (list d).Gives v as ↔ ∃ vs, v = .array vs ∧ List.Forall₂ d.Gives vs as := by
  cases v with
  | array vs => simpa [Gives, list, Tree.ofValue] using gives_items_iff
  | _ => simp [Gives, list, Tree.ofValue]

@[simp] theorem IgnoresOrder.list (hd : d.IgnoresOrder) : (Decoder.list d).IgnoresOrder := by
  intro v as h
  obtain ⟨vs, rfl, hvs⟩ := gives_list_iff.mp h
  refine gives_list_iff.mpr ⟨_, rfl, ?_⟩
  rw [Value.sortedItems_eq_map, List.forall₂_map_left_iff]
  exact hvs.imp fun v a => hd v a

theorem gives_elements_iff {id : α → String} {v : Value} {as : List α} :
    (elements id d).Gives v as ↔ (list d).Gives v as ∧ distinct id [] as = .ok () := by
  rw [Gives, elements, Gives]
  cases list d (Tree.ofValue v) with
  | error e => simp [bind, Except.bind]
  | ok found =>
    cases hdistinct : distinct id [] found with
    | error e =>
      simp only [bind, Except.bind, hdistinct, Except.ok.injEq, reduceCtorEq, false_iff, not_and]
      rintro rfl
      simp [hdistinct]
    | ok u =>
      simp only [bind, Except.bind, hdistinct, pure, Except.pure, Except.ok.injEq]
      exact ⟨fun h => ⟨h, h ▸ hdistinct⟩, And.left⟩

@[simp] theorem IgnoresOrder.elements (hd : d.IgnoresOrder) (id : α → String) : (Decoder.elements id d).IgnoresOrder :=
  fun v as h => gives_elements_iff.mpr ((gives_elements_iff.mp h).imp_left (hd.list v as))

end Decoder

end DiagramEditor
