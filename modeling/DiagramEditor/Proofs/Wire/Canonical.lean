import DiagramEditor.Proofs.Wire.Order

/-!
# Canonical members

A record may be given under older names and with fields left out. Giving a field by the name it is
written with, adding what it is when left out and replacing a member by one that is read alike all
leave the record as it is.
-/

set_option autoImplicit false

namespace DiagramEditor

open Json

namespace Json.Members

variable {key old new : String} {p : String → Bool} {ms : Members}

/-- Adds a member unless there is one of its key. -/
def fill (key : String) (v : Value) (ms : Members) : Members := if (get? key ms).isSome then ms else (key, v) :: ms

def rename (old new : String) (ms : Members) : Members := ms.map fun m => if m.1 = old then (new, m.2) else m

def update (key : String) (f : Value → Value) (ms : Members) : Members :=
  ms.map fun m => if m.1 = key then (key, f m.2) else m

theorem filter_fill (key : String) (hkey : p key = true) (v : Value) (ms : Members) :
    (fill key v ms).filter (fun m => p m.1) = fill key v (ms.filter fun m => p m.1) := by
  rw [fill, fill, get?_filter, if_pos hkey]
  split
  · rfl
  · rw [List.filter_cons_of_pos (by simpa using hkey)]

theorem filter_fill_of_not (key : String) (hkey : p key = false) (v : Value) (ms : Members) :
    (fill key v ms).filter (fun m => p m.1) = ms.filter fun m => p m.1 := by
  rw [fill]
  split
  · rfl
  · rw [List.filter_cons_of_neg (by simp [hkey])]

theorem filter_rename (old new : String) (hp : p old = p new) (ms : Members) :
    (rename old new ms).filter (fun m => p m.1) = rename old new (ms.filter fun m => p m.1) := by
  rw [rename, List.filter_map, rename]
  congr 2
  funext m
  by_cases hm : m.1 = old <;> simp [hm, hp]

theorem filter_update (key : String) (f : Value → Value) (ms : Members) :
    (update key f ms).filter (fun m => p m.1) = update key f (ms.filter fun m => p m.1) := by
  rw [update, List.filter_map, update]
  congr 2
  funext m
  by_cases hm : m.1 = key <;> simp [hm]

theorem mem_keys_fill {k : String} {v : Value} : k ∈ (fill key v ms).map Prod.fst ↔ k = key ∨ k ∈ ms.map Prod.fst := by
  rw [fill]
  split
  · rename_i hthere
    rw [Option.isSome_iff_ne_none, Ne, get?_eq_none_iff, not_not] at hthere
    exact (or_iff_right_of_imp fun hk => hk ▸ hthere).symm
  · simp

theorem keys_update (f : Value → Value) (ms : Members) : (update key f ms).map Prod.fst = ms.map Prod.fst := by
  rw [update, List.map_map]
  refine List.map_congr_left fun m _ => ?_
  by_cases hm : m.1 = key <;> simp [hm]

theorem mem_keys_rename {k : String} (h : k ∈ ms.map Prod.fst) (hk : k ≠ old) :
    k ∈ (rename old new ms).map Prod.fst := by
  obtain ⟨m, hm, rfl⟩ := List.mem_map.mp h
  exact List.mem_map.mpr ⟨_, List.mem_map_of_mem hm, by rw [if_neg hk]⟩

theorem new_mem_keys_rename (h : old ∈ ms.map Prod.fst) : new ∈ (rename old new ms).map Prod.fst := by
  obtain ⟨m, hm, rfl⟩ := List.mem_map.mp h
  exact List.mem_map.mpr ⟨_, List.mem_map_of_mem hm, by rw [if_pos rfl]⟩

theorem rename_eq_self (h : ∀ m ∈ ms, m.1 ≠ old) : rename old new ms = ms :=
  (List.map_congr_left fun m hm => if_neg (h m hm)).trans (List.map_id' ms)

theorem update_eq_self {f : Value → Value} (h : ∀ m ∈ ms, m.1 ≠ key) : update key f ms = ms :=
  (List.map_congr_left fun m hm => if_neg (h m hm)).trans (List.map_id' ms)

end Json.Members

namespace Json.Value

/-- Changes every item of an array. -/
def eachItem (f : Value → Value) : Value → Value
  | .array vs => .array (vs.map f)
  | v => v

/-- Changes the members of an object. -/
def inObject (f : Members → Members) : Value → Value
  | .object ms => .object (f ms)
  | v => v

end Json.Value

/-! ### Records -/

/-- Both values are read alike. -/
def Field.ReadsAlike {α : Type} (f : Field α) (v w : Value) : Prop :=
  ∀ set, f.read (Tree.ofValue v) = .ok set ↔ f.read (Tree.ofValue w) = .ok set

namespace Record

variable {α : Type} {fields : List (Field α)} {f : Field α} {ms : Members} {a b start : α}

section Mapping

variable {change : String × Value → String × Value}
  (hfind : ∀ m, fields.find? (·.answersTo (change m).1) = fields.find? (·.answersTo m.1))
include hfind

theorem met_map (ms : Members) : met fields (ms.map change) = met fields ms := by
  rw [met, List.filterMap_map, met]
  congr 1
  funext m
  rw [Function.comp_apply, hfind]

variable (hread : ∀ m f, fields.find? (·.answersTo m.1) = some f → f.ReadsAlike (change m).2 m.2)
include hread

theorem sets_map_iff : Sets fields (ms.map change) a b ↔ Sets fields ms a b := by
  induction ms generalizing a with
  | nil => exact Iff.rfl
  | cons m ms ih =>
    rw [List.map_cons]
    cases hf : fields.find? (·.answersTo m.1) with
    | none => rw [sets_skip_iff hf, sets_skip_iff ((hfind m).trans hf), ih]
    | some f =>
      rw [sets_field_iff hf, sets_field_iff ((hfind m).trans hf)]
      exact exists_congr fun set => and_congr (hread m f hf set) ih

/-- Members that are found and read alike give the same record. -/
theorem gives_map_iff : (decode fields start).Gives (.object (ms.map change)) a ↔
    (decode fields start).Gives (.object ms) a := by
  rw [gives_object_iff, gives_object_iff, sets_map_iff hfind hread, met_map hfind]

end Mapping

/-- A field that has two names is given by either. -/
theorem gives_rename_iff {old new : String}
    (hnames : fields.find? (·.answersTo old) = fields.find? (·.answersTo new)) :
    (decode fields start).Gives (.object (Members.rename old new ms)) a ↔
      (decode fields start).Gives (.object ms) a := by
  refine gives_map_iff (fun m => ?_) fun m f _ set => ?_
  · by_cases hm : m.1 = old <;> simp [hm, hnames]
  · by_cases hm : m.1 = old <;> simp [hm]

/-- A member is replaced by one that is read alike. -/
theorem gives_update_iff {key : String} {change : Value → Value}
    (hread : ∀ f, fields.find? (·.answersTo key) = some f → ∀ v, f.ReadsAlike (change v) v) :
    (decode fields start).Gives (.object (Members.update key change ms)) a ↔
      (decode fields start).Gives (.object ms) a := by
  refine gives_map_iff (fun m => ?_) fun m f hf set => ?_
  · by_cases hm : m.1 = key <;> simp [hm]
  · by_cases hm : m.1 = key
    · rw [if_pos hm]
      exact hread f (hm ▸ hf) m.2 set
    · rw [if_neg hm]

/-- A required field is given by one of its names. -/
theorem exists_key_of_required (hn : (fields.map Field.name).Nodup) (h : (decode fields start).Gives (.object ms) a)
    (hf : f ∈ fields) (hrequired : f.presence = .required) :
    ∃ key ∈ ms.map Prod.fst, key = f.name ∨ f.otherName = some key := by
  obtain ⟨m, hm, hname⟩ := List.mem_filterMap.mp ((gives_object_iff.mp h).2.2 f hf hrequired)
  obtain ⟨g, hg, hname⟩ := Option.map_eq_some_iff.mp hname
  obtain rfl : g = f := List.inj_on_of_nodup_map hn (List.mem_of_find?_eq_some hg) hf hname
  have hanswers : g.name = m.1 ∨ g.otherName = some m.1 := by simpa [Field.answersTo] using List.find?_some hg
  exact ⟨m.1, List.mem_map_of_mem hm, hanswers.imp_left Eq.symm⟩

/-- Only the field itself answers to its name. -/
structure Owns (fields : List (Field α)) (f : Field α) : Prop where
  found : fields.find? (·.answersTo f.name) = some f
  single : f.otherName = none
  names : (fields.map Field.name).Nodup

theorem Owns.eq_of_name (h : Owns fields f) {g : Field α} (hg : g ∈ fields) (hname : g.name = f.name) : g = f :=
  List.inj_on_of_nodup_map h.names hg (List.mem_of_find?_eq_some h.found) hname

/-- A field that is not met has no member of its key. -/
theorem Owns.mem_met_iff (h : Owns fields f) : f.name ∈ met fields ms ↔ (Members.get? f.name ms).isSome = true := by
  rw [Option.isSome_iff_ne_none, Ne, Members.get?_eq_none_iff, not_not, met, List.mem_filterMap, List.mem_map]
  refine exists_congr fun m => and_congr_right fun _ => ?_
  rw [Option.map_eq_some_iff]
  constructor
  · rintro ⟨g, hg, hname⟩
    obtain rfl := h.eq_of_name (List.mem_of_find?_eq_some hg) hname
    have hanswers : g.name = m.1 := by simpa [Field.answersTo, h.single] using List.find?_some hg
    exact hanswers.symm
  · rintro hkey
    exact ⟨f, hkey ▸ h.found, rfl⟩

/-- What is left out is as it was at the start. -/
theorem gives_fill_iff (h : Owns fields f) (hpresence : f.presence ≠ .required) {v : Value} {set : α → α}
    (hset : f.read (Tree.ofValue v) = .ok set) (hstart : set start = start) :
    (decode fields start).Gives (.object (Members.fill f.name v ms)) a ↔
      (decode fields start).Gives (.object ms) a := by
  rw [Members.fill]
  split
  · exact Iff.rfl
  · rename_i hleft
    rw [← h.mem_met_iff] at hleft
    have hmet : met fields ((f.name, v) :: ms) = f.name :: met fields ms := by
      rw [met_cons]
      simp [h.found]
    have hsets : Sets fields ((f.name, v) :: ms) start a ↔ Sets fields ms start a := by
      rw [sets_field_iff h.found]
      simp [hset, hstart]
    have hrequired : ∀ g ∈ fields, g.presence = .required → g.name ≠ f.name := fun g hg hp hname =>
      hpresence (h.eq_of_name hg hname ▸ hp)
    rw [gives_object_iff, gives_object_iff, hsets, hmet, List.nodup_cons]
    refine and_congr_right fun _ => and_congr (and_iff_right hleft) (forall₃_congr fun g hg hp => ?_)
    rw [List.mem_cons, or_iff_right (hrequired g hg hp)]

end Record

/-! ### Items -/

namespace Decoder

variable {α : Type} {d : Decoder α} {change : Value → Value}

theorem gives_eachItem_iff (h : ∀ v a, d.Gives (change v) a ↔ d.Gives v a) {v : Value} {as : List α} :
    (list d).Gives (v.eachItem change) as ↔ (list d).Gives v as := by
  cases v with
  | array vs =>
    rw [Value.eachItem, Gives, Gives, Tree.ofValue, Tree.ofValue, list, list, gives_items_iff, gives_items_iff,
      List.forall₂_map_left_iff]
    exact ⟨List.Forall₂.imp fun v a => (h v a).mp, List.Forall₂.imp fun v a => (h v a).mpr⟩
  | _ => exact Iff.rfl

end Decoder

theorem Field.readsAlike_make {α β : Type} {d : Decoder β} {v w : Value} (h : ∀ b, d.Gives v b ↔ d.Gives w b)
    (name : String) (presence : Presence) (set : β → α → α) : (make name presence d set).ReadsAlike v w := by
  have hread : ∀ v change, (make name presence d set).read (Tree.ofValue v) = .ok change ↔
      ∃ b, d.Gives v b ∧ change = set b := by
    refine fun v change => ⟨of_read_make, ?_⟩
    rintro ⟨b, hb, rfl⟩
    exact read_of_gives hb
  intro change
  rw [hread, hread]
  exact exists_congr fun b => and_congr_left fun _ => h b

end DiagramEditor
