import DiagramEditor.Proofs.Model.Rereading
import DiagramEditor.Schema.Wire

/-!
# Records read back

A record is written member by member, absent parts left out. When each member is that of a
field, and none is there twice, reading the members sets these fields and nothing else,
whatever comes before or after them.
-/

set_option autoImplicit false

namespace DiagramEditor

open Json

namespace Json.Tree

theorem ofValues_eq_map (vs : List Value) : ofValues vs = vs.map ofValue := by
  induction vs with
  | nil => rfl
  | cons v vs ih => rw [ofValues, ih, List.map_cons]

theorem ofMembers_eq_map (ms : Members) : ofMembers ms = ms.map fun m => (some m.1, ofValue m.2) := by
  induction ms with
  | nil => rfl
  | cons m ms ih => rw [ofMembers, ih, List.map_cons]

mutual

theorem depth_ofValue (v : Value) : (ofValue v).depth = v.depth := by
  match v with
  | .null | .bool _ | .number _ | .string _ => rfl
  | .array vs => rw [ofValue, depth, Value.depth, depthItems_ofValues vs]
  | .object ms => rw [ofValue, depth, Value.depth, depthMembers_ofMembers ms]

theorem depthItems_ofValues (vs : List Value) : depthItems (ofValues vs) = Value.depthItems vs := by
  match vs with
  | [] => rfl
  | v :: rest => rw [ofValues, depthItems, Value.depthItems, depth_ofValue v, depthItems_ofValues rest]

theorem depthMembers_ofMembers (ms : Members) : depthMembers (ofMembers ms) = Value.depthMembers ms := by
  match ms with
  | [] => rfl
  | (k, v) :: rest => rw [ofMembers, depthMembers, Value.depthMembers, depth_ofValue v, depthMembers_ofMembers rest]

end

end Json.Tree

/-! ### Decoders -/

namespace Decoder

variable {α : Type} {d : Decoder α} {toValue : α → Value}

/-- What the decoder makes of the value is known. -/
def Gives (d : Decoder α) (v : Value) (a : α) : Prop := d (Tree.ofValue v) = .ok a

theorem ofValue_eq_ok_iff {v : Value} {a : α} : d.ofValue v = .ok a ↔ d.Gives v a := by
  rw [ofValue, Gives]
  cases d (Tree.ofValue v) <;> simp

theorem gives_string (s : String) : string.Gives (.string s) s := rfl

theorem gives_value {v : Value} (hv : v.Ordered) : value.Gives v v := by
  rw [Gives, value, Tree.toValue?_ofValue v hv]

/-- A number that fits is written as it is. -/
theorem ofNat_eq_number {n : Nat} {k : Number} (hk : Number.ofInt? n = some k) : Value.ofNat n = .number k := by
  -- opened as a function: applied to `n` it would be computed down to the bounds of a number
  obtain ⟨write, hwrite⟩ : ∃ write, write = Value.ofNat := ⟨_, rfl⟩
  rw [← hwrite]
  delta Value.ofNat at hwrite
  subst hwrite
  dsimp only
  rw [hk]

theorem gives_word32 {n : Nat} (hn : n < Nat.pow 2 32) : word32.Gives (Value.ofNat n) n := by
  have hlimit : n < Nat.pow 2 64 := Nat.lt_of_lt_of_le hn (Nat.pow_le_pow_right (by decide) (by decide))
  have hleast : leastInt ≤ 0 := Int.neg_nonpos_of_nonneg (Int.natCast_nonneg _)
  have hexact : leastInt ≤ (n : Int) ∧ (n : Int) < intLimit :=
    ⟨Int.le_trans hleast (Int.natCast_nonneg n), Int.ofNat_lt.mpr hlimit⟩
  have hword : (0 : Int) ≤ n ∧ (n : Int) < Int.ofNat (Nat.pow 2 32) := ⟨Int.natCast_nonneg n, Int.ofNat_lt.mpr hn⟩
  rw [Gives, ofNat_eq_number (Number.ofInt?_eq hexact)]
  simp only [Tree.ofValue, word32]
  rw [if_pos hword, Int.toNat_natCast]

theorem Gives.option {v : Value} {a : α} (h : d.Gives v a) (hv : v ≠ .null) : (option d).Gives v (some a) := by
  have htree : Decoder.option d (Tree.ofValue v) = (d (Tree.ofValue v)).map some := by
    cases v with
    | null => exact absurd rfl hv
    | _ => rfl
  rw [Gives, htree, h]
  rfl

theorem gives_list {as : List α} (h : ∀ a ∈ as, d.Gives (toValue a) a) :
    (list d).Gives (.array (as.map toValue)) as := by
  have hnone : (as.findSome? fun _ => (none : Option WireError)) = none := List.findSome?_eq_none_iff.mpr fun _ _ => rfl
  have hitems : items d (as.map fun a => Tree.ofValue (toValue a)) = orFault as (as.findSome? fun _ => none) :=
    items_map h
  rw [hnone] at hitems
  rw [Gives, Tree.ofValue, list, Tree.ofValues_eq_map, List.map_map]
  exact hitems

theorem gives_strings (texts : List String) : (list string).Gives (Value.ofStrings texts) texts :=
  gives_list fun s _ => gives_string s

/-- Entries whose keys are all new are put after those that are there. -/
theorem members_ofMembers {entries : List (String × α)} (h : ∀ p ∈ entries, d.Gives (toValue p.2) p.2)
    (before : Table String α) (hn : ((before ++ entries).map Prod.fst).Nodup) :
    members d (Tree.ofMembers (entries.map fun p => (p.1, toValue p.2))) before = .ok (before ++ entries) := by
  induction entries generalizing before with
  | nil => simp [Tree.ofMembers, members]
  | cons p rest ih =>
    rw [List.forall_mem_cons] at h
    have hfirst : d (Tree.ofValue (toValue p.2)) = .ok p.2 := h.1
    have hnew : Table.get? p.1 before = none := by
      rw [Table.get?_eq_none_iff]
      rw [List.map_append, List.nodup_append] at hn
      exact fun hm => hn.2.2 p.1 hm p.1 (by simp) rfl
    have hput : Table.put p.1 p.2 before = before ++ [p] := Table.put_of_get?_eq_none p.2 hnew
    have hrest := ih h.2 (before ++ [p]) (by simpa using hn)
    rw [List.append_assoc, List.singleton_append] at hrest
    rw [← hput] at hrest
    simp only [List.map_cons, Tree.ofMembers, members, hfirst]
    exact hrest

theorem gives_table {entries : List (String × α)} (h : ∀ p ∈ entries, d.Gives (toValue p.2) p.2)
    (hn : (entries.map Prod.fst).Nodup) : (table d).Gives (.object (entries.map fun p => (p.1, toValue p.2))) entries :=
  members_ofMembers h [] hn

end Decoder

/-! ### Records -/

namespace Record

variable {α β : Type} {fields : List (Field α)}

/-- From the members the fields of these names are read, and with them the record is changed so. -/
def Reads (fields : List (Field α)) (ms : Members) (names : List String) (set : α → α) : Prop :=
  ∀ more seen a, (∀ name ∈ names, name ∉ seen) →
    readMembers fields (Tree.ofMembers ms ++ more) seen a = readMembers fields more (names.reverse ++ seen) (set a)

namespace Reads

theorem nil : Reads fields [] [] id := fun _ _ _ _ => rfl

theorem append {ms ms' : Members} {names names' : List String} {set set' : α → α} (h : Reads fields ms names set)
    (h' : Reads fields ms' names' set') (hn : ∀ name ∈ names', name ∉ names) :
    Reads fields (ms ++ ms') (names ++ names') (set' ∘ set) := by
  intro more seen a hseen
  have hfirst := h (Tree.ofMembers ms' ++ more) seen a fun name hm => hseen name (List.mem_append_left _ hm)
  have hnext := h' more (names.reverse ++ seen) (set a) fun name hm hbad => by
    rcases List.mem_append.mp hbad with hbad | hbad
    · exact hn name hm (List.mem_reverse.mp hbad)
    · exact hseen name (List.mem_append_right _ hm) hbad
  rw [Tree.ofMembers_eq_map, List.map_append, ← Tree.ofMembers_eq_map, ← Tree.ofMembers_eq_map, List.append_assoc,
    hfirst, hnext, List.reverse_append, List.append_assoc]
  rfl

variable {f : Field α} {d : Decoder β}

/-- One member, that of the field it is named for. -/
theorem member (key : String) (set : β → α → α) {v : Value} {b : β} (hf : fields.find? (·.answersTo key) = some f)
    (hname : f.name = key) (hread : ∀ t, f.read t = (d t).map set) (hb : d.Gives v b) :
    Reads fields [(key, v)] [key] (set b) := by
  intro more seen a hseen
  have hnew : seen.contains key = false := by simpa using hseen key (by simp)
  have hset : f.read (Tree.ofValue v) = .ok (set b) := by
    rw [hread, show d (Tree.ofValue v) = .ok b from hb]
    rfl
  simp only [Tree.ofMembers, List.cons_append, List.nil_append, readMembers, hf, hname, hnew, hset]
  rfl

/-- The name of a member that is there if the part is. -/
def nameOf (name : String) (part : Option β) : List String := if part.isSome then [name] else []

@[simp] theorem mem_nameOf {name other : String} {part : Option β} :
    other ∈ nameOf name part ↔ other = name ∧ part.isSome = true := by
  cases part <;> simp [nameOf]

/-- A member that is written only where there is a part to write. -/
theorem optional (key : String) (set : Option β → α → α) {toValue : β → Value} {part : Option β}
    (hf : fields.find? (·.answersTo key) = some f) (hname : f.name = key)
    (hread : ∀ t, f.read t = (Decoder.option d t).map set)
    (hpart : ∀ b ∈ part, d.Gives (toValue b) b ∧ toValue b ≠ .null) :
    Reads fields (Members.whenSome key toValue part) (nameOf key part) (part.elim id fun b => set (some b)) := by
  cases part with
  | none => exact nil
  | some b =>
    obtain ⟨hgives, hnull⟩ := hpart b rfl
    have hb : (Decoder.option d).Gives (toValue b) (some b) := hgives.option hnull
    show Reads fields [(key, toValue b)] [key] (set (some b))
    exact member key set hf hname hread hb

end Reads

/-- A record all of whose required fields are written is read back. -/
theorem gives_of_reads {ms : Members} {names : List String} {set : α → α} (h : Reads fields ms names set)
    (hrequired : ∀ f ∈ fields, f.presence = .required → f.name ∈ names) {start a : α} (ha : set start = a) :
    (decode fields start).Gives (.object ms) a := by
  subst ha
  have hread := h [] [] start fun _ _ hbad => nomatch hbad
  rw [List.append_nil, List.append_nil] at hread
  have hmissing : missing? fields names.reverse = none := by
    rw [missing?, List.find?_eq_none]
    intro f hf
    cases hp : f.presence with
    | required => simpa using hrequired f hf hp
    | optional | defaulted => exact Bool.false_ne_true
  rw [Decoder.Gives, Tree.ofValue, decode, hread]
  simp only [readMembers, hmissing]

end Record

end DiagramEditor
