import DiagramEditor.Proofs.Wire.Order

/-!
# Tagged unions

The tag of an object stands once among its members, wherever it likes. What is read besides it
is what the other members give.
-/

set_option autoImplicit false

namespace DiagramEditor

open Json

namespace Tagged

variable {β : Type} {tag : String} {pick : Decoder β} {ms : Members} {b : β} {v content : Value} {t : Tree}

/-- The members that name the variant. -/
def given (tag : String) (ms : Members) : Members := ms.filter (·.1 = tag)

/-- The members that do not. -/
def others (tag : String) (ms : Members) : Members := ms.filter (·.1 ≠ tag)

theorem key_of_mem_given {m : String × Value} (hm : m ∈ given tag ms) : m.1 = tag := by
  simpa using (List.mem_filter.mp hm).2

theorem key_of_mem_others {m : String × Value} (hm : m ∈ others tag ms) : m.1 ≠ tag := by
  simpa using (List.mem_filter.mp hm).2

/-- The variant that is named, if it is named once. -/
def pickOne (tag : String) (pick : Decoder β) : Members → Option β → Except WireError (Option β)
  | [], found => .ok found
  | _ :: _, some _ => .error (.duplicateField tag)
  | m :: rest, none => do
    let b ← pick (Tree.ofValue m.2)
    pickOne tag pick rest (some b)

/-- Taking the tag out, the members that name it are looked at and the others are kept. -/
theorem splitMembers_eq (ms : Members) (found : Option β) :
    splitMembers tag pick (Tree.ofMembers ms) found =
      (pickOne tag pick (given tag ms) found).map fun b => (b, Tree.ofMembers (others tag ms)) := by
  induction ms generalizing found with
  | nil => rfl
  | cons m rest ih =>
    obtain ⟨key, v⟩ := m
    by_cases hkey : key = tag
    · have hgiven : given tag ((key, v) :: rest) = (key, v) :: given tag rest := by simp [given, hkey]
      have hothers : others tag ((key, v) :: rest) = others tag rest := by simp [others, hkey]
      rw [hgiven, hothers]
      cases found with
      | some b => simp [Tree.ofMembers, splitMembers, hkey, pickOne, Except.map]
      | none =>
        simp only [Tree.ofMembers, splitMembers, if_pos hkey, pickOne, ih]
        cases pick (Tree.ofValue v) <;> rfl
    · have hgiven : given tag ((key, v) :: rest) = given tag rest := by simp [given, hkey]
      have hothers : others tag ((key, v) :: rest) = (key, v) :: others tag rest := by simp [others, hkey]
      have hvalue : (Tree.ofValue v).toValue?.isNone = false := by
        rw [Tree.toValue?_ofValue_sorted]
        rfl
      rw [hgiven, hothers]
      simp only [Tree.ofMembers, splitMembers, if_neg hkey, hvalue, Bool.false_eq_true, if_false, ih]
      cases pickOne tag pick (given tag rest) found <;> rfl

/-- The tag is read of an object that names it once. -/
theorem split_object_iff : split tag pick (Tree.ofValue (.object ms)) = .ok (b, t) ↔
    (∃ v, given tag ms = [(tag, v)] ∧ pick (Tree.ofValue v) = .ok b) ∧ t = Tree.ofValue (.object (others tag ms)) := by
  rw [Tree.ofValue, split, splitMembers_eq]
  match hgiven : given tag ms with
  | [] => simp [pickOne, Except.map, bind, Except.bind]
  | [m] =>
    obtain ⟨key, v⟩ := m
    have hm : (key, v) ∈ given tag ms := by simp [hgiven]
    obtain rfl : key = tag := key_of_mem_given hm
    cases hb : pick (Tree.ofValue v) <;>
      simp [pickOne, hb, Except.map, bind, Except.bind, pure, Except.pure, Tree.ofValue, eq_comm]
  | m :: n :: rest =>
    cases hb : pick (Tree.ofValue m.2) <;> simp [pickOne, hb, Except.map, bind, Except.bind]

theorem split_array_iff {vs : List Value} : split tag pick (Tree.ofValue (.array vs)) = .ok (b, t) ↔
    ∃ v rest, vs = v :: rest ∧ pick (Tree.ofValue v) = .ok b ∧ t = Tree.ofValue (.array rest) := by
  cases vs with
  | nil => simp [Tree.ofValue, Tree.ofValues, split]
  | cons v rest =>
    have hvalues : (Tree.toValues? (Tree.ofValues rest)).isNone = false := by
      rw [Tree.toValues?_ofValues]
      rfl
    cases hb : pick (Tree.ofValue v) <;>
      simp [Tree.ofValue, Tree.ofValues, split, hvalues, hb, bind, Except.bind, pure, Except.pure, eq_comm]

theorem get?_given (tag : String) (ms : Members) : Members.get? tag (given tag ms) = Members.get? tag ms := by
  rw [given, Members.get?_filter (fun key => key = tag), if_pos (by simp)]

theorem given_sorted (tag : String) (ms : Members) :
    given tag (Members.ofList (Value.sortedMembers ms)) = Members.ofList (Value.sortedMembers (given tag ms)) := by
  rw [given, Members.filter_ofList (fun key => key = tag), Value.filter_sortedMembers (fun key => key = tag), given]

theorem others_sorted (tag : String) (ms : Members) :
    others tag (Members.ofList (Value.sortedMembers ms)) = Members.ofList (Value.sortedMembers (others tag ms)) := by
  rw [others, Members.filter_ofList (fun key => key ≠ tag), Value.filter_sortedMembers (fun key => key ≠ tag), others]

/-- The tag is also read of a value that is sorted, and its fields are left sorted. -/
theorem split_sorted (hpick : pick.IgnoresOrder) (h : split tag pick (Tree.ofValue v) = .ok (b, t)) :
    ∃ content, t = Tree.ofValue content ∧
      split tag pick (Tree.ofValue v.sorted) = .ok (b, Tree.ofValue content.sorted) := by
  cases v with
  | null | bool | number | string => simp [Tree.ofValue, split] at h
  | array vs =>
    obtain ⟨first, rest, rfl, hfirst, rfl⟩ := split_array_iff.mp h
    exact ⟨.array rest, rfl, split_array_iff.mpr ⟨_, _, rfl, hpick first b hfirst, rfl⟩⟩
  | object ms =>
    obtain ⟨⟨named, hgiven, hnamed⟩, rfl⟩ := split_object_iff.mp h
    refine ⟨.object (others tag ms), rfl, split_object_iff.mpr ⟨⟨named.sorted, ?_, hpick named b hnamed⟩, ?_⟩⟩
    · rw [given_sorted, hgiven]
      rfl
    · rw [others_sorted, Value.sorted]

theorem fields_eq_ok_iff {α : Type} {d : Decoder α} {a : α} : fields d t = .ok a ↔ d t = .ok a := by
  rw [fields]
  cases d t <;> simp

@[simp] theorem byName_ignoresOrder {variants : Table String β} : (byName variants).IgnoresOrder := by
  rintro (_ | _ | _ | _ | _ | _) b h <;> exact h

/-- A variant without fields has nothing in it that could be sorted. -/
@[simp] theorem plain_ignoresOrder {variants : Table String β} : (plain variants).IgnoresOrder := by
  rintro (_ | _ | _ | _ | _ | ms) b h
  case object =>
    match ms with
    | [] | _ :: _ :: _ => cases h
    | [(key, .null)] | [(key, .object [])] => exact h
    | [(key, .bool _)] | [(key, .number _)] | [(key, .string _)] | [(key, .array _)] | [(key, .object (_ :: _))] =>
      rw [Decoder.Gives] at h
      cases hname : named variants key <;>
        simp [Tree.ofValue, Tree.ofMembers, plain, hname, bind, Except.bind] at h
  all_goals exact h

theorem gives_byName_iff {variants : Table String β} : (byName variants).Gives v b ↔
    ∃ name, v = .string name ∧ Table.get? name variants = some b := by
  cases v with
  | string name =>
    rw [Decoder.Gives, Tree.ofValue, byName, named]
    cases hname : Table.get? name variants <;> simp [hname]
  | _ => simp [Decoder.Gives, Tree.ofValue, byName]

section Written

variable (hms : ∀ m ∈ ms, m.1 ≠ tag)
include hms

theorem given_cons (v : Value) : given tag ((tag, v) :: ms) = [(tag, v)] := by
  rw [given, List.filter_cons_of_pos (by simp), List.filter_eq_nil_iff.mpr (by simpa using hms)]

theorem others_cons (v : Value) : others tag ((tag, v) :: ms) = ms := by
  rw [others, List.filter_cons_of_neg (by simp), List.filter_eq_self.mpr (by simpa using hms)]

/-- The tag is written first. -/
theorem split_ofValue {name : String} (hb : pick (.string name) = .ok b) :
    split tag pick (Tree.ofValue (.object ((tag, .string name) :: ms))) = .ok (b, Tree.ofValue (.object ms)) :=
  split_object_iff.mpr ⟨⟨_, given_cons hms _, hb⟩, by rw [others_cons hms]⟩

end Written

end Tagged

end DiagramEditor
