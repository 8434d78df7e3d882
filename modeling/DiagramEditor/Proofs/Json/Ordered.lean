import DiagramEditor.Wire.Decoder
import Mathlib.Data.String.Basic

/-!
# Ordered documents

In an ordered document the keys of every object ascend, so an object has one member
of a key. What is read from a text or a value is ordered.
-/

set_option autoImplicit false

namespace DiagramEditor.Json

namespace Members

/-- The keys ascend; in particular none comes twice. -/
def Ascending (members : Members) : Prop := members.Pairwise fun a b => a.1 < b.1

variable {members : Members}

theorem mem_insert {key : String} {value : Value} {m : String × Value} (h : m ∈ insert key value members) :
    m = (key, value) ∨ m ∈ members := by
  induction members with
  | nil => exact Or.inl (List.mem_singleton.mp h)
  | cons first rest ih =>
    obtain ⟨k, v⟩ := first
    rw [insert] at h
    split at h
    · exact (List.mem_cons.mp h).imp_right (List.mem_cons_of_mem _)
    · split at h
      · exact List.mem_cons.mp h
      · rcases List.mem_cons.mp h with rfl | hm
        · exact Or.inr (by simp)
        · exact (ih hm).imp_right (List.mem_cons_of_mem _)

theorem Ascending.insert (h : members.Ascending) (key : String) (value : Value) :
    (members.insert key value).Ascending := by
  induction members with
  | nil => exact List.pairwise_singleton _ _
  | cons first rest ih =>
    obtain ⟨k, v⟩ := first
    obtain ⟨hfirst, hrest⟩ := List.pairwise_cons.mp h
    rw [Members.insert]
    split
    · rename_i hk
      exact List.pairwise_cons.mpr ⟨fun m hm => hk ▸ hfirst m hm, hrest⟩
    · rename_i hk
      split
      · rename_i hlt
        refine List.pairwise_cons.mpr ⟨fun m hm => ?_, h⟩
        rcases List.mem_cons.mp hm with rfl | hm
        · exact hlt
        · exact hlt.trans (hfirst m hm)
      · rename_i hlt
        refine List.pairwise_cons.mpr ⟨fun m hm => ?_, ih hrest⟩
        rcases mem_insert hm with rfl | hm
        · exact lt_of_le_of_ne (not_lt.mp hlt) hk
        · exact hfirst m hm

theorem Ascending.insertAll (h : members.Ascending) (more : Members) : (members.insertAll more).Ascending := by
  induction more generalizing members with
  | nil => exact h
  | cons m more ih => exact ih (h.insert m.1 m.2)

theorem ascending_ofList (members : Members) : (ofList members).Ascending :=
  Ascending.insertAll List.Pairwise.nil members

theorem mem_of_mem_insertAll {more : Members} {m : String × Value} (h : m ∈ insertAll members more) :
    m ∈ members ∨ m ∈ more := by
  induction more generalizing members with
  | nil => exact Or.inl h
  | cons first more ih =>
    rcases ih h with hm | hm
    · rcases mem_insert hm with rfl | hm
      · exact Or.inr List.mem_cons_self
      · exact Or.inl hm
    · exact Or.inr (List.mem_cons_of_mem _ hm)

theorem get?_insertAll_of_notMem {key : String} {more : Members} (h : key ∉ more.map Prod.fst) :
    get? key (insertAll members more) = get? key members := by
  induction more generalizing members with
  | nil => rfl
  | cons m more ih =>
    rw [List.map_cons, List.mem_cons, not_or] at h
    exact (ih h.2).trans (get?_insert_of_ne m.2 members h.1)

/-- What was added, none of it twice, is found before what was there. -/
theorem get?_insertAll {key : String} {more : Members} (h : (more.map Prod.fst).Nodup) :
    get? key (insertAll members more) = (get? key more).or (get? key members) := by
  induction more generalizing members with
  | nil => rfl
  | cons m more ih =>
    obtain ⟨k, v⟩ := m
    rw [List.map_cons, List.nodup_cons] at h
    by_cases hk : k = key
    · subst hk
      rw [get?, if_pos rfl]
      exact (get?_insertAll_of_notMem h.1).trans (get?_insert_self k v members)
    · rw [get?, if_neg hk, ← get?_insert_of_ne v members (Ne.symm hk)]
      exact ih h.2

theorem mem_of_get? {key : String} {v : Value} (h : get? key members = some v) : (key, v) ∈ members := by
  induction members with
  | nil => cases h
  | cons m rest ih =>
    obtain ⟨k, w⟩ := m
    rw [get?] at h
    split at h
    · rename_i hk
      rw [← hk, ← Option.some.inj h]
      exact List.mem_cons_self
    · exact List.mem_cons_of_mem _ (ih h)

/-- An object has no member of a key but the one that is found. -/
theorem Ascending.mem_iff (h : members.Ascending) {key : String} {v : Value} :
    (key, v) ∈ members ↔ get? key members = some v := by
  refine ⟨fun hm => ?_, mem_of_get?⟩
  induction members with
  | nil => cases hm
  | cons m rest ih =>
    obtain ⟨k, w⟩ := m
    obtain ⟨hfirst, hrest⟩ := List.pairwise_cons.mp h
    rcases List.mem_cons.mp hm with heq | hm
    · obtain ⟨rfl, rfl⟩ := Prod.mk.inj heq
      rw [get?, if_pos rfl]
    · rw [get?, if_neg (hfirst _ hm).ne, ih hrest hm]

/-- Putting in the member that is there changes nothing. -/
theorem Ascending.insert_of_get? (h : members.Ascending) {key : String} {v : Value}
    (hv : get? key members = some v) : Members.insert key v members = members := by
  induction members with
  | nil => cases hv
  | cons m rest ih =>
    obtain ⟨k, w⟩ := m
    obtain ⟨hfirst, hrest⟩ := List.pairwise_cons.mp h
    rw [get?] at hv
    rw [Members.insert]
    by_cases hk : k = key
    · rw [if_pos hk] at hv ⊢
      rw [← Option.some.inj hv, hk]
    · rw [if_neg hk] at hv ⊢
      have hlt : k < key := hfirst _ (mem_of_get? hv)
      rw [if_neg hlt.asymm, ih hrest hv]

theorem Ascending.nodup (h : members.Ascending) : (members.map Prod.fst).Nodup :=
  List.pairwise_map.mpr (h.imp ne_of_lt)

end Members

/-- The keys of every object ascend. -/
inductive Value.Ordered : Value → Prop
  | null : Ordered .null
  | bool (b : Bool) : Ordered (.bool b)
  | number (n : Number) : Ordered (.number n)
  | string (s : String) : Ordered (.string s)
  | array {items : List Value} : (∀ v ∈ items, v.Ordered) → Ordered (.array items)
  | object {members : Members} : members.Ascending → (∀ m ∈ members, m.2.Ordered) → Ordered (.object members)

namespace Tree

mutual

theorem ordered_of_toValue? (t : Tree) (v : Value) (h : t.toValue? = some v) : v.Ordered := by
  match t with
  | .null => obtain rfl := Option.some.inj h; exact .null
  | .bool b => obtain rfl := Option.some.inj h; exact .bool b
  | .number n => obtain rfl := Option.some.inj h; exact .number n
  | .string s => obtain rfl := Option.some.inj h; exact .string s
  | .array items =>
    rw [toValue?, Option.map_eq_some_iff] at h
    obtain ⟨vs, hvs, rfl⟩ := h
    exact .array (ordered_of_toValues? items vs hvs)
  | .object members =>
    rw [toValue?, Option.map_eq_some_iff] at h
    obtain ⟨ms, hms, rfl⟩ := h
    refine .object (Members.ascending_ofList ms) fun m hm => ?_
    rcases Members.mem_of_mem_insertAll hm with hm | hm
    · cases hm
    · exact ordered_of_toMembers? members ms hms m hm
  | .fault f => cases h

theorem ordered_of_toValues? (ts : List Tree) (vs : List Value) (h : toValues? ts = some vs) :
    ∀ v ∈ vs, v.Ordered := by
  match ts with
  | [] =>
    obtain rfl := Option.some.inj h
    simp
  | t :: rest =>
    rw [toValues?] at h
    split at h
    · rename_i v more hv hmore
      obtain rfl := Option.some.inj h
      intro w hw
      rcases List.mem_cons.mp hw with rfl | hw
      · exact ordered_of_toValue? t _ hv
      · exact ordered_of_toValues? rest more hmore w hw
    · cases h

theorem ordered_of_toMembers? (ms : List (Option String × Tree)) (members : Members)
    (h : toMembers? ms = some members) : ∀ m ∈ members, m.2.Ordered := by
  match ms with
  | [] =>
    obtain rfl := Option.some.inj h
    simp
  | (none, t) :: rest => cases h
  | (some k, t) :: rest =>
    unfold toMembers? at h
    split at h
    · rename_i key v more hk hv hmore
      obtain rfl := Option.some.inj h
      intro m hm
      rcases List.mem_cons.mp hm with rfl | hm
      · exact ordered_of_toValue? t _ hv
      · exact ordered_of_toMembers? rest more hmore m hm
    · cases h

end

end Tree

end DiagramEditor.Json

namespace DiagramEditor

open Json

theorem Decoder.ordered_of_value {t : Tree} {v : Value} (h : Decoder.value t = .ok v) : v.Ordered := by
  rw [Decoder.value] at h
  split at h
  · rename_i w hw
    exact Except.ok.inj h ▸ t.ordered_of_toValue? w hw
  · cases h

end DiagramEditor
