import DiagramEditor.Proofs.Json.Ordered
import Mathlib.Data.List.Nodup

/-!
# Sorted documents

Sorting an object leaves one member of each key, the last one, and puts the keys in order.
Members of other keys can be left out before or after, and an object without a repeated key
is only put in another order.
-/

set_option autoImplicit false

namespace DiagramEditor.Json

namespace Members

variable {members more : Members} {key : String}

theorem get?_append (key : String) (members more : Members) :
    get? key (members ++ more) = (get? key members).or (get? key more) := by
  induction members with
  | nil => rfl
  | cons m rest ih =>
    obtain ⟨k, v⟩ := m
    by_cases hk : k = key <;> simp [get?, hk, ih]

theorem get?_filter (p : String → Bool) (key : String) (members : Members) :
    get? key (members.filter fun m => p m.1) = if p key then get? key members else none := by
  induction members with
  | nil => simp [get?]
  | cons m rest ih =>
    obtain ⟨k, v⟩ := m
    by_cases hk : k = key
    · subst hk
      cases hp : p k <;> simp [get?, hp, ih]
    · cases hp : p k <;> simp [get?, hp, hk, ih]

theorem get?_eq_none_iff : get? key members = none ↔ key ∉ members.map Prod.fst := by
  induction members with
  | nil => simp [get?]
  | cons m rest ih =>
    obtain ⟨k, v⟩ := m
    by_cases hk : k = key
    · simp [get?, hk]
    · simp [get?, hk, ih, Ne.symm hk]

/-! ### The last member of a key -/

theorem get?_insertAll_reverse (key : String) (members more : Members) :
    get? key (insertAll members more) = get? key (more.reverse ++ members) := by
  induction more generalizing members with
  | nil => rfl
  | cons m more ih =>
    have hinsert : get? key (insert m.1 m.2 members) = (get? key [m]).or (get? key members) := by
      by_cases hk : m.1 = key
      · rw [← hk, get?_insert_self]
        simp [get?]
      · rw [get?_insert_of_ne m.2 members (Ne.symm hk)]
        simp [get?, hk]
    have hstep : insertAll members (m :: more) = insertAll (insert m.1 m.2 members) more := rfl
    rw [hstep, ih, List.reverse_cons, get?_append, hinsert, ← get?_append, ← get?_append, List.append_assoc]

theorem get?_ofList (key : String) (members : Members) : get? key (ofList members) = get? key members.reverse := by
  rw [ofList, get?_insertAll_reverse, List.append_nil]

/-- Objects with their keys in order are told apart by what is found in them. -/
theorem Ascending.ext (h : members.Ascending) (h' : more.Ascending) (hget : ∀ key, get? key members = get? key more) :
    members = more := by
  have hnodup : ∀ {ms : Members}, ms.Ascending → ms.Nodup := fun hms => List.Nodup.of_map Prod.fst hms.nodup
  have hperm : members.Perm more := by
    refine (List.perm_ext_iff_of_nodup (hnodup h) (hnodup h')).mpr fun m => ?_
    rw [h.mem_iff, h'.mem_iff, hget]
  exact hperm.eq_of_pairwise (fun _ _ _ _ hlt hgt => (lt_asymm hlt hgt).elim) h h'

theorem Ascending.filter (h : members.Ascending) (p : String × Value → Bool) : Ascending (members.filter p) :=
  List.Pairwise.filter p h

/-- It makes no difference whether members are left out before or after sorting. -/
theorem filter_ofList (p : String → Bool) (members : Members) :
    (ofList members).filter (fun m => p m.1) = ofList (members.filter fun m => p m.1) := by
  refine ((ascending_ofList members).filter _).ext (ascending_ofList _) fun key => ?_
  rw [get?_filter, get?_ofList, get?_ofList, ← List.filter_reverse, get?_filter]

/-! ### Objects without a repeated key -/

theorem insert_perm (value : Value) (h : key ∉ members.map Prod.fst) :
    (insert key value members).Perm ((key, value) :: members) := by
  induction members with
  | nil => exact List.Perm.refl _
  | cons m rest ih =>
    obtain ⟨k, v⟩ := m
    rw [List.map_cons, List.mem_cons, not_or] at h
    rw [insert, if_neg (Ne.symm h.1)]
    split
    · exact List.Perm.refl _
    · exact ((ih h.2).cons (k, v)).trans (List.Perm.swap _ _ _)

theorem insertAll_perm (h : ((members ++ more).map Prod.fst).Nodup) :
    (insertAll members more).Perm (members ++ more) := by
  induction more generalizing members with
  | nil => simp [insertAll]
  | cons m more ih =>
    have hmiddle : (members ++ m :: more).Perm ((m :: members) ++ more) := List.perm_middle
    have hkeys : (m.1 :: (members ++ more).map Prod.fst).Nodup := (hmiddle.map Prod.fst).nodup_iff.mp h
    have hnew : m.1 ∉ members.map Prod.fst := fun hm =>
      (List.nodup_cons.mp hkeys).1 (List.map_append ▸ List.mem_append_left _ hm)
    have hinsert : (insert m.1 m.2 members).Perm (m :: members) := insert_perm m.2 hnew
    have hnodup : ((insert m.1 m.2 members ++ more).map Prod.fst).Nodup :=
      ((hinsert.append_right more).map Prod.fst).nodup_iff.mpr hkeys
    exact (ih hnodup).trans ((hinsert.append_right more).trans hmiddle.symm)

theorem insert_last {members : Members} {key : String} (value : Value) (h : ∀ m ∈ members, m.1 < key) :
    insert key value members = members ++ [(key, value)] := by
  induction members with
  | nil => rfl
  | cons m rest ih =>
    rw [List.forall_mem_cons] at h
    rw [insert, if_neg h.1.ne, if_neg h.1.not_gt, ih h.2, List.cons_append]

theorem insertAll_of_ascending {members more : Members} (h : Ascending (members ++ more)) :
    insertAll members more = members ++ more := by
  induction more generalizing members with
  | nil => simp [insertAll]
  | cons m more ih =>
    have hlast : ∀ n ∈ members, n.1 < m.1 := fun n hn => (List.pairwise_append.mp h).2.2 n hn m List.mem_cons_self
    have hrest : ((members ++ [(m.1, m.2)]) ++ more).Ascending := by simpa using h
    change insertAll (insert m.1 m.2 members) more = _
    rw [insert_last m.2 hlast, ih hrest, List.append_assoc, List.singleton_append]

theorem ofList_of_ascending {members : Members} (h : members.Ascending) : ofList members = members :=
  insertAll_of_ascending h

theorem ofList_perm (h : (members.map Prod.fst).Nodup) : (ofList members).Perm members := insertAll_perm h

end Members

/-! ### Values -/

namespace Value

theorem sortedItems_eq_map (vs : List Value) : sortedItems vs = vs.map sorted := by
  induction vs with
  | nil => rfl
  | cons v vs ih => rw [sortedItems, ih, List.map_cons]

theorem sortedMembers_eq_map (ms : Members) : sortedMembers ms = ms.map fun m => (m.1, m.2.sorted) := by
  induction ms with
  | nil => rfl
  | cons m ms ih => rw [sortedMembers, ih, List.map_cons]

theorem keys_sortedMembers (ms : Members) : (sortedMembers ms).map Prod.fst = ms.map Prod.fst := by
  rw [sortedMembers_eq_map, List.map_map]
  rfl

theorem filter_sortedMembers (p : String → Bool) (ms : Members) :
    (sortedMembers ms).filter (fun m => p m.1) = sortedMembers (ms.filter fun m => p m.1) := by
  rw [sortedMembers_eq_map, sortedMembers_eq_map, List.filter_map]
  rfl

theorem ordered_sorted (v : Value) : v.sorted.Ordered := by
  induction v using Value.induction with
  | null => exact .null
  | bool b => exact .bool b
  | number n => exact .number n
  | string s => exact .string s
  | array vs ih =>
    rw [sorted, sortedItems_eq_map]
    refine .array fun w hw => ?_
    obtain ⟨v, hv, rfl⟩ := List.mem_map.mp hw
    exact ih v hv
  | object ms ih =>
    rw [sorted, sortedMembers_eq_map]
    refine .object (Members.ascending_ofList _) fun m hm => ?_
    rcases Members.mem_of_mem_insertAll hm with hm | hm
    · cases hm
    · obtain ⟨n, hn, rfl⟩ := List.mem_map.mp hm
      exact ih n hn

/-- A value whose keys are in order is sorted as it is. -/
theorem Ordered.sorted_eq {v : Value} (hv : v.Ordered) : v.sorted = v := by
  induction hv with
  | null | bool | number | string => rfl
  | array _ ih => rw [sorted, sortedItems_eq_map, List.map_congr_left ih, List.map_id']
  | @object members hms _ ih =>
    have hmembers : members.map (fun m => (m.1, m.2.sorted)) = members := by
      rw [List.map_congr_left (g := id) fun m hm => by rw [ih m hm]; rfl, List.map_id]
    rw [sorted, sortedMembers_eq_map, hmembers, Members.ofList_of_ascending hms]

@[simp] theorem sorted_sorted (v : Value) : v.sorted.sorted = v.sorted := v.ordered_sorted.sorted_eq

end Value

end DiagramEditor.Json
