import DiagramEditor.Uuid
import Mathlib.Data.List.Nodup
import Mathlib.Logic.Function.Basic

/-!
# New ids

The digits of an identifier are read back as its number, so two identifiers are not
written alike. A supply is fresh for the ids already in use when it hands out none
of them and none of its own twice; it stays so while ids are taken from it.
-/

set_option autoImplicit false

namespace DiagramEditor

namespace Uuid

theorem hexValue?_digitChar {n : Nat} (h : n < 16) : Text.hexValue? n.digitChar = some n := by
  have hall : ∀ m : Fin 16, Text.hexValue? m.val.digitChar = some m.val := by decide
  exact hall ⟨n, h⟩

theorem ofDigits?_append {n d : Nat} {cs : List Char} {u : Uuid} (h : ofDigits? n cs = some u) (hd : d < 16) :
    ofDigits? n (cs ++ [d.digitChar]) = some ⟨16 * u.value + d⟩ := by
  induction cs generalizing n with
  | nil =>
    rw [ofDigits?, Option.some.injEq] at h
    subst h
    simp [ofDigits?, hexValue?_digitChar hd]
  | cons c rest ih =>
    rw [ofDigits?] at h
    cases hc : Text.hexValue? c with
    | none => simp [hc] at h
    | some v =>
      simp only [hc, Option.bind_some] at h
      simp only [List.cons_append, ofDigits?, hc, Option.bind_some]
      exact ih h

theorem ofDigits?_toDigits (m : Nat) : ofDigits? 0 (Nat.toDigits 16 m) = some ⟨m⟩ := by
  induction m using Nat.strongRecOn with
  | ind m ih =>
    by_cases hm : m < 16
    · rw [Nat.toDigits_of_lt_base hm]
      simp [ofDigits?, hexValue?_digitChar hm]
    · rw [Nat.toDigits_of_base_le (by omega) (by omega)]
      have hq := ofDigits?_append (ih (m / 16) (by omega)) (Nat.mod_lt m (by omega : 0 < 16))
      rw [hq, Option.some.injEq, Uuid.mk.injEq]
      exact Nat.div_add_mod m 16

theorem ofDigits?_zeros (k : Nat) (cs : List Char) :
    ofDigits? 0 (List.replicate k '0' ++ cs) = ofDigits? 0 cs := by
  induction k with
  | zero => rfl
  | succ k ih =>
    rw [List.replicate_succ, List.cons_append, ofDigits?]
    exact ih

theorem ofDigits?_hexDigits (u : Uuid) : ofDigits? 0 u.hexDigits = some u := by
  rw [hexDigits, ofDigits?_zeros, ofDigits?_toDigits]

theorem length_hexDigits (u : Uuid) : 32 ≤ u.hexDigits.length := by
  simp only [hexDigits, List.length_append, List.length_replicate]
  omega

theorem print_toList (u : Uuid) :
    u.print.toList = u.hexDigits.take 8 ++ '-' :: ((u.hexDigits.drop 8).take 4 ++
      '-' :: ((u.hexDigits.drop 12).take 4 ++ '-' :: ((u.hexDigits.drop 16).take 4 ++
        '-' :: u.hexDigits.drop 20))) := by
  simp [print]

/-- The groups put together again. -/
theorem regroup (d : List Char) :
    d.take 8 ++ ((d.drop 8).take 4 ++ ((d.drop 12).take 4 ++ ((d.drop 16).take 4 ++ d.drop 20))) = d := by
  have h : ∀ n, (d.drop n).take 4 ++ d.drop (n + 4) = d.drop n := by
    intro n
    rw [← List.drop_drop]
    exact List.take_append_drop 4 _
  rw [h 16, h 12, h 8]
  exact List.take_append_drop 8 d

theorem print_injective : Function.Injective print := by
  intro u v huv
  have hu := length_hexDigits u
  have hv := length_hexDigits v
  have h := congrArg String.toList huv
  rw [print_toList, print_toList] at h
  obtain ⟨h1, h⟩ := List.append_inj h (by simp only [List.length_take]; omega)
  obtain ⟨h2, h⟩ := List.append_inj (List.cons.inj h).2 (by simp only [List.length_take, List.length_drop]; omega)
  obtain ⟨h3, h⟩ := List.append_inj (List.cons.inj h).2 (by simp only [List.length_take, List.length_drop]; omega)
  obtain ⟨h4, h⟩ := List.append_inj (List.cons.inj h).2 (by simp only [List.length_take, List.length_drop]; omega)
  have h5 := (List.cons.inj h).2
  have hdigits : u.hexDigits = v.hexDigits := by
    rw [← regroup u.hexDigits, ← regroup v.hexDigits, h1, h2, h3, h4, h5]
  have hread := ofDigits?_hexDigits u
  rw [hdigits, ofDigits?_hexDigits] at hread
  exact (Option.some.inj hread).symm

theorem length_print (u : Uuid) : 36 ≤ u.print.length := by
  have hu := length_hexDigits u
  have hl := congrArg List.length (print_toList u)
  simp only [List.length_append, List.length_cons, List.length_take, List.length_drop] at hl
  rw [← String.length_toList]
  omega

theorem numbered_injective : Function.Injective numbered := by
  intro m n h
  exact Nat.add_left_cancel (Uuid.mk.inj h)

end Uuid

namespace IdSupply

variable {s : IdSupply} {taken : List ElementId}

/-- The id handed out after `n` others. -/
def nth (s : IdSupply) (n : Nat) : ElementId := (s.uuid (s.next + n)).print

/-- The supply when `n` ids have been taken. -/
def skip (s : IdSupply) (n : Nat) : IdSupply := { s with next := s.next + n }

/-- The next `n` ids. -/
def upcoming (s : IdSupply) : Nat → List ElementId
  | 0 => []
  | n + 1 => s.nth 0 :: (s.skip 1).upcoming n

theorem takeId_eq (s : IdSupply) : s.takeId = (s.nth 0, s.skip 1) := rfl

theorem skip_skip (s : IdSupply) (m n : Nat) : (s.skip m).skip n = s.skip (m + n) := by
  simp [skip, Nat.add_assoc]

theorem nth_skip (s : IdSupply) (m n : Nat) : (s.skip m).nth n = s.nth (m + n) := by
  simp [skip, nth, Nat.add_assoc]

theorem length_upcoming (s : IdSupply) (n : Nat) : (s.upcoming n).length = n := by
  induction n generalizing s with
  | zero => rfl
  | succ n ih => rw [upcoming, List.length_cons, ih]

theorem mem_upcoming {n : Nat} {id : ElementId} (h : id ∈ s.upcoming n) : ∃ k, k < n ∧ id = s.nth k := by
  induction n generalizing s with
  | zero => cases h
  | succ n ih =>
    rcases List.mem_cons.mp h with rfl | h
    · exact ⟨0, Nat.succ_pos n, rfl⟩
    · obtain ⟨k, hk, rfl⟩ := ih h
      exact ⟨1 + k, by omega, nth_skip s 1 k⟩

theorem upcoming_add (s : IdSupply) (m n : Nat) : s.upcoming (m + n) = s.upcoming m ++ (s.skip m).upcoming n := by
  induction m generalizing s with
  | zero => rw [Nat.zero_add]; rfl
  | succ m ih =>
    rw [Nat.succ_add, upcoming, upcoming, ih, skip_skip, List.cons_append, Nat.add_comm 1 m]

/-- No id of the supply comes twice or is taken. -/
structure Fresh (s : IdSupply) (taken : List ElementId) : Prop where
  distinct : Function.Injective s.nth
  new : ∀ n, s.nth n ∉ taken

namespace Fresh

theorem skip (h : s.Fresh taken) (n : Nat) : (s.skip n).Fresh taken where
  distinct := by
    intro i j hij
    rw [nth_skip, nth_skip] at hij
    exact Nat.add_left_cancel (h.distinct hij)
  new := by
    intro i
    rw [nth_skip]
    exact h.new _

theorem not_mem_of_upcoming (h : s.Fresh taken) {n : Nat} {id : ElementId} (hid : id ∈ s.upcoming n) :
    id ∉ taken := by
  obtain ⟨k, _, rfl⟩ := mem_upcoming hid
  exact h.new k

theorem mono (h : s.Fresh taken) {fewer : List ElementId} (hsub : ∀ id ∈ fewer, id ∈ taken) : s.Fresh fewer :=
  ⟨h.distinct, fun n hn => h.new n (hsub _ hn)⟩

theorem nodup_upcoming (h : s.Fresh taken) (n : Nat) : (s.upcoming n).Nodup := by
  induction n generalizing s with
  | zero => exact List.nodup_nil
  | succ n ih =>
    refine List.nodup_cons.mpr ⟨?_, ih (h.skip 1)⟩
    intro hm
    obtain ⟨k, _, hk⟩ := mem_upcoming hm
    rw [nth_skip] at hk
    have hz := h.distinct hk
    omega

end Fresh

/-- The first supply is fresh while only shorter ids are in use. -/
theorem fresh_start (h : ∀ id ∈ taken, id.length < 36) : start.Fresh taken where
  distinct := by
    intro i j hij
    exact Nat.add_left_cancel (Uuid.numbered_injective (Uuid.print_injective hij))
  new := by
    intro n hn
    have hshort := h _ hn
    have hlong := Uuid.length_print (start.uuid (start.next + n))
    exact Nat.not_le_of_lt hshort hlong

end IdSupply

end DiagramEditor
