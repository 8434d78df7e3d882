/-!
# Tables

A table keeps its entries in the order in which their keys first came.
-/

set_option autoImplicit false

namespace DiagramEditor

abbrev Table (κ α : Type) := List (κ × α)

namespace Table

variable {κ α : Type} [DecidableEq κ]

def get? (key : κ) : Table κ α → Option α
  | [] => none
  | (k, a) :: rest => if k = key then some a else get? key rest

/-- Replaces the entry of that key where it stands, or adds one at the end. -/
def put (key : κ) (a : α) : Table κ α → Table κ α
  | [] => [(key, a)]
  | (k, b) :: rest => if k = key then (key, a) :: rest else (k, b) :: put key a rest

/-- The table without that key. -/
def erase (key : κ) : Table κ α → Table κ α
  | [] => []
  | (k, a) :: rest => if k = key then erase key rest else (k, a) :: erase key rest

theorem get?_put_self (key : κ) (a : α) (t : Table κ α) : get? key (put key a t) = some a := by
  induction t with
  | nil => simp [put, get?]
  | cons e rest ih =>
    obtain ⟨k, b⟩ := e
    by_cases h : k = key <;> simp [put, get?, h, ih]

theorem get?_put_of_ne {key other : κ} (a : α) (t : Table κ α) (h : other ≠ key) :
    get? other (put key a t) = get? other t := by
  induction t with
  | nil => simp [put, get?, Ne.symm h]
  | cons e rest ih =>
    obtain ⟨k, b⟩ := e
    by_cases hk : k = key
    · subst hk
      simp [put, get?, Ne.symm h]
    · simp [put, get?, hk, ih]

theorem get?_erase_self (key : κ) (t : Table κ α) : get? key (erase key t) = none := by
  induction t with
  | nil => rfl
  | cons e rest ih =>
    obtain ⟨k, b⟩ := e
    by_cases h : k = key <;> simp [erase, get?, h, ih]

theorem get?_erase_of_ne {key other : κ} (t : Table κ α) (h : other ≠ key) :
    get? other (erase key t) = get? other t := by
  induction t with
  | nil => rfl
  | cons e rest ih =>
    obtain ⟨k, b⟩ := e
    by_cases hk : k = key
    · subst hk
      simp [erase, get?, Ne.symm h, ih]
    · simp [erase, get?, hk, ih]

theorem get?_eq_none_iff {key : κ} {t : Table κ α} : get? key t = none ↔ key ∉ t.map Prod.fst := by
  induction t with
  | nil => simp [get?]
  | cons e rest ih =>
    obtain ⟨k, b⟩ := e
    by_cases h : k = key
    · simp [get?, h]
    · simp [get?, h, ih, Ne.symm h]

theorem isSome_get?_iff {key : κ} {t : Table κ α} : (get? key t).isSome ↔ key ∈ t.map Prod.fst := by
  have h : get? key t = none ↔ key ∉ t.map Prod.fst := get?_eq_none_iff
  cases hg : get? key t with
  | none => simp [h.mp hg]
  | some a =>
    have hm : ¬ key ∉ t.map Prod.fst := fun hn => by simp [h.mpr hn] at hg
    simpa using Classical.not_not.mp hm

theorem mem_of_get? {key : κ} {a : α} {t : Table κ α} (h : get? key t = some a) : (key, a) ∈ t := by
  induction t with
  | nil => simp [get?] at h
  | cons e rest ih =>
    obtain ⟨k, b⟩ := e
    by_cases hk : k = key
    · simp only [get?, if_pos hk, Option.some.injEq] at h
      simp [hk, h]
    · simp only [get?, if_neg hk] at h
      exact List.mem_cons_of_mem _ (ih h)

theorem get?_of_mem {key : κ} {a : α} {t : Table κ α} (hn : (t.map Prod.fst).Nodup) (h : (key, a) ∈ t) :
    get? key t = some a := by
  induction t with
  | nil => simp at h
  | cons e rest ih =>
    obtain ⟨k, b⟩ := e
    simp only [List.map_cons, List.nodup_cons] at hn
    rcases List.mem_cons.mp h with he | hr
    · obtain ⟨rfl, rfl⟩ := Prod.mk.inj he
      simp [get?]
    · have hk : k ≠ key := by
        rintro rfl
        exact hn.1 (List.mem_map_of_mem (f := Prod.fst) hr)
      simpa [get?, hk] using ih hn.2 hr

theorem get?_append_of_not_mem {key : κ} {t u : Table κ α} (h : key ∉ u.map Prod.fst) :
    get? key (t ++ u) = get? key t := by
  induction t with
  | nil => exact get?_eq_none_iff.mpr h
  | cons e rest ih =>
    obtain ⟨k, b⟩ := e
    by_cases hk : k = key <;> simp [get?, hk, ih]

theorem get?_eq_some_iff {key : κ} {a : α} {t : Table κ α} (hn : (t.map Prod.fst).Nodup) :
    get? key t = some a ↔ (key, a) ∈ t :=
  ⟨mem_of_get?, get?_of_mem hn⟩

theorem put_of_get?_eq_none {key : κ} (a : α) {t : Table κ α} (h : get? key t = none) :
    put key a t = t ++ [(key, a)] := by
  induction t with
  | nil => rfl
  | cons e rest ih =>
    obtain ⟨k, b⟩ := e
    by_cases hk : k = key
    · simp [get?, hk] at h
    · simp only [get?, if_neg hk] at h
      simp [put, hk, ih h]

theorem erase_eq_filter (key : κ) (t : Table κ α) : erase key t = t.filter (·.1 ≠ key) := by
  induction t with
  | nil => rfl
  | cons e rest ih =>
    obtain ⟨k, b⟩ := e
    by_cases h : k = key <;> simp [erase, h, ih]

theorem mem_of_mem_put {key : κ} {a : α} {t : Table κ α} {p : κ × α} (h : p ∈ put key a t) : p = (key, a) ∨ p ∈ t := by
  induction t with
  | nil => exact Or.inl (List.mem_singleton.mp h)
  | cons e rest ih =>
    obtain ⟨k, b⟩ := e
    by_cases hk : k = key
    · simp only [put, if_pos hk, List.mem_cons] at h
      rcases h with h | h
      · exact Or.inl h
      · exact Or.inr (List.mem_cons_of_mem _ h)
    · simp only [put, if_neg hk, List.mem_cons] at h
      rcases h with h | h
      · exact Or.inr (h ▸ List.mem_cons_self)
      · exact (ih h).imp_right (List.mem_cons_of_mem _)

theorem mem_of_mem_erase {key : κ} {t : Table κ α} {p : κ × α} (h : p ∈ erase key t) : p ∈ t := by
  rw [erase_eq_filter] at h
  exact (List.mem_filter.mp h).1

theorem erase_of_get?_eq_none {key : κ} {t : Table κ α} (h : get? key t = none) : erase key t = t := by
  rw [erase_eq_filter, List.filter_eq_self]
  intro p hp
  have hk : key ∉ t.map Prod.fst := get?_eq_none_iff.mp h
  have hne : p.1 ≠ key := by
    rintro rfl
    exact hk (List.mem_map_of_mem hp)
  simpa using hne

/-- A key that is there once is put where it stood. -/
theorem put_perm {key : κ} {a : α} {t : Table κ α} (hn : (t.map Prod.fst).Nodup) :
    (put key a t).Perm ((key, a) :: erase key t) := by
  induction t with
  | nil => exact List.Perm.refl _
  | cons e rest ih =>
    obtain ⟨k, b⟩ := e
    simp only [List.map_cons, List.nodup_cons] at hn
    by_cases hk : k = key
    · subst hk
      have hr : erase k rest = rest := erase_of_get?_eq_none (get?_eq_none_iff.mpr hn.1)
      simp [put, erase, hr]
    · simp only [put, erase, if_neg hk]
      exact ((ih hn.2).cons (k, b)).trans (List.Perm.swap _ _ _)

theorem nodup_erase (key : κ) {t : Table κ α} (hn : (t.map Prod.fst).Nodup) : ((erase key t).map Prod.fst).Nodup := by
  rw [erase_eq_filter]
  exact (List.filter_sublist.map Prod.fst).nodup hn

theorem nodup_put (key : κ) (a : α) {t : Table κ α} (hn : (t.map Prod.fst).Nodup) :
    ((put key a t).map Prod.fst).Nodup := by
  have hnew : key ∉ (erase key t).map Prod.fst := get?_eq_none_iff.mp (get?_erase_self key t)
  exact ((put_perm hn).map Prod.fst).nodup_iff.mpr (List.nodup_cons.mpr ⟨hnew, nodup_erase key hn⟩)

end Table

end DiagramEditor
