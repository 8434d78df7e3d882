import DiagramEditor.Path.Assign

/-!
# What an assignment changes

What was written at a path is found there, and every path that neither leads there nor
goes on from there leads where it led before.
-/

set_option autoImplicit false

namespace DiagramEditor

open Json

namespace Path

variable {p q : Path} {new data : Value}

/-- Neither path begins with the other. -/
def Apart (p q : Path) : Prop := ¬ p <+: q ∧ ¬ q <+: p

theorem Apart.ne_nil (h : p.Apart q) : q ≠ [] := by
  rintro rfl
  exact h.2 List.nil_prefix

theorem Apart.tail {s : Segment} (h : Apart (s :: p) (s :: q)) : p.Apart q :=
  ⟨fun hp => h.1 ((List.prefix_cons_inj s).mpr hp), fun hq => h.2 ((List.prefix_cons_inj s).mpr hq)⟩

/-- A path apart from a single segment begins with another one. -/
theorem Apart.head_ne {s t : Segment} (h : Apart [s] (t :: q)) : t ≠ s := by
  rintro rfl
  exact h.1 ((List.prefix_cons_inj t).mpr List.nil_prefix)

theorem step?_field (name : String) (v : Value) :
    step? (.field name) v = (asMembers? v).bind (Members.get? name) := by
  cases v <;> rfl

theorem resolve?_null (h : q ≠ []) : resolve? q .null = none := by
  cases q with
  | nil => exact absurd rfl h
  | cons s q => cases s <;> rfl

theorem resolve?_emptyObject (h : q ≠ []) : resolve? q .emptyObject = none := by
  cases q with
  | nil => exact absurd rfl h
  | cons s q => cases s <;> rfl

/-- What a step into a member starts from has everything that is in the member. -/
theorem resolve?_memberSlot (members : Members) (name : String) (rest : Path) (h : q ≠ []) :
    resolve? q (memberSlot members name rest) = (Members.get? name members).bind (resolve? q) := by
  unfold memberSlot
  split
  · rename_i hnull
    rw [hnull, Option.bind_some, resolve?_null h]
    split
    · exact resolve?_null h
    · exact resolve?_emptyObject h
  · rename_i hnone
    rw [hnone, Option.bind_none]
    split
    · exact resolve?_null h
    · exact resolve?_emptyObject h
  · rename_i v _ hv
    rw [hv, Option.bind_some]

/-- Replacing one member leaves the others as they are. -/
theorem resolve?_insert {name : String} {s : Segment} (hs : s ≠ .field name) {members : Members}
    (hm : asMembers? data = some members) (v : Value) :
    resolve? (s :: q) (.object (Members.insert name v members)) = resolve? (s :: q) data := by
  rw [resolve?, resolve?]
  cases s with
  | field other =>
    have hne : other ≠ name := fun heq => hs (heq ▸ rfl)
    rw [step?_field, step?_field, hm, asMembers?, Option.bind_some, Option.bind_some,
      Members.get?_insert_of_ne v members hne]
  | index n =>
    have hstep : step? (.index n) data = none := by
      cases data <;> first | rfl | cases hm
    rw [hstep]
    rfl

theorem resolve?_set {items : List Value} {n : Nat} {s : Segment} (hs : s ≠ .index n) (v : Value) :
    resolve? (s :: q) (.array (items.set n v)) = resolve? (s :: q) (.array items) := by
  rw [resolve?, resolve?]
  cases s with
  | field name => rfl
  | index m =>
    have hne : n ≠ m := fun heq => hs (heq ▸ rfl)
    rw [step?, step?, List.getElem?_set_ne hne]

/-- What was written is found. -/
theorem resolve?_assignFrom (before : Path) (h : (assignFrom before new p data).fault = none) :
    resolve? p (assignFrom before new p data).data = some new := by
  induction p generalizing before data with
  | nil => cases h
  | cons s rest ih =>
    cases s with
    | field name =>
      cases hm : asMembers? data with
      | none => cases rest <;> simp [assignFrom, hm] at h
      | some members =>
        cases rest with
        | nil => simp [assignFrom, hm, resolve?, step?, Members.get?_insert_self]
        | cons t rest =>
          simp only [assignFrom, hm] at h ⊢
          rw [resolve?, step?, Members.get?_insert_self, Option.bind_some]
          exact ih _ h
    | index n =>
      cases data with
      | array items =>
        cases rest with
        | nil =>
          by_cases hn : n < items.length
          · simp [assignFrom, hn, resolve?, step?]
          · simp [assignFrom, hn] at h
        | cons t rest =>
          cases hv : items[n]? with
          | none => simp [assignFrom, hv] at h
          | some v =>
            have hn : n < items.length := (List.getElem?_eq_some_iff.mp hv).1
            simp only [assignFrom, hv] at h ⊢
            rw [resolve?, step?, List.getElem?_set_self hn, Option.bind_some]
            exact ih _ h
      | _ => cases rest <;> cases h

/-- Whatever lies apart stays as it was, even where nothing could be written. -/
theorem resolve?_assignFrom_of_apart (before : Path) (h : p.Apart q) :
    resolve? q (assignFrom before new p data).data = resolve? q data := by
  -- the two paths are followed together until they part
  induction p generalizing before data q with
  | nil => exact absurd List.nil_prefix h.1
  | cons s rest ih =>
    obtain ⟨t, q, rfl⟩ := List.exists_cons_of_ne_nil h.ne_nil
    cases s with
    | field name =>
      cases hm : asMembers? data with
      | none => cases rest <;> simp [assignFrom, hm]
      | some members =>
        cases rest with
        | nil =>
          simp only [assignFrom, hm]
          exact resolve?_insert h.head_ne hm new
        | cons u rest =>
          simp only [assignFrom, hm]
          by_cases ht : t = .field name
          · subst ht
            have hq := h.tail.ne_nil
            rw [resolve?, step?, Members.get?_insert_self, Option.bind_some, ih _ h.tail,
              resolve?_memberSlot members name _ hq, resolve?, step?_field, hm, Option.bind_some]
          · exact resolve?_insert ht hm _
    | index n =>
      cases data with
      | array items =>
        cases rest with
        | nil =>
          by_cases hn : n < items.length
          · simp only [assignFrom, hn, if_true]
            exact resolve?_set h.head_ne new
          · simp [assignFrom, hn]
        | cons u rest =>
          cases hv : items[n]? with
          | none => simp [assignFrom, hv]
          | some v =>
            have hn : n < items.length := (List.getElem?_eq_some_iff.mp hv).1
            simp only [assignFrom, hv]
            by_cases ht : t = .index n
            · subst ht
              rw [resolve?, step?, List.getElem?_set_self hn, Option.bind_some, ih _ h.tail, resolve?, step?, hv,
                Option.bind_some]
            · exact resolve?_set ht _
      | _ => cases rest <;> rfl

theorem resolve?_assign (h : (assign p new data).fault = none) : resolve? p (assign p new data).data = some new :=
  resolve?_assignFrom [] h

theorem resolve?_assign_of_apart (h : p.Apart q) : resolve? q (assign p new data).data = resolve? q data :=
  resolve?_assignFrom_of_apart [] h

end Path

end DiagramEditor
