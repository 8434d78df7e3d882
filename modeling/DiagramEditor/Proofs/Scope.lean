import DiagramEditor.Proofs.Json.Ordered
import DiagramEditor.Proofs.Path.Reading
import DiagramEditor.Scope

/-!
# Names in scope

A name in scope stands for an item that is there, and the path of that item can be told
apart from any other. So can the concrete path of whatever a template names.
-/

set_option autoImplicit false

namespace DiagramEditor

open Json

/-! ### Indices of items -/

/-- Every item of every array has an index that can be read, so no array is longer than
what an index can count. -/
inductive Json.Value.Addressable : Value → Prop
  | null : Addressable .null
  | bool (b : Bool) : Addressable (.bool b)
  | number (n : Number) : Addressable (.number n)
  | string (s : String) : Addressable (.string s)
  | array {items : List Value} :
    items.length ≤ Path.indexLimit → (∀ v ∈ items, v.Addressable) → Addressable (.array items)
  | object {members : Members} : (∀ m ∈ members, m.2.Addressable) → Addressable (.object members)

namespace Path

variable {p : Path} {data v : Value}

theorem addressable_of_step? {s : Segment} (h : data.Addressable) (hs : step? s data = some v) : v.Addressable := by
  cases s with
  | field name =>
    cases h with
    | object hmembers => exact hmembers _ (Members.mem_of_get? hs)
    | _ => cases hs
  | index n =>
    cases h with
    | array _ hitems => exact hitems v (List.mem_of_getElem? hs)
    | _ => cases hs

/-- A path that leads somewhere has indices of items on the way. -/
theorem bounded_of_resolve? (h : data.Addressable) (hp : resolve? p data = some v) : p.Bounded := by
  induction p generalizing data with
  | nil => simp [Bounded]
  | cons s p ih =>
    obtain ⟨inner, hs, hinner⟩ := Option.bind_eq_some_iff.mp hp
    have hrest := ih (addressable_of_step? h hs) hinner
    intro n hn
    rcases List.mem_cons.mp hn with rfl | hn
    · cases h with
      | array hlength _ => exact lt_of_lt_of_le (List.getElem?_eq_some_iff.mp hs).1 hlength
      | _ => cases hs
    · exact hrest n hn

theorem resolve?_item {items : List Value} (hp : resolve? p data = some (.array items)) {n : Nat}
    (hn : n < items.length) : resolve? (item p n) data = some items[n] := by
  rw [item, resolve?_append, hp]
  simp [resolve?, step?, hn]

end Path

namespace Scope

/-! ### Concrete paths -/

/-- A path stands as it is where no name in scope is its first; otherwise it lies below
the item of the innermost such name. -/
inductive Roots (frames : List (String × Path)) : Path → Path → Prop
  | plain {p : Path} : (∀ f ∈ frames, p.head? ≠ some (.field f.1)) → Roots frames p p
  | below {before after : List (String × Path)} {name : String} {place rest : Path} :
    frames = before ++ (name, place) :: after → (∀ f ∈ before, f.1 ≠ name) →
      Roots frames (.field name :: rest) (place ++ rest)

theorem substitute?_of_head {name : String} {place p : Path} (h : p.head? ≠ some (.field name)) :
    Path.substitute? name place p = none := by
  unfold Path.substitute?
  split
  · rename_i head rest
    exact if_neg fun heq => h (by rw [heq]; rfl)
  · rfl

theorem roots_rewrite (frames : List (String × Path)) (p : Path) : Roots frames p (rewrite frames p) := by
  induction frames with
  | nil => exact .plain (by simp)
  | cons f frames ih =>
    obtain ⟨name, place⟩ := f
    by_cases hp : p.head? = some (.field name)
    · obtain ⟨rest, rfl⟩ : ∃ rest, p = .field name :: rest := by
        cases p with
        | nil => cases hp
        | cons s rest => exact ⟨rest, by rw [Option.some.inj hp]⟩
      have hrewrite : rewrite ((name, place) :: frames) (.field name :: rest) = place ++ rest := by
        simp [rewrite, Path.substitute?]
      rw [hrewrite]
      exact .below (show (name, place) :: frames = [] ++ (name, place) :: frames from rfl) (by simp)
    · have hrewrite : rewrite ((name, place) :: frames) p = rewrite frames p := by
        rw [rewrite, substitute?_of_head hp]
      rw [hrewrite]
      generalize rewrite frames p = q at ih
      cases ih with
      | plain hplain => exact .plain (List.forall_mem_cons.mpr ⟨hp, hplain⟩)
      | @below before after other place' rest hframes hbefore =>
        have hall : (name, place) :: frames = ((name, place) :: before) ++ (other, place') :: after := by
          rw [hframes]
          rfl
        refine .below hall ?_
        exact List.forall_mem_cons.mpr ⟨fun heq => hp (by rw [← heq]; rfl), hbefore⟩

theorem roots_concrete (s : Scope) (p : Path) : Roots s.frames p (s.concrete p) := roots_rewrite s.frames p

namespace Roots

variable {frames : List (String × Path)} {p q : Path}

theorem legible (h : Roots frames p q) (hframes : ∀ f ∈ frames, f.2.Legible) (hp : p.Legible) : q.Legible := by
  cases h with
  | plain _ => exact hp
  | @below before after name place rest heq _ =>
    have hplace : place.Legible := hframes (name, place) (by simp [heq])
    exact hplace.graft hp

theorem bounded (h : Roots frames p q) (hframes : ∀ f ∈ frames, f.2.Bounded) (hp : p.Bounded) : q.Bounded := by
  cases h with
  | plain _ => exact hp
  | @below before after name place rest heq _ =>
    intro n hn
    rcases List.mem_append.mp hn with hn | hn
    · exact hframes (name, place) (by simp [heq]) n hn
    · exact hp n (List.mem_cons_of_mem _ hn)

end Roots

/-! ### Sound scopes -/

/-- A scope over some data. Every name in it stands for something that is there. -/
structure Sound (data : Value) (s : Scope) : Prop where
  sees : s.data = data
  legible : ∀ f ∈ s.frames, f.2.Legible
  present : ∀ f ∈ s.frames, ∃ item, Path.resolve? f.2 data = some item

theorem sound_ofData (data : Value) : (ofData data).Sound data := ⟨rfl, by simp [ofData], by simp [ofData]⟩

namespace Sound

variable {data : Value} {s : Scope} {p : Path}

theorem legible_concrete (h : s.Sound data) (hp : p.Legible) : (s.concrete p).Legible :=
  (roots_concrete s p).legible h.legible hp

theorem readable_concrete (h : s.Sound data) (hdata : data.Addressable) (hp : p.Readable) :
    (s.concrete p).Readable := by
  have hframes : ∀ f ∈ s.frames, f.2.Bounded := by
    intro f hf
    obtain ⟨item, hitem⟩ := h.present f hf
    exact Path.bounded_of_resolve? hdata hitem
  exact ⟨h.legible_concrete hp.toLegible, (roots_concrete s p).bounded hframes hp.bounded⟩

/-- An item of an array that a template names may be brought into scope. -/
theorem bind (h : s.Sound data) (hp : p.Legible) {items : List Value}
    (hitems : Path.resolve? (s.concrete p) s.data = some (.array items)) {n : Nat} (hn : n < items.length)
    (name : String) : (s.bind name (Path.item (s.concrete p) n)).Sound data where
  sees := h.sees
  legible := List.forall_mem_cons.mpr ⟨(h.legible_concrete hp).item n, h.legible⟩
  present := by
    rw [h.sees] at hitems
    exact List.forall_mem_cons.mpr ⟨⟨items[n], Path.resolve?_item hitems hn⟩, h.present⟩

end Sound

end Scope

end DiagramEditor
