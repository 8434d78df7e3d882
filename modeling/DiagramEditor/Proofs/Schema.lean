import DiagramEditor.Proofs.Path.Assigning
import DiagramEditor.Schema.Basic
import Mathlib.Algebra.Field.Rat
import Mathlib.Tactic.FieldSimp
import Mathlib.Tactic.Positivity

/-!
# What the check of data finds

Data conforms to a schema when every part of it that the schema speaks of is of the kind asked
for. The check finds just the places that are not, each once and in the order of the schema and
of the items, and it says of each what was wanted there. Below such a place nothing is looked at,
so none of the places found leads to another.
-/

set_option autoImplicit false

namespace DiagramEditor

open Json

namespace Decimal.Dyadic

/-- The number that the parts make up. -/
def value (d : Dyadic) : ℚ := (if d.negative then -1 else 1) * (d.mantissa * 2 ^ d.exponent)

theorem value_eq_int_iff (d : Dyadic) : (∃ k : ℤ, d.value = k) ↔ ∃ k : ℤ, (d.mantissa * 2 ^ d.exponent : ℚ) = k := by
  rw [value]
  cases d.negative with
  | false => simp
  | true =>
    constructor
    · rintro ⟨k, hk⟩
      refine ⟨-k, ?_⟩
      rw [Int.cast_neg, ← hk]
      simp
    · rintro ⟨k, hk⟩
      refine ⟨-k, ?_⟩
      rw [Int.cast_neg, ← hk]
      simp

/-- Dividing by a power of two leaves a whole number where there is no remainder. -/
theorem mod_two_pow_eq_zero_iff (m n : ℕ) : m % 2 ^ n = 0 ↔ ∃ k : ℤ, (m : ℚ) * (2 ^ n)⁻¹ = k := by
  have hpow : (2 ^ n : ℚ) ≠ 0 := by positivity
  rw [← Nat.dvd_iff_mod_eq_zero]
  constructor
  · rintro ⟨k, rfl⟩
    refine ⟨k, ?_⟩
    push_cast
    field_simp
  · rintro ⟨k, hk⟩
    have hprod : (m : ℚ) = 2 ^ n * k := by rw [← hk, mul_comm, inv_mul_cancel_right₀ hpow]
    have hint : (m : ℤ) = 2 ^ n * k := by exact_mod_cast hprod
    exact_mod_cast Dvd.intro k hint.symm

/-- A double without fraction is a whole number. -/
theorem isWhole_iff (d : Dyadic) : d.isWhole = true ↔ ∃ k : ℤ, d.value = k := by
  rw [value_eq_int_iff, isWhole, Bool.or_eq_true, decide_eq_true_eq, decide_eq_true_eq]
  rcases Int.lt_or_le d.exponent 0 with hneg | hnonneg
  · obtain ⟨n, hn⟩ : ∃ n : ℕ, -d.exponent = n := Int.eq_ofNat_of_zero_le (by omega)
    have hexponent : d.exponent = -(n : ℤ) := by omega
    rw [or_iff_right (Int.not_le.mpr hneg), hn, hexponent, Int.toNat_natCast, zpow_neg, zpow_natCast]
    exact mod_two_pow_eq_zero_iff d.mantissa n
  · obtain ⟨n, hn⟩ := Int.eq_ofNat_of_zero_le hnonneg
    refine iff_of_true (.inl hnonneg) ⟨d.mantissa * 2 ^ n, ?_⟩
    rw [hn]
    push_cast
    simp

end Decimal.Dyadic

/-- A number without fraction, be it written as a whole number or as a double. -/
def Json.Number.Integral : Number → Prop
  | .int _ _ => True
  | .float x _ => ∃ k : ℤ, (Decimal.Dyadic.ofFloat x).value = k

theorem Json.Number.isWhole_iff (n : Number) : n.isWhole = true ↔ n.Integral := by
  cases n with
  | int => simp [isWhole, Integral]
  | float x _ => exact (Decimal.Dyadic.ofFloat x).isWhole_iff

namespace Schema

/-- A text may be chosen that is one of the plain choices, or of the titled ones where there are
no plain ones; where there are neither, any text may. -/
def Offers : Option (List String) → Option (List Choice) → String → Prop
  | some choices, _, found => found ∈ choices
  | none, some options, found => ∃ o ∈ options, o.value = found
  | none, none, _ => True

inductive Conforms : Schema → Value → Prop
  | null (s : Schema) : Conforms s .null
  | text {c : Caption} {choices : Option (List String)} {oneOf : Option (List Choice)} {found : String} :
    Offers choices oneOf found → Conforms (.text c choices oneOf) (.string found)
  | enumeration {c : Caption} {choices : List String} {found : String} :
    found ∈ choices → Conforms (.enumeration c choices) (.string found)
  | number (c : Caption) (n : Number) : Conforms (.number c) (.number n)
  | integer {c : Caption} {n : Number} : n.Integral → Conforms (.integer c) (.number n)
  | boolean (c : Caption) (b : Bool) : Conforms (.boolean c) (.bool b)
  | array {c : Caption} {items : Schema} {vs : List Value} :
    (∀ v ∈ vs, Conforms items v) → Conforms (.array c items) (.array vs)
  | object {c : Caption} {properties : List (String × Schema)} {members : Members} :
    (∀ p ∈ properties, ∀ v, members.get? p.1 = some v → Conforms p.2 v) →
    Conforms (.object c properties) (.object members)

/-! ### Places -/

/-- What the schema asks of the value itself, whatever its items and members are. -/
def Suits : Schema → Value → Prop
  | _, .null => True
  | .text _ choices oneOf, .string found => Offers choices oneOf found
  | .enumeration _ choices, .string found => found ∈ choices
  | .number _, .number _ => True
  | .integer _, .number n => n.Integral
  | .boolean _, .bool _ => True
  | .array _ _, .array _ => True
  | .object _ _, .object _ => True
  | _, _ => False

/-- What is said of a value that does not suit. -/
def complaint : Schema → Value → Mismatch
  | .text _ choices oneOf, .string found =>
    .notAChoice found (choices.getD ((oneOf.getD []).map (·.value)))
  | .enumeration _ choices, .string found => .notAChoice found choices
  | .text _ _ _, v => .expected "a string" v
  | .enumeration _ _, v => .expected "a string" v
  | .number _, v => .expected "a number" v
  | .integer _, v => .expected "an integer" v
  | .boolean _, v => .expected "a boolean" v
  | .array _ _, v => .expected "an array" v
  | .object _ _, v => .expected "an object" v

/-- What a schema asks of an item or of a member. -/
def Below : Schema → Segment → Schema → Prop
  | .array _ items, .index _, t => t = items
  | .object _ properties, .field name, t => (name, t) ∈ properties
  | _, _, _ => False

/-- What a schema asks of the value at a path. -/
def Leads : Schema → Path → Schema → Prop
  | s, [], t => t = s
  | s, seg :: p, t => ∃ r, s.Below seg r ∧ r.Leads p t

variable {s t : Schema} {seg : Segment} {v w : Value} {place : Path} {i : Issue}

theorem sizeOf_lt_of_below (h : s.Below seg t) : sizeOf t < sizeOf s := by
  cases s <;> cases seg <;> simp only [Below] at h
  case array.index =>
    rw [h, Schema.array.sizeOf_spec]
    omega
  case object.field c properties name =>
    have hlt := List.sizeOf_lt_of_mem h
    rw [Prod.mk.sizeOf_spec] at hlt
    rw [Schema.object.sizeOf_spec]
    omega

/-- What holds of a schema if it holds of all that the schema asks of items and members, holds of every schema. -/
theorem below_induction {P : Schema → Prop} (step : ∀ s, (∀ seg t, Below s seg t → P t) → P s) (s : Schema) : P s :=
  step s fun seg t hbelow =>
    have := sizeOf_lt_of_below hbelow
    below_induction step t
termination_by sizeOf s

theorem checkItems_eq_flatMap (check : Path → Value → List Issue) (place : Path) (n : Nat) (vs : List Value) :
    checkItems check place n vs = (vs.zipIdx n).flatMap fun item => check (place ++ [.index item.2]) item.1 := by
  induction vs generalizing n with
  | nil => rfl
  | cons v rest ih =>
    rw [checkItems, ih, List.zipIdx_cons, List.flatMap_cons]
    rfl

/-- The issues of one property. -/
def checkProperty (place : Path) (members : Members) (p : String × Schema) : List Issue :=
  match members.get? p.1 with
  | some v => p.2.checkAt (place ++ [.field p.1]) v
  | none => []

theorem checkProperties_eq_flatMap (properties : List (String × Schema)) (place : Path) (members : Members) :
    checkProperties properties place members = properties.flatMap (checkProperty place members) := by
  induction properties with
  | nil => rw [checkProperties, List.flatMap_nil]
  | cons p rest ih =>
    obtain ⟨name, t⟩ := p
    rw [checkProperties, ih, List.flatMap_cons]
    rfl

theorem mem_checkItems_iff {items : Schema} {vs : List Value} :
    i ∈ checkItems items.checkAt place 0 vs ↔
      ∃ n w, vs[n]? = some w ∧ i ∈ items.checkAt (place ++ [.index n]) w := by
  rw [checkItems_eq_flatMap, List.mem_flatMap]
  constructor
  · rintro ⟨⟨w, n⟩, hitem, hi⟩
    exact ⟨n, w, List.mem_zipIdx_iff_getElem?.mp hitem, hi⟩
  · rintro ⟨n, w, hw, hi⟩
    exact ⟨(w, n), List.mem_zipIdx_iff_getElem?.mpr hw, hi⟩

theorem mem_checkProperties_iff {properties : List (String × Schema)} {members : Members} :
    i ∈ checkProperties properties place members ↔
      ∃ name t w, (name, t) ∈ properties ∧ members.get? name = some w ∧ i ∈ t.checkAt (place ++ [.field name]) w := by
  rw [checkProperties_eq_flatMap, List.mem_flatMap]
  constructor
  · rintro ⟨⟨name, t⟩, hp, hi⟩
    cases hw : members.get? name with
    | none => simp [checkProperty, hw] at hi
    | some w => exact ⟨name, t, w, hp, hw, by simpa [checkProperty, hw] using hi⟩
  · rintro ⟨name, t, w, hp, hw, hi⟩
    exact ⟨(name, t), hp, by simpa [checkProperty, hw] using hi⟩

theorem exists_item_iff {c : Caption} {items : Schema} {Q : Segment → Schema → Value → Prop} :
    (∃ seg t w, (Schema.array c items).Below seg t ∧ Path.step? seg v = some w ∧ Q seg t w) ↔
      ∃ vs n w, v = .array vs ∧ vs[n]? = some w ∧ Q (.index n) items w := by
  constructor
  · rintro ⟨seg, t, w, hbelow, hstep, hQ⟩
    cases seg with
    | field => cases hbelow
    | index n =>
      cases v with
      | array vs => exact ⟨vs, n, w, rfl, hstep, hbelow ▸ hQ⟩
      | _ => cases hstep
  · rintro ⟨vs, n, w, rfl, hw, hQ⟩
    exact ⟨.index n, items, w, rfl, hw, hQ⟩

theorem exists_member_iff {c : Caption} {properties : List (String × Schema)} {Q : Segment → Schema → Value → Prop} :
    (∃ seg t w, (Schema.object c properties).Below seg t ∧ Path.step? seg v = some w ∧ Q seg t w) ↔
      ∃ members name t w, v = .object members ∧ (name, t) ∈ properties ∧ Members.get? name members = some w ∧
        Q (.field name) t w := by
  constructor
  · rintro ⟨seg, t, w, hbelow, hstep, hQ⟩
    cases seg with
    | index => cases hbelow
    | field name =>
      cases v with
      | object members => exact ⟨members, name, t, w, rfl, hbelow, hstep, hQ⟩
      | _ => cases hstep
  · rintro ⟨members, name, t, w, rfl, hp, hw, hQ⟩
    exact ⟨.field name, t, w, hp, hw, hQ⟩

/-- An issue is that of the value itself, or it is one of an item or a member. -/
theorem mem_checkAt_iff : i ∈ s.checkAt place v ↔
    (¬ s.Suits v ∧ i = ⟨place, s.complaint v⟩) ∨
      ∃ seg t w, s.Below seg t ∧ Path.step? seg v = some w ∧ i ∈ t.checkAt (place ++ [seg]) w := by
  -- below the kinds without parts there is nothing; of an array and of an object the parts are known
  cases s with
  | number | boolean => cases v <;> simp [checkAt, Value.isNull, Suits, complaint, Below]
  | integer c => cases v <;> simp [checkAt, Value.isNull, Suits, complaint, Below, ← Number.isWhole_iff]
  | enumeration c choices => cases v <;> simp [checkAt, Value.isNull, Suits, complaint, Below, checkChoice]
  | text c choices oneOf =>
    cases v <;> cases choices <;> cases oneOf <;>
      simp [checkAt, Value.isNull, Suits, complaint, Below, checkChoice, allowed?, Offers]
  | array c items =>
    rw [exists_item_iff]
    cases v <;> simp [checkAt, Value.isNull, Suits, complaint, mem_checkItems_iff]
  | object c properties =>
    rw [exists_member_iff]
    cases v <;> simp [checkAt, Value.isNull, Suits, complaint, mem_checkProperties_iff]

theorem Conforms.suits (h : s.Conforms v) : s.Suits v := by
  cases h with
  | null => simp [Suits]
  | text hoffers => exact hoffers
  | enumeration hchoice => exact hchoice
  | integer hwhole => exact hwhole
  | _ => trivial

theorem Conforms.part (h : s.Conforms v) (hbelow : s.Below seg t) (hstep : Path.step? seg v = some w) :
    t.Conforms w := by
  cases h with
  | null => cases seg <;> cases hstep
  | array hitems =>
    cases seg with
    | field => cases hbelow
    | index n => exact hbelow ▸ hitems w (List.mem_of_getElem? hstep)
  | object hmembers =>
    cases seg with
    | index => cases hbelow
    | field name => exact hmembers _ hbelow w hstep
  | _ => cases seg <;> cases hbelow

/-- A value conforms that suits itself, if its parts conform. -/
theorem Conforms.of_parts (h : s.Suits v)
    (hparts : ∀ seg t w, s.Below seg t → Path.step? seg v = some w → t.Conforms w) : s.Conforms v := by
  cases v with
  | null => exact .null s
  | bool b =>
    cases s with
    | boolean c => exact .boolean c b
    | _ => cases h
  | number n =>
    cases s with
    | number c => exact .number c n
    | integer c => exact .integer h
    | _ => cases h
  | string found =>
    cases s with
    | text => exact .text h
    | enumeration => exact .enumeration h
    | _ => cases h
  | array vs =>
    cases s with
    | array c items =>
      refine .array fun w hw => ?_
      obtain ⟨n, hn⟩ := List.mem_iff_getElem?.mp hw
      exact hparts (.index n) items w rfl hn
    | _ => cases h
  | object members =>
    cases s with
    | object c properties => exact .object fun p hp w hw => hparts (.field p.1) p.2 w hp hw
    | _ => cases h

/-- The issues are those of the places to which the schema leads. -/
theorem mem_checkAt : i ∈ s.checkAt place v ↔
    ∃ p t w, s.Leads p t ∧ Path.resolve? p v = some w ∧ ¬ t.Suits w ∧ i = ⟨place ++ p, t.complaint w⟩ := by
  induction s using below_induction generalizing place v with
  | step s ih =>
  rw [mem_checkAt_iff]
  constructor
  · rintro (⟨hsuits, rfl⟩ | ⟨seg, t, w, hbelow, hstep, hi⟩)
    · exact ⟨[], s, v, rfl, rfl, hsuits, by rw [List.append_nil]⟩
    · obtain ⟨p, r, x, hleads, hx, hsuits, rfl⟩ := (ih seg t hbelow).mp hi
      refine ⟨seg :: p, r, x, ⟨t, hbelow, hleads⟩, ?_, hsuits, by rw [List.append_assoc, List.singleton_append]⟩
      rw [Path.resolve?, hstep, Option.bind_some, hx]
  · rintro ⟨p, r, x, hleads, hx, hsuits, rfl⟩
    cases p with
    | nil =>
      obtain rfl : r = s := hleads
      obtain rfl := Option.some.inj hx
      exact .inl ⟨hsuits, by rw [List.append_nil]⟩
    | cons seg p =>
      obtain ⟨t, hbelow, hleads⟩ := hleads
      obtain ⟨w, hstep, hx⟩ := Option.bind_eq_some_iff.mp hx
      refine .inr ⟨seg, t, w, hbelow, hstep, (ih seg t hbelow).mpr ?_⟩
      exact ⟨p, r, x, hleads, hx, hsuits, by rw [List.append_assoc, List.singleton_append]⟩

/-- A value conforms if every part suits that the schema leads to. -/
theorem conforms_iff : s.Conforms v ↔ ∀ p t w, s.Leads p t → Path.resolve? p v = some w → t.Suits w := by
  constructor
  · -- along the path, since the parts of what conforms conform
    intro h p
    induction p generalizing s v with
    | nil =>
      rintro t w rfl hw
      exact Option.some.inj hw ▸ h.suits
    | cons seg p ih =>
      rintro t w ⟨r, hbelow, hleads⟩ hw
      obtain ⟨x, hstep, hx⟩ := Option.bind_eq_some_iff.mp hw
      exact ih (h.part hbelow hstep) t w hleads hx
  · intro h
    induction s using below_induction generalizing v with
    | step s ih =>
    refine .of_parts (h [] s v rfl rfl) fun seg t w hbelow hstep => ih seg t hbelow fun p r x hleads hx => ?_
    refine h (seg :: p) r x ⟨t, hbelow, hleads⟩ ?_
    rw [Path.resolve?, hstep, Option.bind_some, hx]

/-- The issues of a value are the complaints about those parts that do not suit. -/
theorem mem_check_iff : i ∈ s.check v ↔
    ∃ t w, s.Leads i.place t ∧ Path.resolve? i.place v = some w ∧ ¬ t.Suits w ∧ i.mismatch = t.complaint w := by
  rw [check, mem_checkAt]
  constructor
  · rintro ⟨p, t, w, hleads, hw, hsuits, rfl⟩
    exact ⟨t, w, hleads, hw, hsuits, rfl⟩
  · rintro ⟨t, w, hleads, hw, hsuits, hmismatch⟩
    exact ⟨i.place, t, w, hleads, hw, hsuits, by rw [List.nil_append, ← hmismatch]⟩

/-- The check finds nothing in values that conform, and in no others. -/
theorem check_eq_nil_iff : s.check v = [] ↔ s.Conforms v := by
  rw [List.eq_nil_iff_forall_not_mem, conforms_iff]
  constructor
  · intro h p t w hleads hw
    by_contra hsuits
    exact h ⟨p, t.complaint w⟩ (mem_check_iff.mpr ⟨t, w, hleads, hw, hsuits, rfl⟩)
  · intro h i hi
    obtain ⟨t, w, hleads, hw, hsuits, _⟩ := mem_check_iff.mp hi
    exact hsuits (h i.place t w hleads hw)

/-! ### The order of the issues -/

/-- One step comes before another: the item of the smaller index, the property declared first. -/
def Ahead : Schema → Segment → Segment → Prop
  | .array _ _, .index n, .index k => n < k
  | .object _ properties, .field name, .field other => [name, other].Sublist (properties.map Prod.fst)
  | _, _, _ => False

/-- One path comes before another: at the first step in which they differ it does. -/
def Before : Schema → Path → Path → Prop
  | s, a :: p, b :: q => s.Ahead a b ∨ a = b ∧ ∃ t, s.Below a t ∧ t.Before p q
  | _, _, _ => False

/-- No object that the schema speaks of has two properties of one name. -/
def Distinct (s : Schema) : Prop :=
  ∀ p c properties, s.Leads p (.object c properties) → (properties.map Prod.fst).Nodup

theorem Distinct.below (h : s.Distinct) (hbelow : s.Below seg t) : t.Distinct :=
  fun p c properties hleads => h (seg :: p) c properties ⟨t, hbelow, hleads⟩

theorem Ahead.ne {a b : Segment} (h : s.Distinct) (hab : s.Ahead a b) : a ≠ b := by
  rintro rfl
  cases s with
  | array c items =>
    cases a with
    | field => cases hab
    | index n => exact Nat.lt_irrefl n hab
  | object c properties =>
    cases a with
    | index => cases hab
    | field name => exact List.nodup_iff_sublist.mp (h [] c properties rfl) name hab
  | _ => cases hab

/-- Where a path comes before another, neither leads to the other. -/
theorem Before.apart {p q : Path} (h : s.Distinct) (hpq : s.Before p q) : p.Apart q := by
  induction p generalizing s q with
  | nil => cases hpq
  | cons a p ih =>
    cases q with
    | nil => cases hpq
    | cons b q =>
      simp only [Path.Apart, List.cons_prefix_cons]
      rcases hpq with hahead | ⟨rfl, t, hbelow, hpq⟩
      · have hne := hahead.ne h
        exact ⟨fun hp => hne hp.1, fun hq => hne hq.1.symm⟩
      · obtain ⟨hp, hq⟩ := ih (h.below hbelow) hpq
        exact ⟨fun hpre => hp hpre.2, fun hpre => hq hpre.2⟩

/-- Both places are at or below the given one, and from there the first comes before the second. -/
def PlacedBefore (s : Schema) (place : Path) (i j : Issue) : Prop :=
  ∃ p q, i.place = place ++ p ∧ j.place = place ++ q ∧ s.Before p q

theorem PlacedBefore.up {j : Issue} (hbelow : s.Below seg t) (h : t.PlacedBefore (place ++ [seg]) i j) :
    s.PlacedBefore place i j := by
  obtain ⟨p, q, hi, hj, hpq⟩ := h
  rw [List.append_assoc, List.singleton_append] at hi hj
  exact ⟨seg :: p, seg :: q, hi, hj, .inr ⟨rfl, t, hbelow, hpq⟩⟩

theorem PlacedBefore.of_ahead {j : Issue} {a b : Segment} {x y : Value} {t' : Schema} (hab : s.Ahead a b)
    (hi : i ∈ t.checkAt (place ++ [a]) x) (hj : j ∈ t'.checkAt (place ++ [b]) y) : s.PlacedBefore place i j := by
  obtain ⟨p, _, _, _, _, _, rfl⟩ := mem_checkAt.mp hi
  obtain ⟨q, _, _, _, _, _, rfl⟩ := mem_checkAt.mp hj
  refine ⟨a :: p, b :: q, ?_, ?_, .inl hab⟩ <;> simp only [List.append_assoc, List.singleton_append]

theorem pairwise_checkItems {c : Caption} {items : Schema} {vs : List Value}
    (h : ∀ n w, (items.checkAt (place ++ [.index n]) w).Pairwise (items.PlacedBefore (place ++ [.index n]))) :
    (checkItems items.checkAt place 0 vs).Pairwise ((Schema.array c items).PlacedBefore place) := by
  have hindex : (vs.zipIdx.map Prod.snd).Pairwise (· < ·) := by
    rw [List.zipIdx_map_snd]
    exact List.pairwise_lt_range'
  rw [checkItems_eq_flatMap, List.pairwise_flatMap]
  refine ⟨fun item _ => ?_, ?_⟩
  · have hbelow : (Schema.array c items).Below (.index item.2) items := rfl
    exact (h item.2 item.1).imp (PlacedBefore.up hbelow)
  · exact (List.pairwise_map.mp hindex).imp fun {a b} hlt i hi j hj =>
      .of_ahead (show (Schema.array c items).Ahead (.index a.2) (.index b.2) from hlt) hi hj

theorem mem_checkProperty {members : Members} {p : String × Schema} (hi : i ∈ checkProperty place members p) :
    ∃ w, i ∈ p.2.checkAt (place ++ [.field p.1]) w := by
  rw [checkProperty] at hi
  split at hi
  · exact ⟨_, hi⟩
  · cases hi

theorem pairwise_checkProperties {c : Caption} {properties : List (String × Schema)} {members : Members}
    (h : ∀ p ∈ properties, ∀ w,
      (p.2.checkAt (place ++ [.field p.1]) w).Pairwise (p.2.PlacedBefore (place ++ [.field p.1]))) :
    (checkProperties properties place members).Pairwise ((Schema.object c properties).PlacedBefore place) := by
  rw [checkProperties_eq_flatMap, List.pairwise_flatMap]
  constructor
  · intro p hp
    have hbelow : (Schema.object c properties).Below (.field p.1) p.2 := hp
    rw [checkProperty]
    split
    · exact (h p hp _).imp (PlacedBefore.up hbelow)
    · exact .nil
  · refine List.pairwise_iff_forall_sublist.mpr fun {a b} hsub i hi j hj => ?_
    have hahead : (Schema.object c properties).Ahead (.field a.1) (.field b.1) := hsub.map Prod.fst
    obtain ⟨x, hi⟩ := mem_checkProperty hi
    obtain ⟨y, hj⟩ := mem_checkProperty hj
    exact .of_ahead hahead hi hj

theorem pairwise_checkChoice {R : Issue → Issue → Prop} {found : String} {choices : Option (List String)} :
    (checkChoice place found choices).Pairwise R := by
  unfold checkChoice
  split
  · exact .nil
  · split
    · exact .nil
    · exact List.pairwise_singleton R _

theorem pairwise_checkAt (s : Schema) (place : Path) (v : Value) :
    (s.checkAt place v).Pairwise (s.PlacedBefore place) := by
  induction s using below_induction generalizing place v with
  | step s ih =>
  unfold checkAt
  split
  · exact .nil
  · cases s with
    | text | enumeration => cases v <;> simp [pairwise_checkChoice]
    | number | boolean => cases v <;> simp
    | integer =>
      cases v with
      | number n => cases hn : n.isWhole <;> simp [hn]
      | _ => simp
    | array c items =>
      cases v with
      | array vs => exact pairwise_checkItems fun n w => ih (.index n) items rfl _ w
      | _ => simp
    | object c properties =>
      cases v with
      | object members => exact pairwise_checkProperties fun p hp w => ih (.field p.1) p.2 hp _ w
      | _ => simp

/-- The issues stand in the order of the schema and of the items, and none at or below another's place. -/
theorem pairwise_check (h : s.Distinct) (v : Value) :
    (s.check v).Pairwise fun i j => s.Before i.place j.place ∧ i.place.Apart j.place := by
  refine (pairwise_checkAt s [] v).imp fun {i j} hij => ?_
  obtain ⟨p, q, hi, hj, hpq⟩ := hij
  rw [hi, hj]
  exact ⟨hpq, hpq.apart h⟩

end Schema

end DiagramEditor
