import DiagramEditor.Text.Blank
import Mathlib.Data.List.DropRight
import Mathlib.Data.List.TakeWhile

/-!
# Blanks and numbers

What is cut off a text are blanks, and all that stand at its ends. A number is read from its
digits, so it is read back from what is printed of it.
-/

set_option autoImplicit false

namespace DiagramEditor.Text

/-- Nothing is cut off a text that neither begins nor ends with a blank. -/
theorem trim_eq_self {cs : List Char} (hopen : ∀ c ∈ cs.head?, isBlank c = false)
    (hclose : ∀ c ∈ cs.getLast?, isBlank c = false) : trim cs = cs := by
  have hleft : cs.dropWhile isBlank = cs := by
    cases cs with
    | nil => rfl
    | cons c rest => rw [List.dropWhile_cons_of_neg (by simp [hopen c rfl])]
  have hright : cs.rdropWhile isBlank = cs := by
    rw [List.rdropWhile_eq_self_iff]
    intro hne
    simp [hclose _ (List.getLast?_eq_getLast_of_ne_nil hne)]
  rw [trim, hleft]
  exact hright

theorem head_trim {cs : List Char} {c : Char} (h : (trim cs).head? = some c) : isBlank c = false := by
  have hprefix : trim cs <+: cs.dropWhile isBlank := List.rdropWhile_prefix isBlank _
  obtain ⟨rest, hrest⟩ := hprefix
  have hhead : (cs.dropWhile isBlank).head? = some c := by
    rw [← hrest, List.head?_append, h]
    rfl
  have hnot := List.head?_dropWhile_not isBlank cs
  simpa [hhead] using hnot

theorem last_trim {cs : List Char} {c : Char} (h : (trim cs).getLast? = some c) : isBlank c = false := by
  rw [trim, List.getLast?_reverse] at h
  have hnot := List.head?_dropWhile_not isBlank (cs.dropWhile isBlank).reverse
  simpa [h] using hnot

theorem not_isBlank_of_isDigit {c : Char} (h : c.isDigit = true) : isBlank c = false := by
  have hrange : 48 ≤ c.toNat ∧ c.toNat ≤ 57 := by simpa [Char.isDigit, UInt32.le_iff_toNat_le] using h
  have hall : ∀ n : Fin 58, 48 ≤ n.val → blankCodes.contains n.val = false := by decide
  exact hall ⟨c.toNat, by omega⟩ hrange.1

theorem isDigit_of_mem_toString {n : Nat} {c : Char} (h : c ∈ (toString n).toList) : c.isDigit = true := by
  rw [Nat.toString_eq_repr, Nat.toList_repr] at h
  exact Nat.isDigit_of_mem_toDigits (by decide) (by decide) h

theorem exists_trim (cs : List Char) :
    ∃ before after, cs = before ++ trim cs ++ after ∧ (∀ c ∈ before, isBlank c = true) ∧
      ∀ c ∈ after, isBlank c = true := by
  refine ⟨cs.takeWhile isBlank, (cs.dropWhile isBlank).rtakeWhile isBlank, ?_, ?_, ?_⟩
  · have hsplit : trim cs ++ (cs.dropWhile isBlank).rtakeWhile isBlank = cs.dropWhile isBlank :=
      List.rdropWhile_append_rtakeWhile
    rw [List.append_assoc, hsplit, List.takeWhile_append_dropWhile]
  · exact fun c hc => List.mem_takeWhile_imp hc
  · exact fun c hc => List.mem_rtakeWhile_imp hc

/-- Blanks around a text are cut off. -/
theorem trim_append {before core after : List Char} (hbefore : ∀ c ∈ before, isBlank c = true)
    (hafter : ∀ c ∈ after, isBlank c = true) (hne : core ≠ []) (hopen : ∀ c ∈ core.head?, isBlank c = false)
    (hclose : ∀ c ∈ core.getLast?, isBlank c = false) : trim (before ++ core ++ after) = core := by
  obtain ⟨c, rest, hcore⟩ := List.exists_cons_of_ne_nil hne
  have hleft : (before ++ core ++ after).dropWhile isBlank = core ++ after := by
    have hc : isBlank c = false := hopen c (by rw [hcore]; rfl)
    rw [List.append_assoc, List.dropWhile_append_of_pos hbefore, hcore, List.cons_append,
      List.dropWhile_cons_of_neg (by simp [hc])]
  have hright : after.reverse.dropWhile isBlank = [] := by simpa using hafter
  have hwhole : trim core = core := trim_eq_self hopen hclose
  have hstart : core.dropWhile isBlank = core := by
    rw [hcore, List.dropWhile_cons_of_neg (by simp [hopen c (by rw [hcore]; rfl)])]
  rw [trim, hstart] at hwhole
  rw [trim, hleft, List.reverse_append, List.dropWhile_append_of_pos (by simpa using hafter), hwhole]

/-- A number is read from its digits, with `+` before them or not. -/
theorem natBelow?_eq_some_iff {limit n : Nat} {cs : List Char} :
    natBelow? limit cs = some n ↔
      ∃ sign digits, cs = sign ++ digits ∧ (sign = [] ∨ sign = ['+']) ∧ digits ≠ [] ∧
        (∀ c ∈ digits, c.isDigit = true) ∧ Nat.ofDigitChars 10 digits 0 = n ∧ n < limit := by
  have hread : ∀ digits : List Char,
      (if digits.isEmpty || !digits.all Char.isDigit then none
        else if Nat.ofDigitChars 10 digits 0 < limit then some (Nat.ofDigitChars 10 digits 0) else none) = some n ↔
      digits ≠ [] ∧ (∀ c ∈ digits, c.isDigit = true) ∧ Nat.ofDigitChars 10 digits 0 = n ∧ n < limit := by
    intro digits
    simp only [Option.ite_none_left_eq_some, Option.ite_none_right_eq_some, Option.some.injEq, Bool.or_eq_true,
      List.isEmpty_iff, Bool.not_eq_true', Bool.eq_false_iff, List.all_eq_true, not_or, not_not]
    constructor
    · rintro ⟨⟨hne, hall⟩, hlt, rfl⟩
      exact ⟨hne, hall, rfl, hlt⟩
    · rintro ⟨hne, hall, rfl, hlt⟩
      exact ⟨⟨hne, hall⟩, hlt, rfl⟩
  have hsign : ∀ {digits rest : List Char}, (∀ c ∈ digits, c.isDigit = true) → digits ≠ '+' :: rest := by
    rintro _ rest hdigits rfl
    exact absurd (hdigits '+' (by simp)) (by decide)
  by_cases hplus : ∃ rest, cs = '+' :: rest
  · obtain ⟨rest, rfl⟩ := hplus
    refine (hread rest).trans ⟨fun h => ⟨['+'], rest, rfl, .inr rfl, h⟩, ?_⟩
    rintro ⟨_, digits, heq, rfl | rfl, hne, hdigits, hvalue⟩
    · exact absurd heq.symm (hsign hdigits)
    · obtain rfl := (List.cons.inj heq).2
      exact ⟨hne, hdigits, hvalue⟩
  · rw [natBelow?.eq_def]
    split
    · exact absurd ⟨_, rfl⟩ hplus
    refine (hread cs).trans ⟨fun h => ⟨[], cs, rfl, .inl rfl, h⟩, ?_⟩
    rintro ⟨_, digits, rfl, rfl | rfl, h⟩
    · exact h
    · exact absurd ⟨digits, rfl⟩ hplus

theorem lt_of_natBelow? {limit n : Nat} {cs : List Char} (h : natBelow? limit cs = some n) : n < limit := by
  obtain ⟨_, _, _, _, _, _, _, hlt⟩ := natBelow?_eq_some_iff.mp h
  exact hlt

theorem natBelow?_toString {n limit : Nat} (h : n < limit) : natBelow? limit (toString n).toList = some n := by
  rw [Nat.toString_eq_repr, Nat.toList_repr]
  refine natBelow?_eq_some_iff.mpr ⟨[], _, rfl, .inl rfl, Nat.toDigits_ne_nil, ?_, Nat.ofDigitChars_ten_toDigits, h⟩
  exact fun c hc => Nat.isDigit_of_mem_toDigits (by decide) (by decide) hc

theorem toString_injective {m n : Nat} (h : (toString m).toList = (toString n).toList) : m = n := by
  have hm := natBelow?_toString (Nat.lt_succ_of_le (Nat.le_max_left m n))
  rw [h, natBelow?_toString (Nat.lt_succ_of_le (Nat.le_max_right m n))] at hm
  exact (Option.some.inj hm).symm

end DiagramEditor.Text
