import DiagramEditor.Json.Printer
import DiagramEditor.Json.Token
import DiagramEditor.Proofs.Path.Printing

/-!
# The tokens of a written document

What is written is cut into the tokens it was written from. A number is the one thing a
reader may take for another one: whole numbers are read back as they were, and of a double
this is asked for.
-/

set_option autoImplicit false

namespace DiagramEditor.Json

namespace Token

/-! ### Texts of tokens -/

/-- The text consists of these tokens, with blanks among them. -/
inductive Spells : List Token → List Char → Prop
  | nil : Spells [] []
  | blank {c : Char} {ts : List Token} {cs : List Char} : isBlank c = true → Spells ts cs → Spells ts (c :: cs)
  | token {t : Token} {ts : List Token} {text rest : List Char} :
    text ≠ [] → scan? (text ++ rest) = some (t, rest) → Spells ts rest → Spells (t :: ts) (text ++ rest)

theorem isBlank_of_scan? {c : Char} {cs : List Char} {found : Token × List Char} (h : scan? (c :: cs) = some found) :
    isBlank c = false := by
  by_contra hblank
  simp only [isBlank, Bool.not_eq_false, Bool.or_eq_true, decide_eq_true_eq] at hblank
  rcases hblank with ((rfl | rfl) | rfl) | rfl <;> simp [scan?, scanNumber, isDigit, ofLexeme?] at h

theorem map_lexFuel {ts : List Token} {cs : List Char} (h : Spells ts cs) {fuel : Nat} (hfuel : cs.length ≤ fuel) :
    (lexFuel fuel cs).map (·.1) = ts := by
  induction h generalizing fuel with
  | nil => cases fuel <;> rfl
  | @blank c ts cs hblank _ ih =>
    obtain ⟨fuel, rfl⟩ := Nat.exists_eq_add_of_le' (Nat.succ_le_of_lt (Nat.lt_of_lt_of_le (Nat.succ_pos _) hfuel))
    rw [lexFuel, if_pos hblank]
    exact ih (by simpa using hfuel)
  | @token t ts text rest hne hscan _ ih =>
    obtain ⟨c, cs, rfl⟩ := List.exists_cons_of_ne_nil hne
    simp only [List.cons_append, List.length_cons, List.length_append] at hfuel
    obtain ⟨fuel, rfl⟩ : ∃ n, fuel = n + 1 := ⟨fuel - 1, by omega⟩
    rw [List.cons_append] at hscan ⊢
    rw [lexFuel, isBlank_of_scan? hscan]
    simp only [Bool.false_eq_true, if_false, hscan, List.map_cons]
    rw [ih (by omega)]

theorem Spells.lex_eq {ts : List Token} {cs : List Char} (h : Spells ts cs) : lex cs = ts :=
  map_lexFuel h (le_refl _)

theorem Spells.mark {t : Token} {ts : List Token} {c : Char} {rest : List Char}
    (hscan : scan? (c :: rest) = some (t, rest)) (h : Spells ts rest) : Spells (t :: ts) (c :: rest) :=
  .token (List.cons_ne_nil c []) hscan h

/-! ### Strings -/

theorem hexUnit?_control {n : Nat} (h : n < 32) :
    hexUnit? '0' '0' (Nat.digitChar (n / 16)) (Nat.digitChar (n % 16)) = some n := by
  revert n
  decide

theorem scanString_plain {c : Char} (hcontrol : ¬ c.toNat < 32) (hquote : c ≠ '"') (hslash : c ≠ '\\')
    (rest out : List Char) : scanString (c :: rest) none (some out) = scanString rest none (some (c :: out)) := by
  have hplain : ¬ (c.toNat < 32 ∨ c = '\\') := not_or.mpr ⟨hcontrol, hslash⟩
  rw [scanString, if_neg hplain]
  · rfl
  · exact hquote
  · exact fun _ _ _ _ _ hmark _ => hslash hmark
  · exact fun _ _ hmark _ => hslash hmark

theorem scanString_escapeChar (c : Char) (rest out : List Char) :
    scanString (escapeChar c ++ rest) none (some out) = scanString rest none (some (c :: out)) := by
  have hnamed : ∀ {n : Nat}, c.toNat = n → c = Char.ofNat n := fun h => by rw [← h, Char.ofNat_toNat]
  by_cases hquote : c = '"'
  · subst hquote
    simp [escapeChar, scanString, simpleEscape?]
  by_cases hslash : c = '\\'
  · subst hslash
    simp [escapeChar, scanString, simpleEscape?]
  by_cases hback : c.toNat = 8
  · obtain rfl := hnamed hback
    simp [escapeChar, scanString, simpleEscape?]
  by_cases hfeed : c.toNat = 12
  · obtain rfl := hnamed hfeed
    simp [escapeChar, scanString, simpleEscape?]
  by_cases hline : c = '\n'
  · subst hline
    simp [escapeChar, scanString, simpleEscape?]
  by_cases hreturn : c = '\r'
  · subst hreturn
    simp [escapeChar, scanString, simpleEscape?]
  by_cases htab : c = '\t'
  · subst htab
    simp [escapeChar, scanString, simpleEscape?]
  by_cases hcontrol : c.toNat < 32
  · have hhigh : isHighHalf c.toNat = false := by
      simp only [isHighHalf, Bool.and_eq_false_iff, decide_eq_false_iff_not]
      omega
    have hlow : isLowHalf c.toNat = false := by
      simp only [isLowHalf, Bool.and_eq_false_iff, decide_eq_false_iff_not]
      omega
    simp [escapeChar, hquote, hslash, hback, hfeed, hline, hreturn, htab, hcontrol, scanString,
      hexUnit?_control hcontrol, hhigh, hlow]
  · have hplain : escapeChar c = [c] := by
      simp [escapeChar, hquote, hslash, hback, hfeed, hline, hreturn, htab, hcontrol]
    rw [hplain, List.singleton_append, scanString_plain hcontrol hquote hslash]

theorem scanString_quoteChars (s out rest : List Char) :
    scanString (s.flatMap escapeChar ++ '"' :: rest) none (some out) =
      some (some (String.ofList (out.reverse ++ s)), rest) := by
  induction s generalizing out with
  | nil => simp [scanString]
  | cons c s ih =>
    rw [List.flatMap_cons, List.append_assoc, scanString_escapeChar, ih]
    simp

theorem scan?_quote (s : String) (rest : List Char) : scan? (quote s ++ rest) = some (.string (some s), rest) := by
  have hquote : quote s ++ rest = '"' :: (s.toList.flatMap escapeChar ++ '"' :: rest) := by
    simp [quote, quoteChars]
  rw [hquote, scan?, scanString_quoteChars]
  simp

/-! ### Numbers -/

/-- A character with which a number may go on. -/
def goesOn (c : Char) : Bool := isDigit c || c == '.' || c == 'e' || c == 'E'

/-- Before this text a number ends. -/
def Ends (cs : List Char) : Prop := ∀ c ∈ cs.head?, goesOn c = false

section

variable {rest : List Char} {p : Char → Bool}

theorem takeWhile_append (h : ∀ c ∈ rest.head?, p c = false) (cs : List Char) :
    (cs ++ rest).takeWhile p = cs.takeWhile p ∧ (cs ++ rest).dropWhile p = cs.dropWhile p ++ rest := by
  induction cs with
  | nil =>
    cases rest with
    | nil => simp
    | cons c rest => simp [h c rfl]
  | cons c cs ih => by_cases hc : p c = true <;> simp [hc, ih]

variable (hrest : Ends rest)
include hrest

theorem Ends.isDigit : ∀ c ∈ rest.head?, isDigit c = false := by
  intro c hc
  have := hrest c hc
  simp only [goesOn, Bool.or_eq_false_iff] at this
  exact this.1.1.1

theorem scanExponent_append {cs left : List Char} {e : Bool × List Char} (h : scanExponent cs = some (e, left)) :
    scanExponent (cs ++ rest) = some (e, left ++ rest) := by
  have hdigits : ∀ {negative : Bool} {ds : List Char}, scanExponent.digits negative ds = some (e, left) →
      scanExponent.digits negative (ds ++ rest) = some (e, left ++ rest) := by
    intro negative ds hds
    unfold scanExponent.digits at hds ⊢
    rw [(takeWhile_append hrest.isDigit ds).1, (takeWhile_append hrest.isDigit ds).2]
    split at hds <;> simp_all
  unfold scanExponent at h
  split at h
  · exact hdigits h
  · exact hdigits h
  · rename_i hminus hplus
    cases cs with
    | nil => simp [scanExponent.digits] at h
    | cons c cs =>
      rw [List.cons_append, scanExponent]
      · exact hdigits h
      · rintro ds heq
        exact hminus _ (by rw [(List.cons.inj heq).1])
      · rintro ds heq
        exact hplus _ (by rw [(List.cons.inj heq).1])

theorem exponent_append {negative : Bool} {whole cs : List Char} {fraction : Option (List Char)}
    {lexeme : Number.Lexeme} (h : scanTail.exponent negative whole fraction cs = some (lexeme, [])) :
    scanTail.exponent negative whole fraction (cs ++ rest) = some (lexeme, rest) := by
  unfold scanTail.exponent at h
  split at h
  · obtain ⟨⟨e, left⟩, he, heq⟩ := Option.map_eq_some_iff.mp h
    obtain ⟨rfl, rfl⟩ := Prod.mk.inj heq
    rw [List.cons_append, scanTail.exponent, scanExponent_append hrest he]
    rfl
  · obtain ⟨⟨e, left⟩, he, heq⟩ := Option.map_eq_some_iff.mp h
    obtain ⟨rfl, rfl⟩ := Prod.mk.inj heq
    rw [List.cons_append, scanTail.exponent, scanExponent_append hrest he]
    rfl
  · obtain ⟨rfl, rfl⟩ := Prod.mk.inj (Option.some.inj h)
    rw [List.nil_append, scanTail.exponent]
    · rintro ds rfl
      exact absurd (hrest 'e' rfl) (by decide)
    · rintro ds rfl
      exact absurd (hrest 'E' rfl) (by decide)

theorem scanTail_append {negative : Bool} {whole cs : List Char} {lexeme : Number.Lexeme}
    (h : scanTail negative whole cs = some (lexeme, [])) :
    scanTail negative whole (cs ++ rest) = some (lexeme, rest) := by
  unfold scanTail at h
  split at h
  · rename_i ds
    split at h
    · cases h
    · rename_i hfraction
      rw [List.cons_append, scanTail, (takeWhile_append hrest.isDigit ds).1, (takeWhile_append hrest.isDigit ds).2]
      split
      · rename_i hnone
        exact absurd hnone hfraction
      · exact exponent_append hrest h
  · rename_i hpoint
    rw [scanTail]
    · exact exponent_append hrest h
    · intro ds heq
      cases cs with
      | nil =>
        obtain rfl : rest = '.' :: ds := heq
        exact absurd (hrest '.' rfl) (by decide)
      | cons c cs => exact hpoint _ (by rw [(List.cons.inj heq).1])

theorem scanNumber_append {negative : Bool} {cs : List Char} {lexeme : Number.Lexeme}
    (h : scanNumber negative cs = some (lexeme, [])) :
    scanNumber negative (cs ++ rest) = some (lexeme, rest) := by
  unfold scanNumber at h ⊢
  rw [(takeWhile_append hrest.isDigit cs).1, (takeWhile_append hrest.isDigit cs).2]
  split at h
  · cases h
  · cases h
  · exact scanTail_append hrest h

end

theorem of_ofLexeme? {found : Option (Number.Lexeme × List Char)} {t : Token} {left : List Char}
    (h : ofLexeme? found = some (t, left)) : ∃ lexeme, found = some (lexeme, left) ∧ t = .number lexeme.read? := by
  cases found with
  | none => cases h
  | some found =>
    obtain ⟨rfl, rfl⟩ := Prod.mk.inj (Option.some.inj h)
    exact ⟨found.1, rfl, rfl⟩

theorem scan?_digit {c : Char} (h : isDigit c = true) (cs : List Char) :
    scan? (c :: cs) = ofLexeme? (scanNumber false (c :: cs)) := by
  unfold scan?
  split
  case h_12 => rfl
  all_goals
    rename_i heq
    rw [(List.cons.inj heq).1] at h
    exact absurd h (by decide)

/-- A number in front of a text with which it cannot go on. -/
theorem scan?_append {cs rest : List Char} {n : Option Number} (h : scan? cs = some (.number n, []))
    (hrest : Ends rest) : scan? (cs ++ rest) = some (.number n, rest) := by
  unfold scan? at h
  split at h
  case h_11 rest' =>
    obtain ⟨lexeme, hscan, heq⟩ := of_ofLexeme? h
    rw [List.cons_append, scan?, scanNumber_append hrest hscan, heq]
    rfl
  case h_12 =>
    obtain ⟨lexeme, hscan, heq⟩ := of_ofLexeme? h
    obtain ⟨c, ds, rfl, hdigit⟩ : ∃ c ds, cs = c :: ds ∧ isDigit c = true := by
      unfold scanNumber at hscan
      cases cs with
      | nil => cases hscan
      | cons c ds =>
        refine ⟨c, ds, rfl, ?_⟩
        by_contra hc
        simp [hc] at hscan
    rw [List.cons_append, scan?_digit hdigit, ← List.cons_append, scanNumber_append hrest hscan, heq]
    rfl
  all_goals simp at h

theorem isDigit_eq (c : Char) : isDigit c = c.isDigit := by
  simp [isDigit, Char.isDigit, Char.le_def]

end Token

namespace Number

open Token

/-- The number is read back from its text. -/
def Legible (n : Number) : Prop := scan? n.print.toList = some (.number (some n), [])

instance (n : Number) : Decidable n.Legible := inferInstanceAs (Decidable (_ = _))

theorem head_toString {n : Nat} (h : n ≠ 0) : ∀ c ∈ (toString n).toList.head?, c ≠ '0' := by
  rw [Nat.toString_eq_repr, Nat.toList_repr]
  induction n using Nat.strong_induction_on with
  | _ n ih =>
    by_cases hn : n < 10
    · rw [Nat.toDigits_of_lt_base hn]
      have hall : ∀ n < 10, n ≠ 0 → Nat.digitChar n ≠ '0' := by decide
      simpa using hall n hn h
    · rw [Nat.toDigits_of_base_le (by decide) (by omega)]
      intro c hc
      refine ih (n / 10) (by omega) (by omega) c ?_
      rwa [List.head?_append_of_ne_nil _ Nat.toDigits_ne_nil] at hc

theorem digitsValue_toString (n : Nat) : digitsValue (toString n).toList = n := by
  rw [Nat.toString_eq_repr, Nat.toList_repr]
  exact Nat.ofDigitChars_ten_toDigits

theorem scanNumber_toString (negative : Bool) (n : Nat) :
    scanNumber negative (toString n).toList = some (⟨negative, (toString n).toList, none, none⟩, []) := by
  have hdigits : ∀ c ∈ (toString n).toList, isDigit c = true := fun c hc =>
    (isDigit_eq c).trans (Text.isDigit_of_mem_toString hc)
  rw [scanNumber, List.takeWhile_eq_self_iff.mpr hdigits, List.dropWhile_eq_nil_iff.mpr hdigits]
  split
  · rename_i hnil
    simp [Nat.toString_eq_repr, Nat.toDigits_ne_nil] at hnil
  · rename_i c ds hzero
    have hn : n ≠ 0 := by
      rintro rfl
      cases hzero
    exact absurd rfl (head_toString hn '0' (by rw [hzero]; rfl))
  · rfl

theorem ofInt?_eq {n : Int} (exact : leastInt ≤ n ∧ n < intLimit) : ofInt? n = some (int n exact) := dif_pos exact

theorem read?_of_plain {negative : Bool} {whole : List Char} {n : Number}
    (h : (⟨negative, whole, none, none⟩ : Lexeme).toInt? = some n) :
    (⟨negative, whole, none, none⟩ : Lexeme).read? = some n := by
  simp only [Lexeme.read?, Lexeme.isPlain, Option.isNone_none, Bool.and_self, if_true, h]

/-- A whole number is read back, whatever its size. -/
@[simp] theorem legible_int (n : Int) (exact : leastInt ≤ n ∧ n < intLimit) : (int n exact).Legible := by
  cases n with
  | ofNat k =>
    have htext : (int (Int.ofNat k) exact).print.toList = (toString k).toList := rfl
    have hread : (⟨false, (toString k).toList, none, none⟩ : Lexeme).read? = some (int (Int.ofNat k) exact) := by
      refine read?_of_plain ?_
      simp only [Lexeme.toInt?, digitsValue_toString, Bool.false_eq_true, if_false]
      exact ofInt?_eq exact
    obtain ⟨c, cs, hcs⟩ : ∃ c cs, (toString k).toList = c :: cs :=
      List.exists_cons_of_ne_nil (by simp [Nat.toString_eq_repr, Nat.toDigits_ne_nil])
    have hdigit : isDigit c = true := by
      rw [isDigit_eq]
      exact Text.isDigit_of_mem_toString (hcs ▸ List.mem_cons_self : c ∈ (toString k).toList)
    rw [Legible, htext, hcs, scan?_digit hdigit, ← hcs, scanNumber_toString, ofLexeme?, hread]
  | negSucc k =>
    have htext : (int (Int.negSucc k) exact).print.toList = '-' :: (toString (k + 1)).toList := by
      change (toString (Int.negSucc k)).toList = _
      rw [Int.toString_eq_repr, Int.repr]
      simp
    have hlarge : ¬ Nat.pow 2 63 < k + 1 := by
      have := exact.1
      simp only [leastInt, Int.negSucc_eq, Int.ofNat_eq_natCast] at this
      omega
    have hread : (⟨true, (toString (k + 1)).toList, none, none⟩ : Lexeme).read? = some (int (Int.negSucc k) exact) := by
      refine read?_of_plain ?_
      simp only [Lexeme.toInt?, digitsValue_toString, if_true, Nat.succ_ne_zero, hlarge, or_self, if_false]
      exact ofInt?_eq exact
    rw [Legible, htext, scan?, scanNumber_toString, ofLexeme?, hread]

end Number

/-! ### Values -/

namespace Value

/-- Every number of the value is read back from its text. -/
inductive Legible : Value → Prop
  | null : Legible .null
  | bool (b : Bool) : Legible (.bool b)
  | number {n : Number} : n.Legible → Legible (.number n)
  | string (s : String) : Legible (.string s)
  | array {items : List Value} : (∀ v ∈ items, v.Legible) → Legible (.array items)
  | object {members : Members} : (∀ m ∈ members, m.2.Legible) → Legible (.object members)

mutual

def decideLegible : (v : Value) → Decidable v.Legible
  | .null => isTrue .null
  | .bool b => isTrue (.bool b)
  | .number n => decidable_of_iff n.Legible ⟨.number, fun | .number h => h⟩
  | .string s => isTrue (.string s)
  | .array items =>
    match decideLegibleItems items with
    | isTrue h => isTrue (.array h)
    | isFalse hnot => isFalse fun | .array h => hnot h
  | .object members =>
    match decideLegibleMembers members with
    | isTrue h => isTrue (.object h)
    | isFalse hnot => isFalse fun | .object h => hnot h

def decideLegibleItems : (items : List Value) → Decidable (∀ v ∈ items, v.Legible)
  | [] => isTrue (List.forall_mem_nil _)
  | v :: rest =>
    match decideLegible v, decideLegibleItems rest with
    | isTrue hv, isTrue hrest => isTrue (List.forall_mem_cons.mpr ⟨hv, hrest⟩)
    | isFalse hnot, _ => isFalse fun h => hnot (List.forall_mem_cons.mp h).1
    | _, isFalse hnot => isFalse fun h => hnot (List.forall_mem_cons.mp h).2

def decideLegibleMembers : (members : Members) → Decidable (∀ m ∈ members, m.2.Legible)
  | [] => isTrue (List.forall_mem_nil _)
  | (_, v) :: rest =>
    match decideLegible v, decideLegibleMembers rest with
    | isTrue hv, isTrue hrest => isTrue (List.forall_mem_cons.mpr ⟨hv, hrest⟩)
    | isFalse hnot, _ => isFalse fun h => hnot (List.forall_mem_cons.mp h).1
    | _, isFalse hnot => isFalse fun h => hnot (List.forall_mem_cons.mp h).2

end

instance : DecidablePred Value.Legible := decideLegible

theorem Legible.ofFloat {x : Float} (hx : ∀ n ∈ Number.ofFloat? x, n.Legible) : (Value.ofFloat x).Legible := by
  rw [Value.ofFloat]
  split
  · rename_i n hn
    exact .number (hx n hn)
  · exact .null

mutual

/-- The tokens that are written for a value. -/
def tokens : Value → List Token
  | .null => [.null]
  | .bool b => [.bool b]
  | .number n => [.number (some n)]
  | .string s => [.string (some s)]
  | .array items => .openArray :: itemTokens items
  | .object members => .openObject :: memberTokens members

def itemTokens : List Value → List Token
  | [] => [.closeArray]
  | [v] => v.tokens ++ [.closeArray]
  | v :: rest => v.tokens ++ .comma :: itemTokens rest

def memberTokens : Members → List Token
  | [] => [.closeObject]
  | [(k, v)] => .string (some k) :: .colon :: (v.tokens ++ [.closeObject])
  | (k, v) :: rest => .string (some k) :: .colon :: (v.tokens ++ .comma :: memberTokens rest)

end

open Token (Spells Ends)

theorem ends_cons {c : Char} (h : Token.goesOn c = false) (cs : List Char) : Ends (c :: cs) := by
  intro d hd
  obtain rfl := Option.some.inj hd
  exact h

theorem spells_key (key : String) {ts : List Token} {cs : List Char} (h : Spells ts cs) :
    Spells (.string (some key) :: .colon :: ts) (quote key ++ ':' :: cs) :=
  .token (List.cons_ne_nil _ _) (Token.scan?_quote key _) (.mark rfl h)

mutual

/-- The text of a value in front of any text in which a number cannot go on. -/
theorem spells_compactChars (v : Value) (hv : v.Legible) {ts : List Token} {cs : List Char} (h : Spells ts cs)
    (hcs : Ends cs) : Spells (v.tokens ++ ts) (v.compactChars ++ cs) := by
  match v, hv with
  | .null, _ => exact .token (List.cons_ne_nil _ _) rfl h
  | .bool true, _ => exact .token (List.cons_ne_nil _ _) rfl h
  | .bool false, _ => exact .token (List.cons_ne_nil _ _) rfl h
  | .number n, .number hn =>
    have hne : n.print.toList ≠ [] := by
      intro hnil
      rw [Number.Legible, hnil] at hn
      cases hn
    exact .token hne (Token.scan?_append hn hcs) h
  | .string s, _ => exact .token (List.cons_ne_nil _ _) (Token.scan?_quote s cs) h
  | .array items, .array hitems => exact .mark rfl (spells_compactItems items hitems h)
  | .object members, .object hmembers => exact .mark rfl (spells_compactMembers members hmembers h)

theorem spells_compactItems (vs : List Value) (hvs : ∀ v ∈ vs, v.Legible) {ts : List Token} {cs : List Char}
    (h : Spells ts cs) : Spells (itemTokens vs ++ ts) (compactItems vs ++ cs) := by
  match vs with
  | [] => exact .mark rfl h
  | [v] =>
    have hclose : Spells (.closeArray :: ts) (']' :: cs) := .mark rfl h
    have hv := spells_compactChars v (hvs v List.mem_cons_self) hclose (ends_cons (by decide) cs)
    simpa [itemTokens, compactItems] using hv
  | v :: w :: rest =>
    have hrest := spells_compactItems (w :: rest) (fun u hu => hvs u (List.mem_cons_of_mem _ hu)) h
    have hcomma : Spells (.comma :: (itemTokens (w :: rest) ++ ts)) (',' :: (compactItems (w :: rest) ++ cs)) :=
      .mark rfl hrest
    have hv := spells_compactChars v (hvs v List.mem_cons_self) hcomma (ends_cons (by decide) _)
    simpa [itemTokens, compactItems] using hv

theorem spells_compactMembers (ms : Members) (hms : ∀ m ∈ ms, m.2.Legible) {ts : List Token} {cs : List Char}
    (h : Spells ts cs) : Spells (memberTokens ms ++ ts) (compactMembers ms ++ cs) := by
  match ms with
  | [] => exact .mark rfl h
  | [(k, v)] =>
    have hclose : Spells (.closeObject :: ts) ('\x7d' :: cs) := .mark rfl h
    have hv := spells_compactChars v (hms (k, v) List.mem_cons_self) hclose (ends_cons (by decide) cs)
    simpa [memberTokens, compactMembers] using spells_key k hv
  | (k, v) :: m :: rest =>
    have hrest := spells_compactMembers (m :: rest) (fun n hn => hms n (List.mem_cons_of_mem _ hn)) h
    have hcomma : Spells (.comma :: (memberTokens (m :: rest) ++ ts)) (',' :: (compactMembers (m :: rest) ++ cs)) :=
      .mark rfl hrest
    have hv := spells_compactChars v (hms (k, v) List.mem_cons_self) hcomma (ends_cons (by decide) _)
    simpa [memberTokens, compactMembers] using spells_key k hv

end

theorem lex_compactChars {v : Value} (hv : v.Legible) : Token.lex v.compactChars = v.tokens := by
  have h := (spells_compactChars v hv .nil (by simp [Ends])).lex_eq
  simpa using h

/-! ### Texts over several lines -/

theorem spells_newline (indent : Nat) {ts : List Token} {cs : List Char} (h : Spells ts cs) :
    Spells ts (newline indent ++ cs) := by
  refine .blank rfl ?_
  induction indent with
  | zero => exact h
  | succ indent ih => exact .blank rfl ih

theorem ends_newline (indent : Nat) (cs : List Char) : Ends (newline indent ++ cs) := ends_cons (by decide) _

mutual

theorem spells_prettyChars (indent : Nat) (v : Value) (hv : v.Legible) {ts : List Token} {cs : List Char}
    (h : Spells ts cs) (hcs : Ends cs) : Spells (v.tokens ++ ts) (v.prettyChars indent ++ cs) := by
  match v, hv with
  -- what stands on one line is written as in the text without blanks
  | .null, hv | .bool true, hv | .bool false, hv | .number _, hv | .string _, hv | .array [], hv | .object [], hv =>
    exact spells_compactChars _ hv h hcs
  | .array (v :: vs), .array hitems =>
    exact .mark rfl (spells_prettyItems (indent + 2) (v :: vs) hitems h)
  | .object (m :: ms), .object hmembers =>
    exact .mark rfl (spells_prettyMembers (indent + 2) (m :: ms) hmembers h)

theorem spells_prettyItems (indent : Nat) (vs : List Value) (hvs : ∀ v ∈ vs, v.Legible) {ts : List Token}
    {cs : List Char} (h : Spells ts cs) : Spells (itemTokens vs ++ ts) (prettyItems indent vs ++ cs) := by
  match vs with
  | [] => simpa [itemTokens, prettyItems] using spells_newline (indent - 2) (.mark rfl h)
  | [v] =>
    have hclose : Spells (.closeArray :: ts) (newline (indent - 2) ++ ']' :: cs) := spells_newline _ (.mark rfl h)
    have hv := spells_prettyChars indent v (hvs v List.mem_cons_self) hclose (ends_newline _ _)
    simpa [itemTokens, prettyItems] using spells_newline indent hv
  | v :: w :: rest =>
    have hrest := spells_prettyItems indent (w :: rest) (fun u hu => hvs u (List.mem_cons_of_mem _ hu)) h
    have hcomma : Spells (.comma :: (itemTokens (w :: rest) ++ ts)) (',' :: (prettyItems indent (w :: rest) ++ cs)) :=
      .mark rfl hrest
    have hv := spells_prettyChars indent v (hvs v List.mem_cons_self) hcomma (ends_cons (by decide) _)
    simpa [itemTokens, prettyItems] using spells_newline indent hv

theorem spells_prettyMembers (indent : Nat) (ms : Members) (hms : ∀ m ∈ ms, m.2.Legible) {ts : List Token}
    {cs : List Char} (h : Spells ts cs) : Spells (memberTokens ms ++ ts) (prettyMembers indent ms ++ cs) := by
  match ms with
  | [] => simpa [memberTokens, prettyMembers] using spells_newline (indent - 2) (.mark rfl h)
  | [(k, v)] =>
    have hclose : Spells (.closeObject :: ts) (newline (indent - 2) ++ '\x7d' :: cs) := spells_newline _ (.mark rfl h)
    have hv := spells_prettyChars indent v (hms (k, v) List.mem_cons_self) hclose (ends_newline _ _)
    simpa [memberTokens, prettyMembers] using spells_newline indent (spells_key k (.blank (by decide) hv))
  | (k, v) :: m :: rest =>
    have hrest := spells_prettyMembers indent (m :: rest) (fun n hn => hms n (List.mem_cons_of_mem _ hn)) h
    have hcomma : Spells (.comma :: (memberTokens (m :: rest) ++ ts))
        (',' :: (prettyMembers indent (m :: rest) ++ cs)) := .mark rfl hrest
    have hv := spells_prettyChars indent v (hms (k, v) List.mem_cons_self) hcomma (ends_cons (by decide) _)
    simpa [memberTokens, prettyMembers] using spells_newline indent (spells_key k (.blank (by decide) hv))

end

theorem lex_prettyChars {v : Value} (hv : v.Legible) : Token.lex (v.prettyChars 0) = v.tokens := by
  have h := (spells_prettyChars 0 v hv .nil (by simp [Ends])).lex_eq
  simpa using h

end Value

end DiagramEditor.Json
