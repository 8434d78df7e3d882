import DiagramEditor.Path.Basic
import DiagramEditor.Proofs.Text.Blank

/-!
# The grammar of paths

A path is written in pieces with dots between them. A piece is a name with any number of
indices after it, each in brackets; the first piece may be indices alone. Reading accepts
just what is so written, blanks around it apart, and takes the steps of the path in order.
-/

set_option autoImplicit false

namespace DiagramEditor

open Text (isBlank)

/-- A name can be told from what stands before and after it. -/
def Segment.Legible : Segment → Prop
  | .field name => name.toList ≠ [] ∧ ∀ c ∈ name.toList, c ≠ '.' ∧ c ≠ '[' ∧ c ≠ ']'
  | .index _ => True

namespace Path

/-- How an index may be written: in digits, with `+` before them or not, and with blanks around. -/
inductive Numeral : List Char → Nat → Prop
  | intro {before sign digits after : List Char} (hbefore : ∀ c ∈ before, isBlank c = true)
      (hsign : sign = [] ∨ sign = ['+']) (hne : digits ≠ []) (hdigits : ∀ c ∈ digits, c.isDigit = true)
      (hafter : ∀ c ∈ after, isBlank c = true) (hlimit : Nat.ofDigitChars 10 digits 0 < indexLimit) :
      Numeral (before ++ (sign ++ digits) ++ after) (Nat.ofDigitChars 10 digits 0)

/-- Indices one after the other, each in brackets. -/
inductive Brackets : List Char → List Nat → Prop
  | nil : Brackets [] []
  | cons {text rest : List Char} {n : Nat} {ns : List Nat} (hn : Numeral text n) (hrest : Brackets rest ns) :
      Brackets ('[' :: (text ++ ']' :: rest)) (n :: ns)

/-- A name with indices after it, or, in the first place, indices alone. -/
inductive Piece (first : Bool) : List Char → Path → Prop
  | named {name : String} {cs : List Char} {ns : List Nat} (hname : (Segment.field name).Legible)
      (hindices : Brackets cs ns) : Piece first (name.toList ++ cs) (.field name :: ns.map .index)
  | bare {cs : List Char} {n : Nat} {ns : List Nat} (hfirst : first = true) (hindices : Brackets cs (n :: ns)) :
      Piece first cs ((n :: ns).map .index)

/-- Pieces with dots between them. -/
inductive Spells : Bool → List Char → Path → Prop
  | piece {first : Bool} {cs : List Char} {p : Path} (hpiece : Piece first cs p) : Spells first cs p
  | dot {first : Bool} {cs rest : List Char} {p q : Path} (hpiece : Piece first cs p) (hrest : Spells false rest q) :
      Spells first (cs ++ '.' :: rest) (p ++ q)

/-! ### Indices -/

theorem numeral_iff {text : List Char} {n : Nat} :
    Numeral text n ↔ Text.natBelow? indexLimit (Text.trim text) = some n := by
  constructor
  · rintro ⟨hbefore, hsign, hne, hdigits, hafter, hlimit⟩
    rename_i before sign digits after
    have hcore : sign ++ digits ≠ [] := by simp [hne]
    have hblank : ∀ c ∈ sign ++ digits, isBlank c = false := by
      intro c hc
      rcases List.mem_append.mp hc with hs | hd
      · rcases hsign with rfl | rfl
        · cases hs
        · rw [List.mem_singleton.mp hs]
          rfl
      · exact Text.not_isBlank_of_isDigit (hdigits c hd)
    rw [Text.trim_append hbefore hafter hcore (fun c hc => hblank c (List.mem_of_mem_head? hc))
      (fun c hc => hblank c (List.mem_of_mem_getLast? hc)), Text.natBelow?_eq_some_iff]
    exact ⟨sign, digits, rfl, hsign, hne, hdigits, rfl, hlimit⟩
  · intro h
    obtain ⟨before, after, hsplit, hbefore, hafter⟩ := Text.exists_trim text
    obtain ⟨sign, digits, htrim, hsign, hne, hdigits, rfl, hlimit⟩ := Text.natBelow?_eq_some_iff.mp h
    rw [hsplit, htrim]
    exact .intro hbefore hsign hne hdigits hafter hlimit

namespace Numeral

variable {text : List Char} {n : Nat}

theorem lt (h : Numeral text n) : n < indexLimit := Text.lt_of_natBelow? (numeral_iff.mp h)

theorem mem (h : Numeral text n) {c : Char} (hc : c ∈ text) :
    isBlank c = true ∨ c = '+' ∨ c.isDigit = true := by
  obtain ⟨hbefore, hsign, _, hdigits, hafter, _⟩ := h
  simp only [List.mem_append] at hc
  rcases hc with (hc | hc | hc) | hc
  · exact .inl (hbefore c hc)
  · rcases hsign with rfl | rfl
    · cases hc
    · exact .inr (.inl (List.mem_singleton.mp hc))
  · exact .inr (.inr (hdigits c hc))
  · exact .inl (hafter c hc)

theorem not_close (h : Numeral text n) : ']' ∉ text := fun hc => absurd (h.mem hc) (by decide)

theorem not_dot (h : Numeral text n) : '.' ∉ text := fun hc => absurd (h.mem hc) (by decide)

theorem toString (hn : n < indexLimit) : Numeral (ToString.toString n).toList n := by
  have hdigit : ∀ c ∈ (ToString.toString n).toList, isBlank c = false := fun c hc =>
    Text.not_isBlank_of_isDigit (Text.isDigit_of_mem_toString hc)
  rw [numeral_iff, Text.trim_eq_self (fun c hc => hdigit c (List.mem_of_mem_head? hc))
    (fun c hc => hdigit c (List.mem_of_mem_getLast? hc))]
  exact Text.natBelow?_toString hn

end Numeral

/-- The first closing bracket ends the index. -/
theorem bracket_eq_ok_iff {text cs : List Char} {p : Path} :
    bracket text cs = .ok p ↔
      ∃ inner rest n more, cs = inner ++ ']' :: rest ∧ ']' ∉ inner ∧ Numeral (text.reverse ++ inner) n ∧
        indices rest = .ok more ∧ p = .index n :: more := by
  induction cs generalizing text with
  | nil => simp [bracket]
  | cons c cs ih =>
    by_cases hc : c = ']'
    · have hread : bracket text (c :: cs) = .ok p ↔
          ∃ n more, Numeral text.reverse n ∧ indices cs = .ok more ∧ p = .index n :: more := by
        simp only [numeral_iff, bracket, if_pos hc]
        cases Text.natBelow? indexLimit (Text.trim text.reverse) with
        | none => simp
        | some n => cases indices cs <;> simp [eq_comm]
      rw [hread]
      constructor
      · rintro ⟨n, more, hn, hmore, rfl⟩
        exact ⟨[], cs, n, more, by rw [hc]; rfl, List.not_mem_nil, by rwa [List.append_nil], hmore, rfl⟩
      · rintro ⟨inner, rest, n, more, heq, hclose, hn, hmore, rfl⟩
        cases inner with
        | nil =>
          obtain rfl := (List.cons.inj heq).2
          exact ⟨n, more, by rwa [List.append_nil] at hn, hmore, rfl⟩
        | cons d inner =>
          obtain rfl := (List.cons.inj heq).1
          exact absurd (hc ▸ List.mem_cons_self) hclose
    · rw [bracket, if_neg hc, ih]
      constructor
      · rintro ⟨inner, rest, n, more, rfl, hclose, hn, hmore⟩
        refine ⟨c :: inner, rest, n, more, rfl, by simpa using ⟨Ne.symm hc, hclose⟩, ?_, hmore⟩
        simpa using hn
      · rintro ⟨inner, rest, n, more, heq, hclose, hn, hmore⟩
        cases inner with
        | nil => exact absurd (List.cons.inj heq).1 hc
        | cons d inner =>
          obtain ⟨rfl, rfl⟩ := List.cons.inj heq
          exact ⟨inner, rest, n, more, rfl, fun hm => hclose (List.mem_cons_of_mem _ hm), by simpa using hn, hmore⟩

theorem indices_eq_ok_iff {cs : List Char} {p : Path} :
    indices cs = .ok p ↔ ∃ ns, Brackets cs ns ∧ p = ns.map .index := by
  constructor
  · intro h
    -- what follows an index is shorter than the text
    induction hlength : cs.length using Nat.strong_induction_on generalizing cs p with
    | _ length ih =>
      cases cs with
      | nil => exact ⟨[], .nil, (Except.ok.inj h).symm⟩
      | cons c cs =>
        rw [indices] at h
        split at h
        · rename_i hc
          obtain ⟨inner, rest, n, more, rfl, _, hn, hmore, rfl⟩ := bracket_eq_ok_iff.mp h
          have hshort : rest.length < length := by
            rw [← hlength]
            simp
            omega
          obtain ⟨ns, hrest, rfl⟩ := ih _ hshort hmore rfl
          exact ⟨n :: ns, hc ▸ .cons hn hrest, rfl⟩
        · cases h
  · rintro ⟨ns, h, rfl⟩
    induction h with
    | nil => rfl
    | cons hn _ ih =>
      rw [indices, if_pos rfl, bracket_eq_ok_iff]
      exact ⟨_, _, _, _, rfl, hn.not_close, hn, ih, rfl⟩

namespace Brackets

variable {cs : List Char} {ns : List Nat}

theorem not_dot (h : Brackets cs ns) : '.' ∉ cs := by
  induction h with
  | nil => exact List.not_mem_nil
  | cons hn _ ih => simpa using ⟨hn.not_dot, ih⟩

/-- Indices begin with a bracket, where a name before them ends. -/
theorem span (h : Brackets cs ns) : cs.takeWhile (· != '[') = [] ∧ cs.dropWhile (· != '[') = cs := by
  cases h <;> simp

theorem append {more : List Char} {ms : List Nat} (h : Brackets cs ns) (hmore : Brackets more ms) :
    Brackets (cs ++ more) (ns ++ ms) := by
  induction h with
  | nil => exact hmore
  | cons hn _ ih =>
    rw [List.cons_append, List.append_assoc, List.cons_append]
    exact .cons hn ih

end Brackets

/-! ### Pieces -/

theorem Piece.not_dot {first : Bool} {cs : List Char} {p : Path} (h : Piece first cs p) : '.' ∉ cs := by
  cases h with
  | named hname hindices => simpa using ⟨fun hm => (hname.2 _ hm).1 rfl, hindices.not_dot⟩
  | bare _ hindices => exact hindices.not_dot

/-- The text before the first bracket is a name, if there is any. -/
theorem legible_name {cs : List Char} (hdot : '.' ∉ cs) (hclose : ']' ∉ cs.takeWhile (· != '['))
    (hne : cs.takeWhile (· != '[') ≠ []) : (Segment.field (String.ofList (cs.takeWhile (· != '[')))).Legible := by
  rw [Segment.Legible, String.toList_ofList]
  refine ⟨hne, fun c hc => ⟨?_, by simpa using List.mem_takeWhile_imp hc, ?_⟩⟩
  · rintro rfl
    exact hdot (List.takeWhile_subset _ hc)
  · rintro rfl
    exact hclose hc

theorem Piece.of_piece {first : Bool} {cs : List Char} {p : Path} (hdot : '.' ∉ cs) (h : piece first cs = .ok p) :
    Piece first cs p := by
  have hsplit : cs.takeWhile (· != '[') ++ cs.dropWhile (· != '[') = cs := List.takeWhile_append_dropWhile
  simp only [piece] at h
  split at h
  · cases h
  rename_i hclose
  split at h
  · cases h
  rename_i hempty
  cases hmore : indices (cs.dropWhile (· != '[')) with
  | error e => simp [hmore] at h
  | ok more =>
    obtain ⟨ns, hindices, rfl⟩ := indices_eq_ok_iff.mp hmore
    simp only [hmore, Except.ok.injEq] at h
    by_cases hname : cs.takeWhile (· != '[') = []
    · rw [hname, List.nil_append] at hsplit
      rw [hsplit] at hindices
      simp only [hname, hsplit] at h hempty
      cases hindices with
      | nil => simp at hempty
      | cons hn hrest => exact h ▸ .bare (by simpa using hempty) (.cons hn hrest)
    · have hlegible := legible_name hdot (fun hm => hclose (List.contains_iff_mem.mpr hm)) hname
      have hpiece : Piece first _ _ := .named hlegible hindices
      rw [String.toList_ofList, hsplit] at hpiece
      rw [if_neg (by simpa using hname)] at h
      exact h ▸ hpiece

theorem Piece.eq_ok {first : Bool} {cs : List Char} {p : Path} (h : Piece first cs p) : piece first cs = .ok p := by
  cases h with
  | @named name cs ns hname hindices =>
    have hopen : ∀ c ∈ name.toList, (c != '[') = true := fun c hc => by simp [(hname.2 c hc).2.1]
    have hclose : name.toList.contains ']' = false := by simpa using fun hm => (hname.2 _ hm).2.2 rfl
    have hempty : name.toList.isEmpty = false := by simpa using hname.1
    rw [piece]
    simp only [List.takeWhile_append_of_pos hopen, List.dropWhile_append_of_pos hopen, hindices.span.1,
      hindices.span.2, List.append_nil, hclose, hempty, indices_eq_ok_iff.mpr ⟨ns, hindices, rfl⟩, Bool.false_and,
      String.ofList_toList]
    rfl
  | @bare _ n ns hfirst hindices =>
    have hempty : cs.isEmpty = false := by
      cases hindices
      rfl
    rw [piece]
    simp only [hindices.span.1, hindices.span.2, hfirst, hempty, indices_eq_ok_iff.mpr ⟨n :: ns, hindices, rfl⟩]
    rfl

theorem pieces_cons (cs : List Char) : ∃ head rest, pieces cs = head :: rest := by
  cases cs with
  | nil => exact ⟨_, _, rfl⟩
  | cons c cs =>
    rw [pieces]
    split
    · exact ⟨_, _, rfl⟩
    · split <;> exact ⟨_, _, rfl⟩

/-- What holds no dot goes before the first piece. -/
theorem pieces_append {before : List Char} (h : '.' ∉ before) {cs head : List Char} {rest : List (List Char)}
    (hcs : pieces cs = head :: rest) : pieces (before ++ cs) = (before ++ head) :: rest := by
  induction before with
  | nil => exact hcs
  | cons c before ih =>
    rw [List.mem_cons, not_or] at h
    rw [List.cons_append, pieces, if_neg (Ne.symm h.1), ih h.2, List.cons_append]

theorem pieces_of_not_dot {cs : List Char} (h : '.' ∉ cs) : pieces cs = [cs] := by
  have happend := pieces_append h (show pieces [] = [[]] from rfl)
  rwa [List.append_nil] at happend

theorem pieces_dot {cs : List Char} (h : '.' ∉ cs) (rest : List Char) : pieces (cs ++ '.' :: rest) = cs :: pieces rest := by
  have happend := pieces_append h (show pieces ('.' :: rest) = [] :: pieces rest from rfl)
  rwa [List.append_nil] at happend

/-- The first piece is the whole text or stands before the first dot. -/
theorem pieces_inv {cs head : List Char} {rest : List (List Char)} (h : pieces cs = head :: rest) :
    '.' ∉ head ∧ (rest = [] ∧ cs = head ∨ ∃ more, cs = head ++ '.' :: more ∧ pieces more = rest) := by
  induction cs generalizing head with
  | nil =>
    obtain ⟨rfl, rfl⟩ := List.cons.inj h
    exact ⟨List.not_mem_nil, Or.inl ⟨rfl, rfl⟩⟩
  | cons c cs ih =>
    obtain ⟨first, others, hcs⟩ := pieces_cons cs
    rw [pieces, hcs] at h
    split at h
    · rename_i hc
      obtain ⟨rfl, rfl⟩ := List.cons.inj h
      exact ⟨List.not_mem_nil, Or.inr ⟨cs, by rw [hc]; rfl, hcs⟩⟩
    · rename_i hc
      obtain ⟨rfl, rfl⟩ := List.cons.inj h
      obtain ⟨hdot, htext⟩ := ih hcs
      refine ⟨by simpa using ⟨Ne.symm hc, hdot⟩, ?_⟩
      rcases htext with ⟨hnil, rfl⟩ | ⟨more, rfl, hmore⟩
      · exact Or.inl ⟨hnil, rfl⟩
      · exact Or.inr ⟨more, rfl, hmore⟩

/-! ### Whole texts -/

theorem joinPieces_cons_eq_ok_iff {first : Bool} {cs : List Char} {rest : List (List Char)} {p : Path} :
    joinPieces first (cs :: rest) = .ok p ↔
      ∃ q more, piece first cs = .ok q ∧ joinPieces false rest = .ok more ∧ p = q ++ more := by
  rw [joinPieces]
  cases piece first cs with
  | error e => simp
  | ok q => cases joinPieces false rest <;> simp [eq_comm]

/-- A text is put together from its pieces just when it spells a path. -/
theorem joinPieces_eq_ok_iff {first : Bool} {cs : List Char} {p : Path} :
    joinPieces first (pieces cs) = .ok p ↔ Spells first cs p := by
  constructor
  · intro h
    obtain ⟨head, rest, hpieces⟩ := pieces_cons cs
    rw [hpieces] at h
    induction rest generalizing first cs head p with
    | nil =>
      obtain ⟨hdot, ⟨_, rfl⟩ | ⟨more, _, hmore⟩⟩ := pieces_inv hpieces
      · obtain ⟨q, _, hq, hnil, rfl⟩ := joinPieces_cons_eq_ok_iff.mp h
        obtain rfl := Except.ok.inj hnil
        rw [List.append_nil]
        exact .piece (.of_piece hdot hq)
      · obtain ⟨_, _, hcons⟩ := pieces_cons more
        cases hmore.symm.trans hcons
    | cons next rest ih =>
      obtain ⟨hdot, ⟨hnil, _⟩ | ⟨more, rfl, hmore⟩⟩ := pieces_inv hpieces
      · cases hnil
      · obtain ⟨q, others, hq, hothers, rfl⟩ := joinPieces_cons_eq_ok_iff.mp h
        exact .dot (.of_piece hdot hq) (ih next hothers hmore)
  · intro h
    induction h with
    | piece hpiece =>
      rw [pieces_of_not_dot hpiece.not_dot]
      exact joinPieces_cons_eq_ok_iff.mpr ⟨_, [], hpiece.eq_ok, rfl, (List.append_nil _).symm⟩
    | dot hpiece _ ih =>
      rw [pieces_dot hpiece.not_dot]
      exact joinPieces_cons_eq_ok_iff.mpr ⟨_, _, hpiece.eq_ok, ih, rfl⟩

theorem Piece.ne_nil {first : Bool} {cs : List Char} {p : Path} (h : Piece first cs p) : cs ≠ [] := by
  cases h with
  | named hname _ => simp [hname.1]
  | bare _ hindices =>
    cases hindices
    exact List.cons_ne_nil _ _

theorem Spells.ne_nil {first : Bool} {cs : List Char} {p : Path} (h : Spells first cs p) : cs ≠ [] := by
  cases h with
  | piece hpiece => exact hpiece.ne_nil
  | dot hpiece _ => simp

/-- Just the texts that spell a path are read, as the path they spell. -/
theorem parse_eq_ok_iff {text : String} {p : Path} : parse text = .ok p ↔ Spells true (Text.trim text.toList) p := by
  rw [← joinPieces_eq_ok_iff, parse, parseChars]
  cases htrim : Text.trim text.toList with
  | nil => simp [pieces, joinPieces, piece]
  | cons c cs => simp

end Path

end DiagramEditor
