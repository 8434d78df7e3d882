import DiagramEditor.BoundText
import DiagramEditor.Proofs.Text.Blank
import Mathlib.Data.List.Forall2

/-!
# Texts with placeholders, read and written

A text is read from left to right: what stands before a placeholder is a literal, and a
placeholder ends at the first closing brace. Parts that can be told apart come back when
they are written one after the other, and the parts that were read make up the text.
-/

set_option autoImplicit false

namespace DiagramEditor

theorem Path.read_eq (source : String) : read source = (parse source).mapError (.path source) := by
  rw [read]
  cases parse source <;> rfl

namespace BoundText

/-- What a placeholder begins with. -/
def opening : List Char := ['$', '\x7b']

def literals (lit : List Char) : List TextPart := if lit = [] then [] else [.literal (String.ofList lit)]

/-- A text is read as these parts. -/
inductive Reads : List Char → List TextPart → Prop
  | plain {lit : List Char} (hlit : ¬ opening <:+: lit) : Reads lit (literals lit)
  | placeholder {lit inner rest : List Char} {p : Path} {parts : List TextPart} (hlit : ¬ opening <:+: lit)
      (hinner : '\x7d' ∉ inner) (hp : Path.parse (String.ofList inner) = .ok p) (hrest : Reads rest parts) :
      Reads (lit ++ (opening ++ (inner ++ '\x7d' :: rest))) (literals lit ++ .binding p :: parts)

/-- From left to right, the first placeholder that is not closed or holds no path. -/
inductive Breaks (source : String) : List Char → PlaceholderFault → Prop
  | unclosed {lit rest : List Char} (hlit : ¬ opening <:+: lit) (hrest : '\x7d' ∉ rest) :
      Breaks source (lit ++ (opening ++ rest)) (.unclosed source)
  | path {lit inner rest : List Char} {why : PathFault} (hlit : ¬ opening <:+: lit) (hinner : '\x7d' ∉ inner)
      (hp : Path.parse (String.ofList inner) = .error why) :
      Breaks source (lit ++ (opening ++ (inner ++ '\x7d' :: rest))) (.path (String.ofList inner) why)
  | later {lit inner rest : List Char} {p : Path} {e : PlaceholderFault} (hlit : ¬ opening <:+: lit)
      (hinner : '\x7d' ∉ inner) (hp : Path.parse (String.ofList inner) = .ok p) (hrest : Breaks source rest e) :
      Breaks source (lit ++ (opening ++ (inner ++ '\x7d' :: rest))) e

/-! ### Scanning -/

section Scanning

variable {source : String} {text lit inner rest cs : List Char}

theorem outside_cons {c : Char} (h : ¬ opening <+: c :: cs) : outside source text (c :: cs) = outside source (c :: text) cs := by
  rw [outside.eq_def]
  split
  · rename_i heq
    cases heq
  · rename_i rest heq
    exact absurd (heq ▸ List.prefix_append opening rest) h
  · rename_i d rest _ heq
    obtain ⟨rfl, rfl⟩ := List.cons.inj heq
    rfl

theorem outside_plain (h : ¬ opening <:+: cs) : outside source text cs = .ok (withLiteral (cs.reverse ++ text) []) := by
  induction cs generalizing text with
  | nil => rw [outside, List.reverse_nil, List.nil_append]
  | cons c cs ih =>
    rw [List.infix_cons_iff, not_or] at h
    rw [outside_cons h.1, ih h.2, List.reverse_cons, List.append_assoc, List.singleton_append]

/-- A placeholder cannot begin with the last of a literal and end after it. -/
theorem not_prefix_append {c : Char} (h : ¬ opening <+: c :: lit) : ¬ opening <+: c :: (lit ++ (opening ++ rest)) := by
  cases lit with
  | nil => simp [opening]
  | cons d lit => simpa [opening] using h

theorem outside_opening (h : ¬ opening <:+: lit) :
    outside source text (lit ++ (opening ++ rest)) =
      (inside source [] rest).map (withLiteral (lit.reverse ++ text)) := by
  induction lit generalizing text with
  | nil =>
    rw [opening, List.nil_append, List.cons_append, List.cons_append, List.nil_append, outside]
    cases inside source [] rest <;> rfl
  | cons c lit ih =>
    rw [List.infix_cons_iff, not_or] at h
    rw [List.cons_append, outside_cons (not_prefix_append h.1), ih h.2, List.reverse_cons, List.append_assoc,
      List.singleton_append]

theorem inside_unclosed (h : '\x7d' ∉ cs) : inside source text cs = .error (.unclosed source) := by
  induction cs generalizing text with
  | nil => rw [inside]
  | cons c cs ih =>
    rw [List.mem_cons, not_or] at h
    rw [inside, if_neg (Ne.symm h.1), ih h.2]

theorem inside_close (h : '\x7d' ∉ inner) :
    inside source text (inner ++ '\x7d' :: rest) =
      (Path.read (String.ofList (text.reverse ++ inner))).bind fun p =>
        (outside source [] rest).map (.binding p :: ·) := by
  induction inner generalizing text with
  | nil =>
    rw [List.nil_append, List.append_nil, inside, if_pos rfl]
    cases Path.read (String.ofList text.reverse) with
    | error e => rfl
    | ok p => cases outside source [] rest <;> rfl
  | cons c inner ih =>
    rw [List.mem_cons, not_or] at h
    rw [List.cons_append, inside, if_neg (Ne.symm h.1), ih h.2, List.reverse_cons, List.append_assoc,
      List.singleton_append]

theorem exists_opening (h : opening <:+: cs) : ∃ lit rest, cs = lit ++ (opening ++ rest) ∧ ¬ opening <:+: lit := by
  induction cs with
  | nil => cases List.infix_nil.mp h
  | cons c cs ih =>
    by_cases hhere : opening <+: c :: cs
    · obtain ⟨rest, hrest⟩ := hhere
      exact ⟨[], rest, hrest.symm, by simp [opening]⟩
    · obtain ⟨lit, rest, rfl, hlit⟩ := ih ((List.infix_cons_iff.mp h).resolve_left hhere)
      refine ⟨c :: lit, rest, rfl, ?_⟩
      rw [List.infix_cons_iff, not_or]
      exact ⟨fun hp => hhere (hp.trans (List.prefix_append (c :: lit) (opening ++ rest))), hlit⟩

end Scanning

variable {source : String} {cs : List Char} {ps : List TextPart} {e : PlaceholderFault}

theorem withLiteral_reverse (lit : List Char) (parts : List TextPart) :
    withLiteral lit.reverse parts = literals lit ++ parts := by
  cases lit with
  | nil => rfl
  | cons c lit => simp [withLiteral, literals]

theorem Reads.outside (h : Reads cs ps) : outside source [] cs = .ok ps := by
  induction h with
  | plain hlit => rw [outside_plain hlit, List.append_nil, withLiteral_reverse, List.append_nil]
  | @placeholder lit _ _ _ _ hlit hinner hp _ ih =>
    rw [outside_opening hlit, inside_close hinner, List.reverse_nil, List.nil_append, Path.read_eq, hp]
    simp only [Except.mapError, Except.bind, ih, Except.map, List.append_nil, withLiteral_reverse]

theorem Breaks.outside (h : Breaks source cs e) : outside source [] cs = .error e := by
  induction h with
  | unclosed hlit hrest => rw [outside_opening hlit, inside_unclosed hrest, Except.map]
  | path hlit hinner hp =>
    rw [outside_opening hlit, inside_close hinner, List.reverse_nil, List.nil_append, Path.read_eq, hp]
    rfl
  | later hlit hinner hp _ ih =>
    rw [outside_opening hlit, inside_close hinner, List.reverse_nil, List.nil_append, Path.read_eq, hp]
    simp only [Except.mapError, Except.bind, ih, Except.map]

/-- A text that cannot be read breaks somewhere. -/
theorem reads_or_breaks (source : String) (cs : List Char) : (∃ parts, Reads cs parts) ∨ ∃ e, Breaks source cs e := by
  -- what follows a placeholder is shorter than the text
  induction hlength : cs.length using Nat.strong_induction_on generalizing cs with
  | _ length ih =>
    by_cases hopen : opening <:+: cs
    · obtain ⟨lit, rest, rfl, hlit⟩ := exists_opening hopen
      by_cases hclose : '\x7d' ∈ rest
      · obtain ⟨inner, rest, rfl, hinner⟩ := List.eq_append_cons_of_mem hclose
        cases hp : Path.parse (String.ofList inner) with
        | error why => exact .inr ⟨_, .path hlit hinner hp⟩
        | ok p =>
          have hshort : rest.length < length := by
            rw [← hlength]
            simp
            omega
          rcases ih _ hshort rest rfl with ⟨parts, hrest⟩ | ⟨e, hrest⟩
          · exact .inl ⟨_, .placeholder hlit hinner hp hrest⟩
          · exact .inr ⟨_, .later hlit hinner hp hrest⟩
      · exact .inr ⟨_, .unclosed hlit hclose⟩
    · exact .inl ⟨_, .plain hopen⟩

theorem outside_eq_ok_iff (source : String) : outside source [] cs = .ok ps ↔ Reads cs ps := by
  refine ⟨fun h => ?_, Reads.outside⟩
  rcases reads_or_breaks source cs with ⟨others, hreads⟩ | ⟨e, hbreaks⟩
  · exact Except.ok.inj (h.symm.trans hreads.outside) ▸ hreads
  · cases h.symm.trans hbreaks.outside

theorem outside_eq_error_iff : outside source [] cs = .error e ↔ Breaks source cs e := by
  refine ⟨fun h => ?_, Breaks.outside⟩
  rcases reads_or_breaks source cs with ⟨parts, hreads⟩ | ⟨f, hbreaks⟩
  · cases h.symm.trans hreads.outside
  · exact Except.error.inj (h.symm.trans hbreaks.outside) ▸ hbreaks

/-! ### What parts amount to -/

/-- One placeholder stands for itself; in other parts the first one is recorded. -/
inductive Collects : List TextPart → BoundText → Prop
  | single (p : Path) : Collects [.binding p] (.single p)
  | interpolated {before after : List TextPart} {p : Path} (hfirst : ∀ q, .binding q ∉ before)
      (hmore : before ≠ [] ∨ after ≠ []) :
      Collects (before ++ .binding p :: after) (.interpolated (before ++ .binding p :: after) p)

/-- The parts of a text. -/
def parts : BoundText → List TextPart
  | .single p => [.binding p]
  | .interpolated parts _ => parts

theorem Collects.parts_eq {t : BoundText} (h : Collects ps t) : t.parts = ps := by
  cases h <;> rfl

theorem firstBinding?_eq_some_iff {p : Path} :
    firstBinding? ps = some p ↔ ∃ before after, ps = before ++ .binding p :: after ∧ ∀ q, .binding q ∉ before := by
  induction ps with
  | nil => simp [firstBinding?]
  | cons part ps ih =>
    cases part with
    | binding q =>
      constructor
      · rintro ⟨⟩
        exact ⟨[], ps, rfl, fun _ => List.not_mem_nil⟩
      · rintro ⟨before, after, heq, hfirst⟩
        cases before with
        | nil =>
          obtain ⟨⟨⟩, -⟩ := List.cons.inj heq
          rfl
        | cons b before => exact absurd ((List.cons.inj heq).1 ▸ List.mem_cons_self) (hfirst q)
    | literal text =>
      rw [firstBinding?, ih]
      constructor
      · rintro ⟨before, after, rfl, hfirst⟩
        exact ⟨.literal text :: before, after, rfl, by simpa using hfirst⟩
      · rintro ⟨before, after, heq, hfirst⟩
        cases before with
        | nil => cases (List.cons.inj heq).1
        | cons b before =>
          exact ⟨before, after, (List.cons.inj heq).2, fun q hq => hfirst q (List.mem_cons_of_mem _ hq)⟩

theorem firstBinding?_eq_none_iff : firstBinding? ps = none ↔ ∀ p, .binding p ∉ ps := by
  induction ps with
  | nil => simp [firstBinding?]
  | cons part ps ih =>
    cases part with
    | binding p => exact ⟨nofun, fun h => absurd List.mem_cons_self (h p)⟩
    | literal text => simp [firstBinding?, ih]

theorem ofParts?_eq_some_iff {t : BoundText} : ofParts? ps = some t ↔ Collects ps t := by
  constructor
  · intro h
    unfold ofParts? at h
    split at h
    · exact Option.some.inj h ▸ .single _
    · rename_i hmany
      obtain ⟨p, hp, rfl⟩ := Option.map_eq_some_iff.mp h
      obtain ⟨before, after, rfl, hfirst⟩ := firstBinding?_eq_some_iff.mp hp
      refine .interpolated hfirst ?_
      by_contra hnone
      rw [not_or, not_not, not_not] at hnone
      obtain ⟨rfl, rfl⟩ := hnone
      exact hmany p rfl
  · rintro (⟨p⟩ | ⟨hfirst, hmore⟩)
    · rfl
    · rename_i before after p
      have hp : firstBinding? (before ++ .binding p :: after) = some p :=
        firstBinding?_eq_some_iff.mpr ⟨before, after, rfl, hfirst⟩
      unfold ofParts?
      split
      · rename_i q heq
        rcases List.append_eq_singleton_iff.mp heq with ⟨rfl, hafter⟩ | ⟨_, hnil⟩
        · exact absurd (List.cons.inj hafter).2 (hmore.resolve_left (· rfl))
        · cases hnil
      · rw [hp, Option.map_some]

theorem ofParts?_eq_none_iff : ofParts? ps = none ↔ ∀ p, .binding p ∉ ps := by
  unfold ofParts?
  split
  · exact ⟨nofun, fun h => absurd List.mem_cons_self (h _)⟩
  · rw [Option.map_eq_none_iff, firstBinding?_eq_none_iff]

/-! ### Whole texts -/

theorem not_binding_mem_literals (lit : List Char) (p : Path) : .binding p ∉ literals lit := by
  rw [literals]
  split <;> simp

/-- Where a placeholder begins, one was read. -/
theorem Reads.opening_iff (h : Reads cs ps) : (∃ p, .binding p ∈ ps) ↔ opening <:+: cs := by
  cases h with
  | plain hlit => simp [not_binding_mem_literals, hlit]
  | @placeholder lit _ _ p =>
    refine ⟨fun _ => ?_, fun _ => ⟨p, by simp⟩⟩
    rw [← List.append_assoc]
    exact List.infix_append lit opening _

theorem parse_eq_ok_iff {found : Option BoundText} :
    parse source = .ok found ↔ ∃ parts, Reads source.toList parts ∧ ofParts? parts = found := by
  simp only [← outside_eq_ok_iff source, parse]
  cases outside source [] source.toList <;> simp

theorem parse_eq_error_iff : parse source = .error e ↔ Breaks source source.toList e := by
  rw [← outside_eq_error_iff, parse]
  cases outside source [] source.toList <;> simp

theorem parse_eq_none_iff : parse source = .ok none ↔ ¬ opening <:+: source.toList := by
  simp only [parse_eq_ok_iff, ofParts?_eq_none_iff]
  constructor
  · rintro ⟨parts, hreads, hnone⟩ hopen
    obtain ⟨p, hp⟩ := hreads.opening_iff.mpr hopen
    exact hnone p hp
  · exact fun hopen => ⟨_, .plain hopen, not_binding_mem_literals _⟩

/-- What a part was read from. -/
inductive Source : TextPart → List Char → Prop
  | literal (text : String) : Source (.literal text) text.toList
  | binding {inner : List Char} {p : Path} (hinner : '\x7d' ∉ inner) (hp : Path.parse (String.ofList inner) = .ok p) :
      Source (.binding p) (opening ++ (inner ++ ['\x7d']))

theorem sources_literals (lit : List Char) : ∃ sources, List.Forall₂ Source (literals lit) sources ∧ sources.flatten = lit := by
  rw [literals]
  split
  · rename_i hlit
    exact ⟨[], .nil, hlit.symm⟩
  · exact ⟨_, .cons (.literal _) .nil, by simp⟩

/-- The parts of a text make it up. -/
theorem Reads.sources (h : Reads cs ps) : ∃ sources, List.Forall₂ Source ps sources ∧ sources.flatten = cs := by
  induction h with
  | plain => exact sources_literals _
  | @placeholder lit inner _ _ _ _ hinner hp _ ih =>
    obtain ⟨before, hbefore, rfl⟩ := sources_literals lit
    obtain ⟨after, hafter, rfl⟩ := ih
    exact ⟨before ++ (opening ++ (inner ++ ['\x7d'])) :: after,
      List.rel_append hbefore (.cons (.binding hinner hp) hafter), by simp⟩

/-! ### Writing -/

/-- How a part is written. -/
def written : TextPart → List Char
  | .literal text => text.toList
  | .binding p => opening ++ (p.printChars ++ ['\x7d'])

/-- Parts that can be told apart when they are written one after the other. -/
structure Separate (ps : List TextPart) : Prop where
  texts : ∀ text, .literal text ∈ ps → text.toList ≠ [] ∧ ¬ opening <:+: text.toList
  apart : ps.IsChain fun a b => ∃ p, a = .binding p ∨ b = .binding p
  paths : ∀ p, .binding p ∈ ps → Path.parse p.print = .ok p ∧ ∀ name, .field name ∈ p → '\x7d' ∉ name.toList

/-- Separate parts that hold a placeholder. -/
structure Canonical (ps : List TextPart) : Prop extends Separate ps where
  binding : ∃ p, .binding p ∈ ps

theorem close_not_mem_printChars {p : Path} (h : ∀ name, .field name ∈ p → '\x7d' ∉ name.toList) :
    '\x7d' ∉ p.printChars := by
  have hsegment : ∀ (first : Bool), ∀ s ∈ p, '\x7d' ∉ Path.segmentChars first s := by
    intro first s hs
    cases s with
    | field name => cases first <;> simpa [Path.segmentChars] using h name hs
    | index n =>
      have hdigits : '\x7d' ∉ (toString n).toList := fun hm => absurd (Text.isDigit_of_mem_toString hm) (by decide)
      simpa [Path.segmentChars] using hdigits
  cases p with
  | nil => exact List.not_mem_nil
  | cons s rest =>
    rw [Path.printChars, List.mem_append, List.mem_flatMap]
    rintro (hm | ⟨t, ht, hm⟩)
    · exact hsegment true s List.mem_cons_self hm
    · exact hsegment false t (List.mem_cons_of_mem _ ht) hm

theorem Separate.tail {part : TextPart} (h : Separate (part :: ps)) : Separate ps where
  texts text ht := h.texts text (List.mem_cons_of_mem _ ht)
  apart := List.IsChain.of_cons h.apart
  paths p hp := h.paths p (List.mem_cons_of_mem _ hp)

/-- Separate parts are read back one by one. -/
theorem Separate.reads : ∀ {ps : List TextPart}, Separate ps → Reads (ps.flatMap written) ps
  | [], _ => .plain (by simp [opening])
  | .binding p :: rest, h => by
    obtain ⟨hp, hclose⟩ := h.paths p List.mem_cons_self
    simpa [written, literals] using
      @Reads.placeholder [] _ _ _ _ (by simp [opening]) (close_not_mem_printChars hclose) hp h.tail.reads
  | [.literal text], h => by
    obtain ⟨hne, hlit⟩ := h.texts text List.mem_cons_self
    simpa [written, literals, hne] using Reads.plain hlit
  | .literal text :: .binding p :: rest, h => by
    obtain ⟨hne, hlit⟩ := h.texts text List.mem_cons_self
    obtain ⟨hp, hclose⟩ := h.paths p (List.mem_cons_of_mem _ List.mem_cons_self)
    simpa [written, literals, hne] using
      Reads.placeholder hlit (close_not_mem_printChars hclose) hp h.tail.tail.reads
  | .literal text :: .literal other :: rest, h => by
    obtain ⟨p, hp | hp⟩ := (List.isChain_cons_cons.mp h.apart).1 <;> cases hp

/-- Reading undoes writing, and what is read makes up the text. Only a text in which no
placeholder begins holds none, and only one that breaks off or holds what is no path fails. -/
theorem parse_exact_parts :
    (∀ ps, Canonical ps → ∃ t, parse (String.ofList (ps.flatMap written)) = .ok (some t) ∧ Collects ps t) ∧
      (∀ source t, parse source = .ok (some t) →
        Collects t.parts t ∧ ∃ sources, List.Forall₂ Source t.parts sources ∧ sources.flatten = source.toList) ∧
      (∀ source, parse source = .ok none ↔ ¬ opening <:+: source.toList) ∧
      ∀ source e, parse source = .error e ↔ Breaks source source.toList e := by
  refine ⟨fun ps h => ?_, fun source t h => ?_, fun _ => parse_eq_none_iff, fun _ _ => parse_eq_error_iff⟩
  · have hreads : Reads (String.ofList (ps.flatMap written)).toList ps := by
      rw [String.toList_ofList]
      exact h.toSeparate.reads
    cases ht : ofParts? ps with
    | none =>
      obtain ⟨p, hp⟩ := h.binding
      exact absurd hp (ofParts?_eq_none_iff.mp ht p)
    | some t => exact ⟨t, parse_eq_ok_iff.mpr ⟨ps, hreads, ht⟩, ofParts?_eq_some_iff.mp ht⟩
  · obtain ⟨ps, hreads, ht⟩ := parse_eq_ok_iff.mp h
    have hcollects := ofParts?_eq_some_iff.mp ht
    rw [hcollects.parts_eq]
    exact ⟨hcollects, hreads.sources⟩

theorem sample_parse_exact_parts :
    (∃ t, parse "$$\x7ba[0]\x7d$\x7bb\x7d\x7d\x7b" = .ok (some t) ∧
        Collects [.literal "$", .binding [.field "a", .index 0], .binding [.field "b"], .literal "\x7d\x7b"] t) ∧
      ∃ sources, List.Forall₂ Source [.binding [.field "a"], .literal "!"] sources ∧
        sources.flatten = "$\x7b a\x7d!".toList := by
  have hcanonical : Canonical
      [.literal "$", .binding [.field "a", .index 0], .binding [.field "b"], .literal "\x7d\x7b"] :=
    { texts := by simp; decide +kernel
      apart := by simp
      paths := by simp; decide +kernel
      binding := ⟨[.field "b"], by simp⟩ }
  have hparse : parse "$\x7b a\x7d!" = .ok (some (.interpolated [.binding [.field "a"], .literal "!"] [.field "a"])) := by
    decide +kernel
  have hwritten : String.ofList
      ([.literal "$", .binding [.field "a", .index 0], .binding [.field "b"], .literal "\x7d\x7b"].flatMap written) =
        "$$\x7ba[0]\x7d$\x7bb\x7d\x7d\x7b" := by decide +kernel
  exact ⟨hwritten ▸ parse_exact_parts.1 _ hcanonical, (parse_exact_parts.2.1 _ _ hparse).2⟩

end BoundText

end DiagramEditor
