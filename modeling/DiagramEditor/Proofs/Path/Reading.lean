import DiagramEditor.Proofs.Path.Printing

/-!
# Paths that were read

A path that was read is legible, and its indices can be read again. It stays so when an
item of its array is meant, and when its first name is replaced by the path of an item. So
every path an editor comes to is read back from what is printed of it.
-/

set_option autoImplicit false

namespace DiagramEditor

namespace Path

/-- A path read from a text that begins with `first` and ends with `last`: where it
begins or ends with a name, so does that text. -/
structure Spans (first last : List Char) (p : Path) : Prop where
  nonempty : p ≠ []
  segments : ∀ s ∈ p, s.Legible
  bounded : p.Bounded
  opens : ∀ name, p.head? = some (.field name) → name.toList <+: first
  closes : ∀ name, p.getLast? = some (.field name) → name.toList <:+ last

namespace Spans

variable {first last first' last' : List Char} {p q : Path}

theorem append (hp : p.Spans first last) (hq : q.Spans first' last') : Spans first last' (p ++ q) where
  nonempty := by simp [hp.nonempty]
  segments := by
    intro s hs
    rcases List.mem_append.mp hs with hs | hs
    · exact hp.segments s hs
    · exact hq.segments s hs
  bounded := by
    intro n hn
    rcases List.mem_append.mp hn with hn | hn
    · exact hp.bounded n hn
    · exact hq.bounded n hn
  opens := by
    intro name hname
    rw [List.head?_append_of_ne_nil _ hp.nonempty] at hname
    exact hp.opens name hname
  closes := by
    intro name hname
    rw [List.getLast?_append_of_ne_nil _ hq.nonempty] at hname
    exact hq.closes name hname

theorem mono (h : p.Spans first last) (hfirst : first <+: first') (hlast : last <:+ last') : p.Spans first' last' :=
  { h with
    opens := fun name hname => (h.opens name hname).trans hfirst
    closes := fun name hname => (h.closes name hname).trans hlast }

/-- A text without blanks at its ends is read as a legible path. -/
theorem legible (h : p.Spans first last) (hfirst : ∀ c ∈ first.head?, Text.isBlank c = false)
    (hlast : ∀ c ∈ last.getLast?, Text.isBlank c = false) : p.Legible where
  nonempty := h.nonempty
  segments := h.segments
  opens := by
    intro name hname c hc
    obtain ⟨rest, rfl⟩ := h.opens name hname
    exact hfirst c (by rw [List.head?_append, hc]; rfl)
  closes := by
    intro name hname c hc
    obtain ⟨rest, rfl⟩ := h.closes name hname
    exact hlast c (by rw [List.getLast?_append, hc]; rfl)

end Spans

theorem Brackets.lt {cs : List Char} {ns : List Nat} (h : Brackets cs ns) : ∀ n ∈ ns, n < indexLimit := by
  induction h with
  | nil => simp
  | cons hn _ ih => simpa using ⟨hn.lt, ih⟩

theorem spans_indices {n : Nat} {ns : List Nat} (h : ∀ m ∈ n :: ns, m < indexLimit) (first last : List Char) :
    Spans first last ((n :: ns).map .index) where
  nonempty := List.cons_ne_nil _ _
  segments := by
    intro s hs
    obtain ⟨m, _, rfl⟩ := List.mem_map.mp hs
    trivial
  bounded := by
    intro m hm
    obtain ⟨k, hk, heq⟩ := List.mem_map.mp hm
    exact Segment.index.inj heq ▸ h k hk
  opens := by
    rintro name ⟨⟩
  closes := by
    intro name hname
    obtain ⟨m, _, heq⟩ := List.mem_map.mp (List.mem_of_getLast? hname)
    cases heq

theorem spans_name {name : String} (h : (Segment.field name).Legible) : Spans name.toList name.toList [.field name] where
  nonempty := List.cons_ne_nil _ _
  segments := List.forall_mem_singleton.mpr h
  bounded := by simp [Bounded]
  opens := by
    rintro _ ⟨⟩
    exact List.prefix_refl _
  closes := by
    rintro _ ⟨⟩
    exact List.suffix_refl _

theorem Piece.spans {first : Bool} {cs : List Char} {p : Path} (h : Piece first cs p) : p.Spans cs cs := by
  cases h with
  | @named name cs ns hname hindices =>
    cases ns with
    | nil =>
      cases hindices
      rw [List.append_nil]
      exact spans_name hname
    | cons n ns =>
      exact ((spans_name hname).mono (List.prefix_append _ _) (List.suffix_refl _)).append
        (spans_indices hindices.lt [] _)
  | bare _ hindices => exact spans_indices hindices.lt _ _

theorem Spells.spans {first : Bool} {cs : List Char} {p : Path} (h : Spells first cs p) : p.Spans cs cs := by
  induction h with
  | piece hpiece => exact hpiece.spans
  | dot hpiece _ ih =>
    exact (hpiece.spans.mono (List.prefix_append _ _) (List.suffix_refl _)).append
      (ih.mono (List.prefix_refl _) ((List.suffix_cons _ _).trans (List.suffix_append _ _)))

theorem readable_of_parse {text : String} {p : Path} (h : parse text = .ok p) : p.Readable := by
  have hspans := (parse_eq_ok_iff.mp h).spans
  exact ⟨hspans.legible (fun c hc => Text.head_trim hc) (fun c hc => Text.last_trim hc), hspans.bounded⟩

namespace Legible

variable {p rest : Path}

theorem item (h : p.Legible) (n : Nat) : (Path.item p n).Legible where
  nonempty := by simp [Path.item]
  segments := by
    intro s hs
    rcases List.mem_append.mp hs with hs | hs
    · exact h.segments s hs
    · rw [List.mem_singleton.mp hs]
      trivial
  opens := by
    intro name hname
    rw [Path.item, List.head?_append_of_ne_nil _ h.nonempty] at hname
    exact h.opens name hname
  closes := by
    intro name hname
    simp [Path.item] at hname

/-- The path of an item in place of a first name. -/
theorem graft {place : Path} (h : place.Legible) {name : String} (hp : Path.Legible (.field name :: rest)) :
    Path.Legible (place ++ rest) where
  nonempty := by simp [h.nonempty]
  segments := by
    intro s hs
    rcases List.mem_append.mp hs with hs | hs
    · exact h.segments s hs
    · exact hp.segments s (List.mem_cons_of_mem _ hs)
  opens := by
    intro other hother
    rw [List.head?_append_of_ne_nil _ h.nonempty] at hother
    exact h.opens other hother
  closes := by
    intro other hother
    cases rest with
    | nil =>
      rw [List.append_nil] at hother
      exact h.closes other hother
    | cons s rest =>
      rw [List.getLast?_append_of_ne_nil _ (List.cons_ne_nil s rest)] at hother
      exact hp.closes other (by rw [List.getLast?_cons_cons]; exact hother)

end Legible

theorem Readable.item {p : Path} (h : p.Readable) {n : Nat} (hn : n < indexLimit) : (Path.item p n).Readable where
  toLegible := h.toLegible.item n
  bounded := by
    intro m hm
    rcases List.mem_append.mp hm with hm | hm
    · exact h.bounded m hm
    · exact Segment.index.inj (List.mem_singleton.mp hm) ▸ hn

theorem Readable.substitute {p place q : Path} {name : String} (hp : p.Readable) (hplace : place.Readable)
    (h : substitute? name place p = some q) : q.Readable := by
  cases p with
  | nil => cases h
  | cons s rest =>
    cases s with
    | index n => cases h
    | field head =>
      simp only [substitute?, Option.ite_none_right_eq_some, Option.some.injEq] at h
      obtain ⟨-, rfl⟩ := h
      refine ⟨hplace.toLegible.graft hp.toLegible, fun n hn => ?_⟩
      rcases List.mem_append.mp hn with hn | hn
      · exact hplace.bounded n hn
      · exact hp.bounded n (List.mem_cons_of_mem _ hn)

/-- The paths an editor comes to: those it reads, their items, and those in which the path of
an item stands for a first name. -/
inductive Obtained : Path → Prop
  | parsed {text : String} {p : Path} (h : parse text = .ok p) : Obtained p
  | item {p : Path} {n : Nat} (hp : Obtained p) (hn : n < indexLimit) : Obtained (p.item n)
  | substituted {p place q : Path} {name : String} (hp : Obtained p) (hplace : Obtained place)
      (h : substitute? name place p = some q) : Obtained q

theorem Obtained.readable {p : Path} (h : p.Obtained) : p.Readable := by
  induction h with
  | parsed h => exact readable_of_parse h
  | item _ hn ih => exact ih.item hn
  | substituted _ _ h ihp ihplace => exact ihp.substitute ihplace h

/-- Reading takes what spells a path and nothing else, as that path, and it undoes printing. -/
theorem parse_exact :
    (∀ (text : String) (p : Path), parse text = .ok p ↔ Spells true (Text.trim text.toList) p) ∧
      ∀ p : Path, p.Obtained → parse p.print = .ok p :=
  ⟨fun _ _ => parse_eq_ok_iff, fun _ h => parse_print h.readable⟩

/-- A path that begins with an item of an array, its last name after a blank. -/
theorem sample_parse_exact :
    Spells true (Text.trim " class[ +2 ].tags[0][01]".toList) [.field "class", .index 2, .field "tags", .index 0, .index 1] ∧
      Obtained [.index 7, .field "class", .index 3, .field " name"] ∧
      parse "[7].class[3]. name" = .ok [.index 7, .field "class", .index 3, .field " name"] := by
  have hplace : parse " [ 7 ].class " = .ok [.index 7, .field "class"] := by decide +kernel
  have hpath : parse "item. name" = .ok [.field "item", .field " name"] := by decide +kernel
  have hobtained : Obtained [.index 7, .field "class", .index 3, .field " name"] :=
    @Obtained.substituted _ _ _ "item" (.parsed hpath) (.item (.parsed hplace) (by decide : 3 < indexLimit)) rfl
  have hprint : print [.index 7, .field "class", .index 3, .field " name"] = "[7].class[3]. name" := by decide +kernel
  exact ⟨(parse_exact.1 _ _).mp (by decide +kernel), hobtained, hprint ▸ parse_exact.2 _ hobtained⟩

end Path

end DiagramEditor
