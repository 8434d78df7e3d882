import DiagramEditor.Proofs.Path.Grammar

/-!
# Printed paths

A path is legible when its names hold no dot and no bracket and it neither begins nor
ends with a blank. What is printed of such a path spells it, so it is read back provided its
indices can be read, and no two of them are printed alike.
-/

set_option autoImplicit false

namespace DiagramEditor

open Text (isBlank)

namespace Path

structure Legible (p : Path) : Prop where
  nonempty : p ≠ []
  segments : ∀ s ∈ p, s.Legible
  opens : ∀ name, p.head? = some (.field name) → ∀ c ∈ name.toList.head?, isBlank c = false
  closes : ∀ name, p.getLast? = some (.field name) → ∀ c ∈ name.toList.getLast?, isBlank c = false

/-- Every index of the path can be read. -/
def Bounded (p : Path) : Prop := ∀ n, .index n ∈ p → n < indexLimit

structure Readable (p : Path) : Prop extends Legible p where
  bounded : p.Bounded

/-! ### Reading back -/

/-- What is printed of the segments after the first. -/
def tailChars (p : Path) : List Char := p.flatMap (segmentChars false)

theorem printChars_cons (s : Segment) (rest : Path) : printChars (s :: rest) = segmentChars true s ++ tailChars rest :=
  rfl

theorem Brackets.index {n : Nat} (hn : n < indexLimit) : Brackets (segmentChars false (.index n)) [n] :=
  .cons (.toString hn) .nil

theorem Piece.index {first : Bool} {cs : List Char} {p : Path} (h : Piece first cs p) {n : Nat} (hn : n < indexLimit) :
    Piece first (cs ++ segmentChars false (.index n)) (p ++ [.index n]) := by
  cases h with
  | named hname hindices =>
    rw [List.append_assoc, List.cons_append, ← List.map_singleton, ← List.map_append]
    exact .named hname (hindices.append (.index hn))
  | bare hfirst hindices =>
    rw [← List.map_singleton, ← List.map_append]
    exact .bare hfirst (hindices.append (.index hn))

/-- Printed after a piece, indices go on with it and a name begins the next one. -/
theorem Piece.spells {first : Bool} {cs : List Char} {p q : Path} (h : Piece first cs q) (hp : ∀ s ∈ p, s.Legible)
    (hb : p.Bounded) : Spells first (cs ++ tailChars p) (q ++ p) := by
  induction p generalizing first cs q with
  | nil =>
    rw [tailChars, List.flatMap_nil, List.append_nil, List.append_nil]
    exact .piece h
  | cons s p ih =>
    have hrest : ∀ s ∈ p, s.Legible := fun s hs => hp s (List.mem_cons_of_mem _ hs)
    have hbrest : Bounded p := fun n hn => hb n (List.mem_cons_of_mem _ hn)
    cases s with
    | index n =>
      have hspells := ih (h.index (hb n List.mem_cons_self)) hrest hbrest
      rwa [List.append_assoc, List.append_assoc] at hspells
    | field name =>
      have hname : Piece false name.toList [.field name] := by
        simpa using (.named (hp _ List.mem_cons_self) .nil : Piece false _ _)
      exact .dot h (ih hname hrest hbrest)

theorem Readable.spells {p : Path} (h : p.Readable) : Spells true p.printChars p := by
  obtain ⟨s, rest, rfl⟩ := List.exists_cons_of_ne_nil h.nonempty
  have hrest : ∀ s ∈ rest, s.Legible := fun s hs => h.segments s (List.mem_cons_of_mem _ hs)
  have hb : Bounded rest := fun n hn => h.bounded n (List.mem_cons_of_mem _ hn)
  have hfirst : Piece true (segmentChars true s) [s] := by
    cases s with
    | index n => exact .bare rfl (.index (h.bounded n List.mem_cons_self))
    | field name => simpa [segmentChars] using (.named (h.segments _ List.mem_cons_self) .nil : Piece true _ _)
  exact hfirst.spells hrest hb

theorem segmentChars_ne_nil {s : Segment} (h : s.Legible) (first : Bool) : segmentChars first s ≠ [] := by
  cases s with
  | index n => exact List.cons_ne_nil _ _
  | field name =>
    cases first with
    | true => exact h.1
    | false => exact List.cons_ne_nil _ _

/-- The last of what is printed of a segment does not depend on where it stands. -/
theorem last_segmentChars {s : Segment} (h : s.Legible) {p : Path} (hp : p.getLast? = some s) (first : Bool) {c : Char}
    (hc : c ∈ (segmentChars first s).getLast?)
    (hcloses : ∀ name, p.getLast? = some (.field name) → ∀ c ∈ name.toList.getLast?, isBlank c = false) :
    isBlank c = false := by
  cases s with
  | index n =>
    have hlast : (segmentChars first (.index n)).getLast? = some ']' := by
      rw [segmentChars, ← List.cons_append, List.getLast?_concat]
    rw [hlast] at hc
    obtain rfl := Option.mem_some.mp hc
    rfl
  | field name =>
    cases first with
    | true => exact hcloses name hp c hc
    | false =>
      obtain ⟨d, rest, hcons⟩ := List.exists_cons_of_ne_nil h.1
      have hlast : ('.' :: name.toList).getLast? = name.toList.getLast? := by rw [hcons, List.getLast?_cons_cons]
      exact hcloses name hp c (hlast ▸ hc)

theorem trim_printChars {p : Path} (h : p.Legible) : Text.trim p.printChars = p.printChars := by
  cases p with
  | nil => exact absurd rfl h.nonempty
  | cons s rest =>
    have hs := h.segments s (by simp)
    apply Text.trim_eq_self
    · intro c hc
      cases s with
      | index n =>
        obtain rfl : '[' = c := Option.some.inj hc
        rfl
      | field name =>
        refine h.opens name rfl c ?_
        obtain ⟨d, more, hcons⟩ := List.exists_cons_of_ne_nil hs.1
        rw [printChars_cons, segmentChars, if_pos rfl, hcons] at hc
        rw [hcons]
        exact hc
    · intro c hc
      rcases List.eq_nil_or_concat rest with rfl | ⟨before, last, rfl⟩
      · rw [printChars_cons, tailChars, List.flatMap_nil, List.append_nil] at hc
        exact last_segmentChars hs rfl true hc h.closes
      · have hlast : last.Legible := h.segments last (by simp)
        rw [printChars_cons, tailChars, List.concat_eq_append, List.flatMap_append, List.flatMap_singleton,
          ← List.append_assoc, List.getLast?_append_of_ne_nil _ (segmentChars_ne_nil hlast false)] at hc
        exact last_segmentChars hlast (by simp [List.getLast?_cons]) false hc h.closes

theorem parse_print {p : Path} (h : p.Readable) : parse p.print = .ok p := by
  rw [parse_eq_ok_iff, print, String.toList_ofList, trim_printChars h.toLegible]
  exact h.spells

/-! ### No two alike -/

/-- Two texts that end where a kind of character ends agree up to there. -/
theorem append_inj_of_head {p : Char → Bool} {as bs xs ys : List Char} (ha : ∀ c ∈ as, p c = true)
    (hb : ∀ c ∈ bs, p c = true) (hx : ∀ c ∈ xs.head?, p c = false) (hy : ∀ c ∈ ys.head?, p c = false)
    (h : as ++ xs = bs ++ ys) : as = bs ∧ xs = ys := by
  have hstop : ∀ {cs : List Char}, (∀ c ∈ cs.head?, p c = false) → cs.takeWhile p = [] := by
    intro cs hcs
    cases cs with
    | nil => rfl
    | cons c rest => simp [hcs c rfl]
  have htake := congrArg (List.takeWhile p) h
  rw [List.takeWhile_append_of_pos ha, List.takeWhile_append_of_pos hb, hstop hx, hstop hy, List.append_nil,
    List.append_nil] at htake
  exact ⟨htake, List.append_cancel_left (htake ▸ h)⟩

/-- A segment after the first begins with a dot or a bracket. -/
theorem head_tailChars (p : Path) : ∀ c ∈ (tailChars p).head?, c = '.' ∨ c = '[' := by
  intro c hc
  cases p with
  | nil => cases hc
  | cons s rest =>
    cases s with
    | field name => exact Or.inl (Option.some.inj hc).symm
    | index n => exact Or.inr (Option.some.inj hc).symm

theorem tailChars_injective {p q : Path} (hp : ∀ s ∈ p, s.Legible) (hq : ∀ s ∈ q, s.Legible)
    (h : tailChars p = tailChars q) : p = q := by
  induction p generalizing q with
  | nil =>
    cases q with
    | nil => rfl
    | cons t q => cases t <;> cases h
  | cons s p ih =>
    have ih := fun q => ih (q := q) fun s hs => hp s (List.mem_cons_of_mem _ hs)
    cases q with
    | nil => cases s <;> cases h
    | cons t q =>
      have hrest : ∀ s ∈ q, s.Legible := fun s hs => hq s (List.mem_cons_of_mem _ hs)
      cases s with
      | field name =>
        cases t with
        | index n => exact absurd (List.cons.inj h).1 (by decide)
        | field other =>
          have hchars : ∀ name : String, (Segment.field name).Legible →
              ∀ c ∈ name.toList, (c != '.' && c != '[') = true := fun _ hn c hc => by simp [hn.2 c hc]
          have hends : ∀ p : Path, ∀ c ∈ (tailChars p).head?, (c != '.' && c != '[') = false := by
            intro p c hc
            rcases head_tailChars p c hc with rfl | rfl <;> rfl
          obtain ⟨hname, htail⟩ := append_inj_of_head (hchars _ (hp (.field name) (by simp)))
            (hchars _ (hq (.field other) (by simp))) (hends p) (hends q) (List.cons.inj h).2
          rw [String.toList_inj.mp hname, ih q hrest htail]
      | index m =>
        cases t with
        | field other => exact absurd (List.cons.inj h).1 (by decide)
        | index n =>
          have hsplit : (toString m).toList ++ (']' :: tailChars p) = (toString n).toList ++ (']' :: tailChars q) := by
            simpa [tailChars, segmentChars] using h
          have hend : ∀ p : Path, ∀ c ∈ (']' :: tailChars p).head?, c.isDigit = false := by
            intro p c hc
            obtain rfl : ']' = c := Option.some.inj hc
            rfl
          obtain ⟨hdigits, htail⟩ := append_inj_of_head (fun _ => Text.isDigit_of_mem_toString)
            (fun _ => Text.isDigit_of_mem_toString) (hend p) (hend q) hsplit
          rw [Text.toString_injective hdigits, ih q hrest (List.cons.inj htail).2]

/-- Put behind another segment, a path is printed with a dot before its name. -/
theorem tailChars_eq {p : Path} (h : p.Legible) :
    tailChars p = (match p.head? with | some (.field _) => ['.'] | _ => []) ++ printChars p := by
  obtain ⟨s, rest, rfl⟩ := List.exists_cons_of_ne_nil h.nonempty
  cases s <;> rfl

/-- A bracket tells an index from a name. -/
theorem printChars_name_ne_index {name : String} (h : (Segment.field name).Legible) (n : Nat) (p q : Path) :
    printChars (.field name :: p) ≠ printChars (.index n :: q) := by
  intro heq
  obtain ⟨c, cs, hcons⟩ := List.exists_cons_of_ne_nil h.1
  rw [printChars_cons, printChars_cons, segmentChars, if_pos rfl, hcons] at heq
  exact (h.2 c (by simp [hcons])).2.1 (List.cons.inj heq).1

theorem print_injective {p q : Path} (hp : p.Legible) (hq : q.Legible) (h : p.print = q.print) : p = q := by
  have hchars : printChars p = printChars q := by
    have hlist := congrArg String.toList h
    rwa [print, print, String.toList_ofList, String.toList_ofList] at hlist
  apply tailChars_injective hp.segments hq.segments
  rw [tailChars_eq hp, tailChars_eq hq, hchars]
  congr 1
  obtain ⟨s, rest, rfl⟩ := List.exists_cons_of_ne_nil hp.nonempty
  obtain ⟨t, more, rfl⟩ := List.exists_cons_of_ne_nil hq.nonempty
  cases s with
  | field name =>
    cases t with
    | field other => rfl
    | index n => exact absurd hchars (printChars_name_ne_index (hp.segments _ (by simp)) n rest more)
  | index m =>
    cases t with
    | field other => exact absurd hchars.symm (printChars_name_ne_index (hq.segments _ (by simp)) m more rest)
    | index n => rfl

end Path

end DiagramEditor
