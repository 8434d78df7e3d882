import DiagramEditor.LanguageCache
import DiagramEditor.Proofs.Path.Printing

/-!
# What the cache answers

A key tells its id from its version, whatever signs the id is made of. After any documents,
the cache holds under each key what the first of them that compiles was compiled to. So a
document is answered with its forerunner: the first document with its id and version that
was given and compiles.
-/

set_option autoImplicit false

namespace DiagramEditor

/-- The version is what follows the last sign that is no digit. -/
theorem LanguageDocument.key_eq_iff {d d' : LanguageDocument} :
    d.key = d'.key ↔ d.id = d'.id ∧ d.version = d'.version := by
  constructor
  · intro h
    have hlist : d.id.toList ++ '@' :: (toString d.version).toList =
        d'.id.toList ++ '@' :: (toString d'.version).toList := by
      simpa [key, String.toList_append] using congrArg String.toList h
    have hreverse : (toString d.version).toList.reverse ++ '@' :: d.id.toList.reverse =
        (toString d'.version).toList.reverse ++ '@' :: d'.id.toList.reverse := by
      simpa using congrArg List.reverse hlist
    have hdigits : ∀ {n : Nat}, ∀ c ∈ (toString n).toList.reverse, c.isDigit = true := fun c hc =>
      Text.isDigit_of_mem_toString (List.mem_reverse.mp hc)
    obtain ⟨hversion, hid⟩ := Path.append_inj_of_head hdigits hdigits (by simp) (by simp) hreverse
    exact ⟨String.toList_inj.mp (List.reverse_injective (List.cons.inj hid).2),
      Text.toString_injective (List.reverse_injective hversion)⟩
  · rintro ⟨hid, hversion⟩
    rw [key, key, hid, hversion]

namespace LanguageCache

/-- The cache after documents have been asked for. -/
def after (c : LanguageCache) : List LanguageDocument → LanguageCache
  | [] => c
  | d :: rest => (c.getOrCompile d).2.after rest

/-- What a document leaves under a key that is free. -/
def compiledUnder (key : String) (d : LanguageDocument) : Option Language :=
  if d.key = key then (Language.compile d).toOption else none

theorem lookup?_empty (key : String) : empty.lookup? key = none := rfl

/-! ### Compiling under a key -/

/-- What is compiled is answered with what has come before it, if anything has. -/
theorem fst_compile (c : LanguageCache) (d : LanguageDocument) :
    (c.compile d).1 = ((Language.compile d).map fun l => (c.lookup? d.key).getD l).mapError .template := by
  rw [compile]
  cases Language.compile d with
  | error e => rfl
  | ok l =>
    simp only [keepFirst]
    cases c.lookup? d.key <;> rfl

theorem lookup?_compile (c : LanguageCache) (d : LanguageDocument) (key : String) :
    (c.compile d).2.lookup? key = (c.lookup? key).or (compiledUnder key d) := by
  unfold compiledUnder
  cases hl : Language.compile d with
  | error e => simp only [compile, hl, Except.toOption, ite_self, Option.or_none]
  | ok l =>
    simp only [compile, hl, keepFirst, Except.toOption]
    by_cases hkey : d.key = key
    · subst hkey
      rw [if_pos rfl]
      cases hfound : c.lookup? d.key with
      | some first => exact hfound
      | none => exact Table.get?_put_self d.key l c.entries
    · rw [if_neg hkey, Option.or_none]
      cases c.lookup? d.key with
      | some first => rfl
      | none => exact Table.get?_put_of_ne l c.entries fun heq => hkey heq.symm

theorem snd_compile_of_error {c : LanguageCache} {d : LanguageDocument} {e : EditError}
    (h : (c.compile d).1 = .error e) : (c.compile d).2 = c := by
  rw [compile] at h ⊢
  cases hl : Language.compile d with
  | error fault => rfl
  | ok l => simp [hl] at h

theorem lookup?_getOrCompile (c : LanguageCache) (d : LanguageDocument) (key : String) :
    (c.getOrCompile d).2.lookup? key = (c.lookup? key).or (compiledUnder key d) := by
  rw [getOrCompile]
  cases hfound : c.lookup? d.key with
  | none => exact lookup?_compile c d key
  | some l =>
    -- nothing is added, and under the key of the document nothing could be
    by_cases hkey : d.key = key
    · rw [← hkey, hfound, Option.some_or]
    · rw [compiledUnder, if_neg hkey, Option.or_none]

/-! ### One document after the other -/

theorem lookup?_after (c : LanguageCache) (given : List LanguageDocument) (key : String) :
    (c.after given).lookup? key = (c.lookup? key).or (given.findSome? (compiledUnder key)) := by
  induction given generalizing c with
  | nil => rw [after, List.findSome?_nil, Option.or_none]
  | cons d rest ih =>
    rw [after, ih, lookup?_getOrCompile, Option.or_assoc, List.findSome?_cons]
    cases compiledUnder key d <;> rfl

/-- The document whose compiled form a document is answered with: the first with its id and
version that was given before and compiles, or the document itself. -/
def forerunner (given : List LanguageDocument) (d : LanguageDocument) : LanguageDocument :=
  (given.find? fun g => (compiledUnder d.key g).isSome).getD d

theorem findSome?_eq_bind_find? {α β : Type} (f : α → Option β) (xs : List α) :
    xs.findSome? f = (xs.find? fun x => (f x).isSome).bind f := by
  induction xs with
  | nil => rfl
  | cons x rest ih =>
    rw [List.findSome?_cons, List.find?_cons]
    cases hx : f x with
    | none => exact ih
    | some y => exact hx.symm

theorem of_compiledUnder {key : String} {g : LanguageDocument} {l : Language} (h : compiledUnder key g = some l) :
    g.key = key ∧ Language.compile g = .ok l := by
  unfold compiledUnder at h
  split at h
  · rename_i hkey
    refine ⟨hkey, ?_⟩
    cases hl : Language.compile g with
    | error e => simp [hl, Except.toOption] at h
    | ok made => rw [hl] at h; exact congrArg Except.ok (Option.some.inj h)
  · cases h

/-- A document is answered with what its forerunner compiles to. -/
theorem getOrCompile_after (given : List LanguageDocument) (d : LanguageDocument) :
    ((empty.after given).getOrCompile d).1 = (Language.compile (forerunner given d)).mapError .template := by
  have hfound : (empty.after given).lookup? d.key =
      (given.find? fun g => (compiledUnder d.key g).isSome).bind (compiledUnder d.key) := by
    rw [lookup?_after, lookup?_empty, Option.none_or, findSome?_eq_bind_find?]
  rw [getOrCompile, hfound, forerunner]
  cases hfirst : given.find? fun g => (compiledUnder d.key g).isSome with
  | none =>
    simp only [Option.bind_none, Option.getD_none, compile]
    cases hl : Language.compile d with
    | error e => rfl
    | ok l =>
      rw [hfirst, Option.bind_none] at hfound
      simp only [keepFirst, hfound]
      rfl
  | some g =>
    have hcompiled : (compiledUnder d.key g).isSome = true := by simpa using List.find?_some hfirst
    obtain ⟨l, hl⟩ := Option.isSome_iff_exists.mp hcompiled
    simp only [Option.bind_some, hl, Option.getD_some, (of_compiledUnder hl).2]
    rfl

/-- A forerunner has the id and the version of the document. -/
theorem forerunner_spec (given : List LanguageDocument) (d : LanguageDocument) :
    (forerunner given d = d ∨ forerunner given d ∈ given) ∧
      (forerunner given d).id = d.id ∧ (forerunner given d).version = d.version := by
  rw [forerunner]
  cases hfirst : given.find? fun g => (compiledUnder d.key g).isSome with
  | none => exact ⟨Or.inl rfl, rfl, rfl⟩
  | some g =>
    have hcompiled : (compiledUnder d.key g).isSome = true := by simpa using List.find?_some hfirst
    obtain ⟨l, hl⟩ := Option.isSome_iff_exists.mp hcompiled
    exact ⟨Or.inr (List.mem_of_find?_eq_some hfirst), LanguageDocument.key_eq_iff.mp (of_compiledUnder hl).1⟩

theorem forerunner_eq_self {given : List LanguageDocument} {d : LanguageDocument}
    (h : ∀ g ∈ given, g.id = d.id → g.version = d.version → g = d) : forerunner given d = d := by
  obtain ⟨hsource, hid, hversion⟩ := forerunner_spec given d
  rcases hsource with heq | hmem
  · exact heq
  · exact h _ hmem hid hversion

end LanguageCache

end DiagramEditor
