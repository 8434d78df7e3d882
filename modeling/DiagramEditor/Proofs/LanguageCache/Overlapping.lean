import DiagramEditor.Proofs.LanguageCache
import Mathlib.Logic.Function.Basic

/-!
# Calls that overlap

A call for a language first looks under the key of its document. If nothing is there it compiles,
and then keeps what came first. Each of these halves is done in one go, but between the two other
calls may do theirs: several may miss, and compile different documents for one key. Whoever comes
first to insert decides for all of them, since an entry is never replaced and every answer is the
entry of its key.
-/

set_option autoImplicit false

namespace DiagramEditor

theorem Language.key_of_compile {d : LanguageDocument} {l : Language} (h : Language.compile d = .ok l) :
    l.key = d.key := by
  rw [compile] at h
  split at h
  · cases h
  · split at h
    · cases h
    · rw [← Except.ok.inj h, key]

namespace LanguageCache

/-- How far a call has come: it has not looked, it has looked and found nothing, or it has its answer. -/
inductive Stage where
  | ready
  | missed
  | done (answer : Except EditError Language)

/-- The next half of a call for a document, and the cache it leaves. A call that is done does no more. -/
def half (d : LanguageDocument) (c : LanguageCache) : Stage → Stage × LanguageCache
  | .ready =>
    match c.lookup? d.key with
    | some l => (.done (.ok l), c)
    | none => (.missed, c)
  | .missed => (.done (c.compile d).1, (c.compile d).2)
  | .done answer => (.done answer, c)

/-- How many halves a call still has before it at most. -/
def Stage.left : Stage → Nat
  | .ready => 2
  | .missed => 1
  | .done _ => 0

/-- What the next half of a call leaves under a key that is free. -/
def leftUnder (key : String) (d : LanguageDocument) : Stage → Option Language
  | .missed => compiledUnder key d
  | _ => none

/-- The two halves of a call with nothing in between are the whole call. -/
theorem half_half (d : LanguageDocument) (c : LanguageCache) :
    half d (half d c .ready).2 (half d c .ready).1 = (.done (c.getOrCompile d).1, (c.getOrCompile d).2) := by
  simp only [half, getOrCompile]
  cases c.lookup? d.key <;> rfl

section Half

variable {d : LanguageDocument} {c c' : LanguageCache} {stage : Stage} {l : Language}

theorem lookup?_half (d : LanguageDocument) (c : LanguageCache) (stage : Stage) (key : String) :
    (half d c stage).2.lookup? key = (c.lookup? key).or (leftUnder key d stage) := by
  cases stage with
  | ready =>
    simp only [half, leftUnder, Option.or_none]
    cases c.lookup? d.key <;> rfl
  | missed => exact lookup?_compile c d key
  | done answer => exact Option.or_none.symm

/-- A half that answers with a language leaves that language under the key. -/
theorem lookup?_of_half (h : (half d c stage).1 = .done (.ok l)) (hstage : stage ≠ .done (.ok l)) :
    (half d c stage).2.lookup? d.key = some l := by
  cases stage with
  | ready =>
    cases hfound : c.lookup? d.key with
    | none => simp [half, hfound] at h
    | some first =>
      simp only [half, hfound, Stage.done.injEq, Except.ok.injEq] at h ⊢
      rw [h]
  | missed =>
    rw [half, fst_compile] at h
    rw [lookup?_half, leftUnder, compiledUnder, if_pos rfl]
    cases hl : Language.compile d with
    | error e => simp [hl, Except.map, Except.mapError] at h
    | ok made =>
      simp only [hl, Except.map, Except.mapError, Stage.done.injEq, Except.ok.injEq] at h
      rw [← h]
      cases c.lookup? d.key <;> rfl
  | done answer => exact absurd h hstage

/-- A half that answers with an error has tried to compile. -/
theorem fault_of_half {fault : EditError} (h : (half d c stage).1 = .done (.error fault))
    (hstage : stage ≠ .done (.error fault)) :
    ∃ cause, fault = .template cause ∧ Language.compile d = .error cause := by
  cases stage with
  | ready => cases hfound : c.lookup? d.key <;> simp [half, hfound] at h
  | missed =>
    rw [half, fst_compile] at h
    cases hl : Language.compile d with
    | error cause =>
      simp only [hl, Except.map, Except.mapError, Stage.done.injEq, Except.error.injEq] at h
      exact ⟨cause, h.symm, rfl⟩
    | ok made => simp [hl, Except.map, Except.mapError] at h
  | done answer => exact absurd h hstage

/-- A half that changes the cache answers with a language. -/
theorem half_changes (d : LanguageDocument) (c : LanguageCache) (stage : Stage) :
    (half d c stage).2 = c ∨ ∃ l, (half d c stage).1 = .done (.ok l) := by
  cases stage with
  | ready =>
    refine .inl ?_
    simp only [half]
    cases c.lookup? d.key <;> rfl
  | missed =>
    cases hl : (c.compile d).1 with
    | error e => exact .inl (snd_compile_of_error hl)
    | ok l => exact .inr ⟨l, congrArg Stage.done hl⟩
  | done answer => exact .inl rfl

theorem left_half (d : LanguageDocument) (c : LanguageCache) (stage : Stage) :
    (half d c stage).1.left ≤ stage.left - 1 := by
  cases stage with
  | ready =>
    simp only [half]
    cases c.lookup? d.key <;> simp [Stage.left]
  | missed | done => exact Nat.le_refl 0

/-- Of the cache a half only sees what is under its key. -/
theorem half_congr (h : c.lookup? d.key = c'.lookup? d.key) (stage : Stage) :
    (half d c stage).1 = (half d c' stage).1 := by
  cases stage with
  | ready =>
    simp only [half, h]
    cases c'.lookup? d.key <;> rfl
  | missed => simp only [half, fst_compile, h]
  | done answer => rfl

end Half

/-! ### Many calls -/

/-- The cache, and how far each call has come. -/
structure Progress where
  cache : LanguageCache
  stage : Nat → Stage

namespace Progress

/-- Nothing was compiled and no call has begun. -/
def start : Progress := ⟨empty, fun _ => .ready⟩

/-- Call `n` does its next half. -/
def turn (docs : Nat → LanguageDocument) (s : Progress) (n : Nat) : Progress where
  cache := (half (docs n) s.cache (s.stage n)).2
  stage := Function.update s.stage n (half (docs n) s.cache (s.stage n)).1

/-- The calls for the documents take turns. -/
def after (docs : Nat → LanguageDocument) (s : Progress) : List Nat → Progress
  | [] => s
  | n :: rest => (s.turn docs n).after docs rest

variable {docs : Nat → LanguageDocument} {s s' : Progress} {turns more : List Nat} {n : Nat} {key : String}
  {l : Language}

theorem after_append (turns more : List Nat) : s.after docs (turns ++ more) = (s.after docs turns).after docs more := by
  induction turns generalizing s with
  | nil => rfl
  | cons n rest ih => exact ih

theorem stage_turn_self (docs : Nat → LanguageDocument) (s : Progress) (n : Nat) :
    (s.turn docs n).stage n = (half (docs n) s.cache (s.stage n)).1 := Function.update_self ..

theorem stage_turn_of_ne {m : Nat} (h : m ≠ n) : (s.turn docs n).stage m = s.stage m := Function.update_of_ne h ..

/-! ### What stays -/

theorem lookup?_turn (h : s.cache.lookup? key = some l) (n : Nat) : (s.turn docs n).cache.lookup? key = some l := by
  rw [turn, lookup?_half, h, Option.some_or]

theorem lookup?_after (h : s.cache.lookup? key = some l) (turns : List Nat) :
    (s.after docs turns).cache.lookup? key = some l := by
  induction turns generalizing s with
  | nil => exact h
  | cons n rest ih => exact ih (lookup?_turn h n)

theorem stage_turn_of_done {answer : Except EditError Language} (h : s.stage n = .done answer) (m : Nat) :
    (s.turn docs m).stage n = .done answer := by
  by_cases hm : n = m
  · subst hm
    rw [stage_turn_self, h, half]
  · rw [stage_turn_of_ne hm, h]

theorem stage_after_of_done {answer : Except EditError Language} (h : s.stage n = .done answer) (turns : List Nat) :
    (s.after docs turns).stage n = .done answer := by
  induction turns generalizing s with
  | nil => exact h
  | cons m rest ih => exact ih (stage_turn_of_done h m)

/-! ### What is answered -/

/-- Every call has at most two turns to wait for its answer. -/
theorem left_after (docs : Nat → LanguageDocument) (s : Progress) (turns : List Nat) (n : Nat) :
    ((s.after docs turns).stage n).left ≤ (s.stage n).left - turns.count n := by
  induction turns generalizing s with
  | nil => exact Nat.le_refl _
  | cons m rest ih =>
    refine (ih (s.turn docs m)).trans ?_
    by_cases hm : n = m
    · subst hm
      have hhalf := left_half (docs n) s.cache (s.stage n)
      rw [stage_turn_self, List.count_cons_self]
      omega
    · rw [stage_turn_of_ne hm, List.count_cons_of_ne (Ne.symm hm)]

/-- A language that was answered is the entry of its key, and an error that was answered is the fault
of the document. -/
structure Settled (docs : Nat → LanguageDocument) (s : Progress) : Prop where
  entry : ∀ n l, s.stage n = .done (.ok l) → s.cache.lookup? (docs n).key = some l
  fault : ∀ n fault, s.stage n = .done (.error fault) →
    ∃ cause, fault = .template cause ∧ Language.compile (docs n) = .error cause

theorem settled_start : start.Settled docs where
  entry := fun _ _ h => nomatch h
  fault := fun _ _ h => nomatch h

/-- What is new after a turn is due to the call whose turn it was. -/
theorem of_stage_turn {m : Nat} {stage : Stage} (h : (s.turn docs n).stage m = stage) (hnew : s.stage m ≠ stage) :
    m = n ∧ (half (docs n) s.cache (s.stage n)).1 = stage := by
  by_cases hm : m = n
  · subst hm
    exact ⟨rfl, (stage_turn_self docs s m).symm.trans h⟩
  · exact absurd ((stage_turn_of_ne hm).symm.trans h) hnew

theorem Settled.turn (h : s.Settled docs) (n : Nat) : (s.turn docs n).Settled docs where
  entry := by
    intro m l hm
    by_cases hdone : s.stage m = .done (.ok l)
    · exact lookup?_turn (h.entry m l hdone) n
    · obtain ⟨rfl, hhalf⟩ := of_stage_turn hm hdone
      exact lookup?_of_half hhalf hdone
  fault := by
    intro m fault hm
    by_cases hdone : s.stage m = .done (.error fault)
    · exact h.fault m fault hdone
    · obtain ⟨rfl, hhalf⟩ := of_stage_turn hm hdone
      exact fault_of_half hhalf hdone

theorem Settled.after (h : s.Settled docs) (turns : List Nat) : (s.after docs turns).Settled docs := by
  induction turns generalizing s with
  | nil => exact h
  | cons n rest ih => exact ih (h.turn n)

/-! ### Who came first -/

/-- What is found after some turns was there before, or it was compiled in one of the turns, when
nothing was there yet. -/
theorem of_lookup?_after (h : (s.after docs turns).cache.lookup? key = some l) :
    s.cache.lookup? key = some l ∨
      ∃ before first rest, turns = before ++ first :: rest ∧
        (s.after docs before).cache.lookup? key = none ∧
        compiledUnder key (docs first) = some l ∧
        (s.after docs (before ++ [first])).cache.lookup? key = some l := by
  induction turns generalizing s with
  | nil => exact .inl h
  | cons n rest ih =>
    rcases ih h with hfound | ⟨before, first, later, rfl, hfree, hcompiled, hleft⟩
    · have hturn := hfound
      rw [turn, lookup?_half, Option.or_eq_some_iff] at hturn
      rcases hturn with hbefore | ⟨hfree, hleft⟩
      · exact .inl hbefore
      · refine .inr ⟨[], n, rest, rfl, hfree, ?_, hfound⟩
        cases hstage : s.stage n <;> rw [hstage] at hleft
        case missed => exact hleft
        all_goals cases hleft
    · exact .inr ⟨n :: before, first, later, rfl, hfree, hcompiled, hleft⟩

/-! ### Calls that fail -/

/-- A call that fails in the end has changed nothing in any of its turns. -/
theorem cache_turn_of_failed {fault : EditError}
    (h : ((s.turn docs n).after docs more).stage n = .done (.error fault)) :
    (s.turn docs n).cache = s.cache := by
  rcases half_changes (docs n) s.cache (s.stage n) with hsame | ⟨l, hl⟩
  · exact hsame
  · have hdone : ((s.turn docs n).after docs more).stage n = .done (.ok l) :=
      stage_after_of_done ((stage_turn_self docs s n).trans hl) more
    rw [h] at hdone
    cases hdone

/-! ### Calls for other keys -/

/-- Under the key both have the same, and calls for the key have come as far in both. -/
structure Alike (docs : Nat → LanguageDocument) (key : String) (s s' : Progress) : Prop where
  entry : s.cache.lookup? key = s'.cache.lookup? key
  stages : ∀ n, (docs n).key = key → s.stage n = s'.stage n

theorem Alike.refl (docs : Nat → LanguageDocument) (key : String) (s : Progress) : Alike docs key s s :=
  ⟨rfl, fun _ _ => rfl⟩

theorem Alike.turn (h : Alike docs key s s') (hn : (docs n).key = key) :
    Alike docs key (s.turn docs n) (s'.turn docs n) where
  entry := by rw [Progress.turn, Progress.turn, lookup?_half, lookup?_half, h.entry, h.stages n hn]
  stages := by
    intro m hm
    by_cases hself : m = n
    · subst hself
      rw [stage_turn_self, stage_turn_self, h.stages m hm]
      exact half_congr (hm ▸ h.entry) _
    · rw [stage_turn_of_ne hself, stage_turn_of_ne hself, h.stages m hm]

theorem Alike.turn_other (h : Alike docs key s s') (hn : (docs n).key ≠ key) : Alike docs key (s.turn docs n) s' where
  entry := by
    have hleft : leftUnder key (docs n) (s.stage n) = none := by
      cases s.stage n with
      | missed => exact if_neg hn
      | ready | done => rfl
    rw [Progress.turn, lookup?_half, hleft, Option.or_none, h.entry]
  stages := by
    rintro m rfl
    have hself : m ≠ n := fun heq => hn (heq ▸ rfl)
    rw [stage_turn_of_ne hself, h.stages m rfl]

/-- Without the calls for other keys all goes the same. -/
theorem Alike.after (h : Alike docs key s s') (turns : List Nat) :
    Alike docs key (s.after docs turns) (s'.after docs (turns.filter fun n => (docs n).key = key)) := by
  induction turns generalizing s s' with
  | nil => exact h
  | cons n rest ih =>
    by_cases hn : (docs n).key = key
    · rw [List.filter_cons, if_pos (decide_eq_true hn)]
      exact ih (h.turn hn)
    · rw [List.filter_cons, if_neg (by simpa using hn)]
      exact ih (h.turn_other hn)

/-! ### One language for a key -/

/-- A key is one id in one version. However calls take turns by halves, a call is answered after two
turns at most. One that succeeds is answered with what was compiled from the document that was first
inserted under its key, and that entry stays whatever turns follow. So calls for one id and version that
succeed are answered alike. A call only fails if its document cannot be compiled, and then it has changed
nothing. Without the calls for other keys all would have gone the same. -/
theorem overlapping_calls_agree (docs : Nat → LanguageDocument) (turns : List Nat) :
    (∀ d d' : LanguageDocument, d.key = d'.key ↔ d.id = d'.id ∧ d.version = d'.version) ∧
    (∀ d c, half d (half d c .ready).2 (half d c .ready).1 = (.done (c.getOrCompile d).1, (c.getOrCompile d).2)) ∧
    (∀ n, 2 ≤ turns.count n → ∃ answer, (start.after docs turns).stage n = .done answer) ∧
    (∀ n l, (start.after docs turns).stage n = .done (.ok l) →
      l.key = (docs n).key ∧
      ∃ before first rest, turns = before ++ first :: rest ∧
        (docs first).id = (docs n).id ∧ (docs first).version = (docs n).version ∧
        Language.compile (docs first) = .ok l ∧
        (start.after docs before).cache.lookup? (docs n).key = none ∧
        ∀ more, (start.after docs (before ++ first :: more)).cache.lookup? (docs n).key = some l) ∧
    (∀ m n k l, (docs m).id = (docs n).id → (docs m).version = (docs n).version →
      (start.after docs turns).stage m = .done (.ok k) → (start.after docs turns).stage n = .done (.ok l) → k = l) ∧
    (∀ n fault, (start.after docs turns).stage n = .done (.error fault) →
      (∃ cause, fault = .template cause ∧ Language.compile (docs n) = .error cause) ∧
      ∀ before rest, turns = before ++ n :: rest →
        (start.after docs (before ++ [n])).cache = (start.after docs before).cache) ∧
    ∀ key, Alike docs key (start.after docs turns) (start.after docs (turns.filter fun n => (docs n).key = key)) := by
  have hsettled : (start.after docs turns).Settled docs := settled_start.after turns
  refine ⟨fun d d' => LanguageDocument.key_eq_iff, half_half, ?answered, ?first, ?same, ?failed, ?others⟩
  case answered =>
    intro n hcount
    have hleft := left_after docs start turns n
    have hready : (start.stage n).left = 2 := rfl
    cases hstage : (start.after docs turns).stage n with
    | done answer => exact ⟨answer, rfl⟩
    | ready | missed =>
      rw [hstage, Stage.left] at hleft
      omega
  case first =>
    intro n l hn
    rcases of_lookup?_after (hsettled.entry n l hn) with hstart | ⟨before, first, rest, hturns, hfree, hcompiled, hleft⟩
    · cases hstart
    · obtain ⟨hkey, hl⟩ := of_compiledUnder hcompiled
      obtain ⟨hid, hversion⟩ := LanguageDocument.key_eq_iff.mp hkey
      refine ⟨(Language.key_of_compile hl).trans hkey, before, first, rest, hturns, hid, hversion, hl, hfree, ?_⟩
      intro more
      rw [List.append_cons, after_append]
      exact lookup?_after hleft more
  case same =>
    intro m n k l hid hversion hm hn
    have hk := hsettled.entry m k hm
    rw [LanguageDocument.key_eq_iff.mpr ⟨hid, hversion⟩, hsettled.entry n l hn] at hk
    exact (Option.some.inj hk).symm
  case failed =>
    refine fun n fault hn => ⟨hsettled.fault n fault hn, ?_⟩
    rintro before rest rfl
    rw [after_append] at hn ⊢
    exact cache_turn_of_failed hn
  case others => exact fun key => (Alike.refl docs key start).after turns

/-- Two documents for one id and version, and one that cannot be compiled. -/
def rivals : Nat → LanguageDocument
  | 0 => ⟨"er", "Entities", 1, [], []⟩
  | 1 => ⟨"er", "Relations", 1, [], []⟩
  | _ => ⟨"er", "", 1, [("entity", { TypeDocument.empty with visualTemplate := some .null })], []⟩

/-- All three miss. Then the third fails, the second inserts, and the first comes too late. -/
def race : List Nat := [0, 1, 2, 2, 1, 0]

theorem rivals_agree : ∃ k l fault,
    (start.after rivals race).stage 0 = .done (.ok k) ∧ (start.after rivals race).stage 1 = .done (.ok l) ∧
    (start.after rivals race).stage 2 = .done (.error fault) ∧ Language.compile (rivals 1) = .ok l ∧
    k = l ∧ k.key = (rivals 0).key ∧
    (start.after rivals [0, 1, 2, 2]).cache = (start.after rivals [0, 1, 2]).cache := by
  obtain ⟨k, hk⟩ : ∃ k, (start.after rivals race).stage 0 = .done (.ok k) :=
    ⟨_, by with_unfolding_all rfl⟩
  obtain ⟨l, hl, hcompile⟩ : ∃ l, (start.after rivals race).stage 1 = .done (.ok l) ∧
      Language.compile (rivals 1) = .ok l :=
    ⟨⟨rivals 1, [], []⟩, by with_unfolding_all rfl, rfl⟩
  obtain ⟨fault, hfault⟩ : ∃ fault, (start.after rivals race).stage 2 = .done (.error fault) :=
    ⟨_, by with_unfolding_all rfl⟩
  obtain ⟨_, _, _, hfirst, hsame, hfailed, _⟩ := overlapping_calls_agree rivals race
  exact ⟨k, l, fault, hk, hl, hfault, hcompile, hsame 0 1 k l rfl rfl hk hl, (hfirst 0 k hk).1,
    (hfailed 2 fault hfault).2 [0, 1, 2] [1, 0] rfl⟩

end Progress

end LanguageCache

end DiagramEditor
