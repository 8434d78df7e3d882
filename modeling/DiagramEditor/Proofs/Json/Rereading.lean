import DiagramEditor.Json.Tree
import DiagramEditor.Proofs.Json.Lexing
import DiagramEditor.Proofs.Json.Sorted

/-!
# Reading a written document

The text of a value is read as the tree of that value, in which the containers that stand
too deep are marked. A value whose keys ascend is got back from its tree if none is marked,
and nothing is got from a tree in which one is.
-/

set_option autoImplicit false

namespace DiagramEditor.Json

namespace Value

/-- What stands in an array or an object is less deep. -/
theorem depth_lt_of_mem_items {vs : List Value} {v : Value} (hv : v ∈ vs) : v.depth < (Value.array vs).depth := by
  induction vs with
  | nil => cases hv
  | cons first rest ih =>
    rw [depth, depthItems]
    rcases List.mem_cons.mp hv with rfl | hv
    · exact Nat.lt_succ_of_le (Nat.le_max_left _ _)
    · exact Nat.lt_of_lt_of_le (ih hv) (Nat.succ_le_succ (Nat.le_max_right _ _))

theorem depth_lt_of_mem {ms : Members} {m : String × Value} (hm : m ∈ ms) : m.2.depth < (Value.object ms).depth := by
  induction ms with
  | nil => cases hm
  | cons first rest ih =>
    rw [depth, depthMembers]
    rcases List.mem_cons.mp hm with rfl | hm
    · exact Nat.lt_succ_of_le (Nat.le_max_left _ _)
    · exact Nat.lt_of_lt_of_le (ih hm) (Nat.succ_le_succ (Nat.le_max_right _ _))

end Value

namespace Tree

open Value (itemTokens memberTokens depthItems depthMembers)

theorem exists_tokens (v : Value) : ∃ t ts, v.tokens = t :: ts ∧ t ≠ .closeArray := by
  cases v <;> exact ⟨_, _, rfl, by simp⟩

theorem read_openArray {fuel : Nat} {t : Token} {ts : List Token} (ht : t ≠ .closeArray) :
    read (fuel + 1) (.openArray :: t :: ts) = (.array (readItems fuel (t :: ts)).1, (readItems fuel (t :: ts)).2) := by
  rw [read.eq_def]
  split <;> simp_all

mutual

/-- Two steps are enough for a token. -/
theorem read_tokens (v : Value) (rest : List Token) {fuel : Nat} (h : 2 * v.tokens.length ≤ fuel) :
    read fuel (v.tokens ++ rest) = (ofValue v, some rest) := by
  match fuel, v with
  | 0, v =>
    obtain ⟨t, ts, hts, _⟩ := exists_tokens v
    simp [hts] at h
  | fuel + 1, .null => rfl
  | fuel + 1, .bool b => rfl
  | fuel + 1, .number n => rfl
  | fuel + 1, .string s => rfl
  | fuel + 1, .array [] => rfl
  | fuel + 1, .array (v :: vs) =>
    have hfuel : 2 * (itemTokens (v :: vs)).length ≤ fuel := by
      simp only [Value.tokens, List.length_cons] at h
      omega
    have hitems := readItems_tokens v vs rest hfuel
    obtain ⟨t, ts, hts, hopen⟩ : ∃ t ts, itemTokens (v :: vs) = t :: ts ∧ t ≠ .closeArray := by
      obtain ⟨t, ts, hts, hopen⟩ := exists_tokens v
      cases vs with
      | nil => exact ⟨t, _, by rw [itemTokens, hts, List.cons_append], hopen⟩
      | cons w ws => exact ⟨t, _, by rw [itemTokens, hts, List.cons_append]; simp, hopen⟩
    rw [hts, List.cons_append] at hitems
    rw [Value.tokens, List.cons_append, hts, List.cons_append, read_openArray hopen, hitems]
    rfl
  | fuel + 1, .object [] => rfl
  | fuel + 1, .object (m :: ms) =>
    have hfuel : 2 * (memberTokens (m :: ms)).length ≤ fuel := by
      simp only [Value.tokens, List.length_cons] at h
      omega
    have hmembers := readMembers_tokens m.1 m.2 ms rest hfuel
    obtain ⟨ts, hts⟩ : ∃ ts, memberTokens (m :: ms) = .string (some m.1) :: ts := by
      cases ms <;> exact ⟨_, rfl⟩
    rw [hts, List.cons_append] at hmembers
    rw [Value.tokens, List.cons_append, hts, List.cons_append, read, hmembers]
    · rfl
    · simp

theorem readItems_tokens (v : Value) (vs : List Value) (rest : List Token) {fuel : Nat}
    (h : 2 * (itemTokens (v :: vs)).length ≤ fuel) :
    readItems fuel (itemTokens (v :: vs) ++ rest) = (ofValues (v :: vs), some rest) := by
  match fuel, vs with
  | 0, vs => cases vs <;> simp [itemTokens] at h
  | fuel + 1, [] =>
    have hlength : 2 * v.tokens.length ≤ fuel := by
      simp only [itemTokens, List.length_append, List.length_singleton] at h
      omega
    have hv := read_tokens v (.closeArray :: rest) hlength
    rw [itemTokens, List.append_assoc, List.singleton_append, readItems, hv]
    rfl
  | fuel + 1, w :: ws =>
    have hlength : 2 * v.tokens.length ≤ fuel ∧ 2 * (itemTokens (w :: ws)).length ≤ fuel := by
      simp only [itemTokens, List.length_append, List.length_cons] at h
      omega
    have hv := read_tokens v (.comma :: (itemTokens (w :: ws) ++ rest)) hlength.1
    have hrest := readItems_tokens w ws rest hlength.2
    simp only [itemTokens, List.cons_append, List.append_assoc, readItems, hv, hrest]
    rfl

theorem readMembers_tokens (key : String) (v : Value) (ms : Members) (rest : List Token) {fuel : Nat}
    (h : 2 * (memberTokens ((key, v) :: ms)).length ≤ fuel) :
    readMembers fuel (memberTokens ((key, v) :: ms) ++ rest) = (ofMembers ((key, v) :: ms), some rest) := by
  match fuel, ms with
  | 0, ms => cases ms <;> simp [memberTokens] at h
  | fuel + 1, [] =>
    have hlength : 2 * v.tokens.length ≤ fuel := by
      simp only [memberTokens, List.length_append, List.length_cons] at h
      omega
    have hv := read_tokens v (.closeObject :: rest) hlength
    simp only [memberTokens, List.cons_append, List.append_assoc, List.nil_append, readMembers, hv]
    rfl
  | fuel + 1, m :: ms =>
    have hlength : 2 * v.tokens.length ≤ fuel ∧ 2 * (memberTokens (m :: ms)).length ≤ fuel := by
      simp only [memberTokens, List.length_append, List.length_cons] at h
      omega
    have hv := read_tokens v (.comma :: (memberTokens (m :: ms) ++ rest)) hlength.1
    have hrest := readMembers_tokens m.1 m.2 ms rest hlength.2
    simp only [memberTokens, List.cons_append, List.append_assoc, readMembers, hv, hrest]
    rfl

end

/-- A text of these tokens is the tree of the value, with what stands too deep marked. -/
theorem ofText_of_lex {v : Value} {cs : List Char} (h : Token.lex cs = v.tokens) :
    ofText (String.ofList cs) = ⟨(ofValue v).limit maxDepth, true⟩ := by
  have hread := read_tokens v [] (Nat.le_add_right (2 * v.tokens.length) 2)
  rw [List.append_nil] at hread
  rw [ofText, String.toList_ofList, h, ofTokens, hread]

theorem ofText_compact {v : Value} (hv : v.Legible) : ofText v.compact = ⟨(ofValue v).limit maxDepth, true⟩ :=
  ofText_of_lex (Value.lex_compactChars hv)

theorem ofText_pretty {v : Value} (hv : v.Legible) : ofText v.pretty = ⟨(ofValue v).limit maxDepth, true⟩ :=
  ofText_of_lex (Value.lex_prettyChars hv)

/-! ### Depth -/

theorem limit_string (room : Nat) (s : String) : limit room (ofValue (.string s)) = .string s := by
  simp [ofValue, limit]

theorem limit_array (room : Nat) (vs : List Value) :
    limit (room + 1) (ofValue (.array vs)) = .array (vs.map fun v => limit room (ofValue v)) := by
  rw [ofValue, limit]
  congr 1
  induction vs with
  | nil => simp [ofValues, limitItems]
  | cons v vs ih => rw [ofValues, limitItems, ih, List.map_cons]

theorem limit_object (room : Nat) (ms : Members) :
    limit (room + 1) (ofValue (.object ms)) = .object (ms.map fun m => (some m.1, limit room (ofValue m.2))) := by
  rw [ofValue, limit]
  congr 1
  induction ms with
  | nil => simp [ofMembers, limitMembers]
  | cons m ms ih => rw [ofMembers, limitMembers, ih, List.map_cons]

mutual

theorem limit_ofValue (v : Value) {room : Nat} (h : v.depth ≤ room) : limit room (ofValue v) = ofValue v := by
  match v, room with
  | .null, _ | .bool _, _ | .number _, _ | .string _, _ => simp [ofValue, limit]
  | .array vs, 0 | .object ms, 0 => simp [Value.depth] at h
  | .array vs, room + 1 =>
    rw [ofValue, limit, limitItems_ofValues vs (by simpa [Value.depth] using h)]
  | .object ms, room + 1 =>
    rw [ofValue, limit, limitMembers_ofMembers ms (by simpa [Value.depth] using h)]

theorem limitItems_ofValues (vs : List Value) {room : Nat} (h : depthItems vs ≤ room) :
    limitItems room (ofValues vs) = ofValues vs := by
  match vs with
  | [] => simp [ofValues, limitItems]
  | v :: rest =>
    rw [depthItems, Nat.max_le] at h
    rw [ofValues, limitItems, limit_ofValue v h.1, limitItems_ofValues rest h.2]

theorem limitMembers_ofMembers (ms : Members) {room : Nat} (h : depthMembers ms ≤ room) :
    limitMembers room (ofMembers ms) = ofMembers ms := by
  match ms with
  | [] => simp [ofMembers, limitMembers]
  | (k, v) :: rest =>
    rw [depthMembers, Nat.max_le] at h
    rw [ofMembers, limitMembers, limit_ofValue v h.1, limitMembers_ofMembers rest h.2]

end

mutual

theorem toValue?_limit (v : Value) {room : Nat} (h : room < v.depth) : (limit room (ofValue v)).toValue? = none := by
  match v, room with
  | .null, _ | .bool _, _ | .number _, _ | .string _, _ => simp [Value.depth] at h
  | .array vs, 0 | .object ms, 0 => simp [ofValue, limit, toValue?]
  | .array vs, room + 1 =>
    rw [ofValue, limit, toValue?, toValues?_limitItems vs (by simpa [Value.depth] using h), Option.map_none]
  | .object ms, room + 1 =>
    rw [ofValue, limit, toValue?, toMembers?_limitMembers ms (by simpa [Value.depth] using h), Option.map_none]

theorem toValues?_limitItems (vs : List Value) {room : Nat} (h : room < depthItems vs) :
    toValues? (limitItems room (ofValues vs)) = none := by
  match vs with
  | [] => simp [depthItems] at h
  | v :: rest =>
    rw [depthItems, lt_max_iff] at h
    rw [ofValues, limitItems, toValues?]
    rcases h with h | h
    · rw [toValue?_limit v h]
    · rw [toValues?_limitItems rest h]
      cases (limit room (ofValue v)).toValue? <;> rfl

theorem toMembers?_limitMembers (ms : Members) {room : Nat} (h : room < depthMembers ms) :
    toMembers? (limitMembers room (ofMembers ms)) = none := by
  match ms with
  | [] => simp [depthMembers] at h
  | (k, v) :: rest =>
    rw [depthMembers, lt_max_iff] at h
    rw [ofMembers, limitMembers]
    rcases h with h | h
    · simp only [toMembers?, toValue?_limit v h]
    · cases hv : (limit room (ofValue v)).toValue? <;> simp only [toMembers?, hv, toMembers?_limitMembers rest h]

end

/-! ### Values from trees -/

mutual

/-- What is got from the tree of a value is that value, sorted. -/
theorem toValue?_ofValue_sorted (v : Value) : (ofValue v).toValue? = some v.sorted := by
  match v with
  | .null | .bool _ | .number _ | .string _ => rfl
  | .array vs => rw [ofValue, toValue?, toValues?_ofValues vs, Option.map_some, Value.sorted]
  | .object ms => rw [ofValue, toValue?, toMembers?_ofMembers ms, Option.map_some, Value.sorted]

theorem toValues?_ofValues (vs : List Value) : toValues? (ofValues vs) = some (Value.sortedItems vs) := by
  match vs with
  | [] => rfl
  | v :: rest => rw [ofValues, toValues?, toValue?_ofValue_sorted v, toValues?_ofValues rest, Value.sortedItems]

theorem toMembers?_ofMembers (ms : Members) : toMembers? (ofMembers ms) = some (Value.sortedMembers ms) := by
  match ms with
  | [] => rfl
  | (k, v) :: rest =>
    simp only [ofMembers, toMembers?, toValue?_ofValue_sorted v, toMembers?_ofMembers rest, Value.sortedMembers]

end

theorem toValue?_ofValue (v : Value) (hv : v.Ordered) : (ofValue v).toValue? = some v := by
  rw [toValue?_ofValue_sorted, hv.sorted_eq]

end Tree

end DiagramEditor.Json
