import DiagramEditor.Proofs.Operation.Removal
import DiagramEditor.Proofs.Runs

/-!
# Deletion by a set of ids

While a list is worked off, an edge may go before its turn comes, with a node or because it
was listed twice. What is left does not tell: it is the same for every list of the same ids,
and so are the ids told, but for their order.
-/

set_option autoImplicit false

namespace DiagramEditor

namespace Model

variable {m : Model} {ids same removed removed' : List ElementId}

theorem without_congr (hsame : ∀ id, id ∈ ids ↔ id ∈ same) : m.without ids = m.without same := by
  simp only [without, hsame]

theorem Loses.perm (h : m.Loses ids removed) (h' : m.Loses same removed') (hsame : ∀ id, id ∈ ids ↔ id ∈ same) :
    removed.Perm removed' := by
  refine (List.perm_ext_iff_of_nodup h.nodup h'.nodup).mpr fun id => ?_
  rw [h.lost, h'.lost, without_congr hsame]

end Model

namespace Operation

open Edit Diagram

variable {w : Workspace} {ids same : List ElementId}

/-- The diagram that is left, index and all, is told by the set of ids. -/
theorem Deletes.eq_of_same {removed removed' : List ElementId} {d d' : Diagram} (h : Deletes w ids removed d)
    (h' : Deletes w same removed' d') (hsame : ∀ id, id ∈ ids ↔ id ∈ same) : d = d' := by
  have hmodel : d.model = d'.model := by rw [h.model, h'.model, Model.without_congr hsame]
  have hindex : d.index = d'.index := by
    rw [h.index, h'.index, Index.without_congr fun id => (h.loses.perm h'.loses hsame).mem_iff]
  obtain ⟨m, x⟩ := d
  obtain rfl : m = d'.model := hmodel
  obtain rfl : x = d'.index := hindex
  rfl

/-- The first listed element that is not there is told, and nothing is done. -/
theorem on_runDelete_absent (h : w.diagram.InStep) (habsent : ∃ id ∈ ids, id ∉ w.diagram.model.ids) :
    ∃ id ∈ ids, id ∉ w.diagram.model.ids ∧ (runDelete ids).on w = (.error (.notFound id), w) := by
  cases hfind : ids.find? (fun id => !(w.diagram.element? id).isSome) with
  | none =>
    obtain ⟨id, hid, hm⟩ := habsent
    have hfound : (w.diagram.element? id).isSome = true := by
      simpa only [Bool.not_eq_true', Bool.not_eq_false] using List.find?_eq_none.mp hfind id hid
    exact absurd (h.isSome_element?_iff.mp hfound) hm
  | some id =>
    have hm : id ∉ w.diagram.model.ids := by
      rw [← h.isSome_element?_iff]
      simpa using List.find?_some hfind
    refine ⟨id, List.mem_of_find?_eq_some hfind, hm, ?_⟩
    rw [runDelete, on_bind_ok (on_diagram w), on_bind_error]
    rw [on_require, hfind]

/-- What a deletion does to model and index, and whether it is refused, does not depend on the
order of the list, nor on what it lists twice. -/
theorem delete_by_set {d : Diagram} (h : d.Reachable) (hsame : ∀ id, id ∈ ids ↔ id ∈ same) (c : EditContext)
    (s : IdSupply) :
    ((∃ id ∈ ids, id ∉ d.model.ids) → ∃ a b, (a ∈ ids ∧ a ∉ d.model.ids) ∧ (b ∈ same ∧ b ∉ d.model.ids) ∧
      (deleteElements ids).apply c ⟨d, s⟩ = (.error (.notFound a), ⟨d, s⟩) ∧
      (deleteElements same).apply c ⟨d, s⟩ = (.error (.notFound b), ⟨d, s⟩)) ∧
    ((∀ id ∈ ids, id ∈ d.model.ids) → ∃ left removed removed',
      (deleteElements ids).apply c ⟨d, s⟩ = (.ok { Outcome.nothing with removed := removed }, ⟨left, s⟩) ∧
      (deleteElements same).apply c ⟨d, s⟩ = (.ok { Outcome.nothing with removed := removed' }, ⟨left, s⟩) ∧
      left.model =
        { d.model with
          nodes := d.model.nodes.filter (·.id ∉ ids)
          edges := d.model.edges.filter fun e => e.id ∉ ids ∧ e.source ∉ ids ∧ e.target ∉ ids } ∧
      removed.Nodup ∧ removed.Perm removed') := by
  have hd := InStep.of_reachable h
  constructor
  · intro habsent
    have habsent' : ∃ id ∈ same, id ∉ d.model.ids := by simpa only [hsame] using habsent
    obtain ⟨a, ha, hma, hdelete⟩ := on_runDelete_absent (w := ⟨d, s⟩) hd habsent
    obtain ⟨b, hb, hmb, hdelete'⟩ := on_runDelete_absent (w := ⟨d, s⟩) hd habsent'
    exact ⟨a, b, ⟨ha, hma⟩, ⟨hb, hmb⟩, hdelete, hdelete'⟩
  · intro hids
    have hids' : ∀ id ∈ same, id ∈ d.model.ids := fun id hid => hids id ((hsame id).mpr hid)
    obtain ⟨left, removed, hdelete, hleft⟩ := on_runDelete (w := ⟨d, s⟩) hd hids
    obtain ⟨left', removed', hdelete', hleft'⟩ := on_runDelete (w := ⟨d, s⟩) hd hids'
    obtain rfl := hleft.eq_of_same hleft' hsame
    exact ⟨left, removed, removed', hdelete, hdelete', hleft.model, hleft.loses.nodup,
      hleft.loses.perm hleft'.loses hsame⟩

/-- The edge is listed before and after the node it leaves, or after it alone. -/
theorem sample_delete_by_set :
    sample.Reachable ∧ (∀ id, id ∈ ["ab", "a", "ab"] ↔ id ∈ ["a", "ab"]) ∧
      (∀ id ∈ ["ab", "a", "ab"], id ∈ sample.model.ids) ∧
      ∃ left removed removed',
        (deleteElements ["ab", "a", "ab"]).apply plain ⟨sample, .start⟩ =
          (.ok { Outcome.nothing with removed := removed }, ⟨left, .start⟩) ∧
        (deleteElements ["a", "ab"]).apply plain ⟨sample, .start⟩ =
          (.ok { Outcome.nothing with removed := removed' }, ⟨left, .start⟩) ∧
        removed.Perm removed' := by
  have h : sample.Reachable := ⟨sample, [], start_sample, rfl⟩
  have hsame : ∀ id, id ∈ ["ab", "a", "ab"] ↔ id ∈ ["a", "ab"] := by
    intro id
    simp only [List.mem_cons, List.not_mem_nil, or_false]
    tauto
  have hids : ∀ id ∈ ["ab", "a", "ab"], id ∈ sample.model.ids := by decide
  obtain ⟨left, removed, removed', hdelete, hdelete', _, _, hperm⟩ := (delete_by_set h hsame plain .start).2 hids
  exact ⟨h, hsame, hids, left, removed, removed', hdelete, hdelete', hperm⟩

end Operation

end DiagramEditor
