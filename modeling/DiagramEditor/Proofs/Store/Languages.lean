import DiagramEditor.Proofs.Store.Agreement
import DiagramEditor.Language.Basic

/-!
# Languages that are stored

A language document may name its fields in the older way, leave out what it has none of or write
`null` for it. Once it was read it is written in one way only: its text is read as the same
document and compiled to the same language.
-/

set_option autoImplicit false

namespace DiagramEditor

open Json

/-- The text of the value is read as that value, its members in their order. -/
def Json.Value.Rereads (v : Value) : Prop := Tree.ofText v.compact = ⟨Tree.ofValue v, true⟩

/-- Numbers that are got back from their texts, and not too many containers inside one another, are
all that takes. -/
theorem Json.Value.Legible.rereads {v : Value} (hv : v.Legible) (hdepth : v.depth ≤ Tree.maxDepth) : v.Rereads := by
  rw [Value.Rereads, Tree.ofText_compact hv, Tree.limit_ofValue v hdepth]

theorem Decoder.Gives.ofText {α : Type} {d : Decoder α} {v : Value} {a : α} (h : d.Gives v a) (hread : v.Rereads) :
    d.ofText v.compact = .ok a := by
  rw [Gives] at h
  rw [Value.Rereads] at hread
  simp only [Decoder.ofText, hread, h, if_true]

namespace LanguageDocument

variable {d : LanguageDocument}

theorem Orderly.ofText_of_rereads (hd : d.Orderly) (hread : d.toValue.Rereads) :
    decode.ofText d.toValue.compact = .ok d := hd.gives.ofText hread

theorem Orderly.language_putLanguage (hd : d.Orderly) (hread : d.toValue.Rereads) (s : TextStore) :
    (s.putLanguage d).language d.id = .ok (some d) := by
  rw [TextStore.putLanguage, TextStore.language, Table.get?_put_self]
  simp only [TextStore.read, hd.ofText_of_rereads hread]
  rfl

/-- A document that was read, whatever it was read of, is read of its own members in their order. If
their text is read as it was written, it is the one the document has from then on, and from a store
the document is compiled as before it was stored, or refused for the same template. -/
theorem stored_as_read {t : Tree} (hd : decode t = .ok d) :
    decode (Tree.ofValue d.toValue) = .ok d ∧
      (d.toValue.Rereads →
        decode.ofText d.toValue.compact = .ok d ∧
          (decode.ofText d.toValue.compact).map (·.toValue.compact) = .ok d.toValue.compact ∧
          ∀ s : TextStore, (s.putLanguage d).language d.id = .ok (some d) ∧
            ((s.putLanguage d).language d.id).map (·.map Language.compile) = .ok (some (Language.compile d))) := by
  have horderly := orderly_of_decode hd
  refine ⟨horderly.gives, fun hread => ?_⟩
  have htext := horderly.ofText_of_rereads hread
  have hstored := horderly.language_putLanguage hread
  refine ⟨htext, ?_, fun s => ⟨hstored s, ?_⟩⟩
  · rw [htext]
    rfl
  · rw [hstored s]
    rfl

/-- The language of the samples as it might have been written: in another order, with the older names
and with `null` for the template it has none of. -/
def olderSample : Value :=
  let name : Value := .object
    [("enum", Value.ofStrings ["a", "b"]), ("label", .string "Name"), ("type", .string "string")]
  let schema : Value := .object
    [("default", .bool true), ("properties", .object [("name", name)]), ("type", .string "object")]
  let type : Value := .object [("aModel", schema), ("constraints", .array [.null]), ("gModel", .null)]
  .object
    [("id", .string "uml"), ("name", .string "UML"), ("nodes", .object [("class", type)]), ("version", Value.ofNat 2)]

theorem olderSample_stored_as_read :
    decode (Tree.ofValue olderSample) = .ok Store.sampleLanguage ∧
      ((TextStore.empty.putLanguage Store.sampleLanguage).language "uml").map (·.map Language.compile) =
        .ok (some (Language.compile Store.sampleLanguage)) := by
  have hd : decode (Tree.ofValue olderSample) = .ok Store.sampleLanguage := rfl
  have hread : Store.sampleLanguage.toValue.Rereads := Store.legible_sampleLanguage.rereads (by decide +kernel)
  exact ⟨hd, (((stored_as_read hd).2 hread).2.2 .empty).2⟩

end LanguageDocument

end DiagramEditor
