import PixelFont.GeneratedCode
import PixelFont.Proofs.JsonForm
import PixelFont.Proofs.JsonValue.Printed

set_option autoImplicit false

namespace PixelFont

open JsonValue

attribute [simp] Plain.null Plain.bool Plain.integer Plain.text

namespace JsonValue

@[simp] theorem plain_list_iff {items : List JsonValue} :
    Plain (.list items) ↔ ∀ v ∈ items, v.Plain :=
  ⟨fun h => by cases h with | list h => exact h, .list⟩

@[simp] theorem plain_object_iff {members : List (String × JsonValue)} :
    Plain (.object members) ↔ ∀ m ∈ members, m.2.Plain :=
  ⟨fun h => by cases h with | object h => exact h, .object⟩

end JsonValue

@[simp] theorem IntFormat.plain_toJson (f : IntFormat) : f.toJson.Plain := by simp [toJson]

@[simp] theorem CharCode.plain_toJson (c : CharCode) : c.toJson.Plain := by simp [toJson]

@[simp] theorem Box.plain_toJson (b : Box) : b.toJson.Plain := by simp [toJson]

@[simp] theorem Advance.plain_toJson (a : Advance) : a.toJson.Plain := by simp [toJson]

@[simp] theorem Slot.plain_toJson (s : Slot) : s.toJson.Plain := by
  cases h : s.format <;> simp [toJson, h]

@[simp] theorem OffsetTable.plain_toJson (t : OffsetTable) : t.toJson.Plain := by
  rw [toJson, plain_object_iff, List.forall_mem_map]
  exact fun e _ => e.2.plain_toJson

@[simp] theorem FontHeader.plain_toJson (h : FontHeader) : h.toJson.Plain := by simp [toJson]

@[simp] theorem Bitmap.plain_toJson (rows : Bitmap) : (toJson rows).Plain := by
  rw [toJson, plain_list_iff, List.forall_mem_map]
  exact fun row _ => .list (List.forall_mem_map.mpr fun pixel _ => .bool pixel)

@[simp] theorem Glyph.plain_toJson (g : Glyph) : g.toJson.Plain := by simp [toJson]

@[simp] theorem Font.plain_toJson (f : Font) : f.toJson.Plain := by simp [toJson]

theorem read_compactText {α : Type} {read : JsonValue → Option α} {v : JsonValue} {a : α}
    (hv : v.Plain) (h : read v = some a) : (ofText? v.compactText).bind read = some a := by
  rw [ofText?_compactText hv]
  exact h

/-- Tables with the same entries in the same order, fonts whether or not they can be compiled, and
all that they are made of are read back from their texts. -/
theorem read_printed :
    (∀ t : OffsetTable, (∀ e ∈ t.entries, e.2.offset < 2 ^ 64) →
      (ofText? t.toJson.compactText).bind OffsetTable.ofJson? = some t ∧
        (ofText? (GeneratedCode.layoutText t)).bind OffsetTable.ofJson? = some t) ∧
    (∀ s : Slot, s.offset < 2 ^ 64 → (ofText? s.toJson.compactText).bind Slot.ofJson? = some s) ∧
    (∀ f : IntFormat, (ofText? f.toJson.compactText).bind IntFormat.ofJson? = some f) ∧
    (∀ f : Font, (ofText? f.toJson.compactText).bind Font.ofJson? = some f) ∧
    (∀ h : FontHeader, (ofText? h.toJson.compactText).bind FontHeader.ofJson? = some h) ∧
    (∀ g : Glyph, (ofText? g.toJson.compactText).bind Glyph.ofJson? = some g) ∧
    (∀ c : CharCode, (ofText? c.toJson.compactText).bind CharCode.ofJson? = some c) ∧
    (∀ b : Box, (ofText? b.toJson.compactText).bind Box.ofJson? = some b) ∧
    ∀ a : Advance, (ofText? a.toJson.compactText).bind Advance.ofJson? = some a := by
  refine ⟨fun t h => ?_, fun s h => ?_, fun f => ?_, fun f => ?_, fun h => ?_, fun g => ?_,
    fun c => ?_, fun b => ?_, fun a => ?_⟩
  · have ht := OffsetTable.ofJson?_toJson h
    refine ⟨read_compactText t.plain_toJson ht, ?_⟩
    rw [GeneratedCode.layoutText, ofText?_prettyText t.plain_toJson]
    exact ht
  · exact read_compactText s.plain_toJson (Slot.ofJson?_toJson h)
  · exact read_compactText f.plain_toJson f.ofJson?_toJson
  · exact read_compactText f.plain_toJson f.ofJson?_toJson
  · exact read_compactText h.plain_toJson h.ofJson?_toJson
  · exact read_compactText g.plain_toJson g.ofJson?_toJson
  · exact read_compactText c.plain_toJson c.ofJson?_toJson
  · exact read_compactText b.plain_toJson b.ofJson?_toJson
  · exact read_compactText a.plain_toJson a.ofJson?_toJson

theorem read_printed_escapes :
    let s : Slot := ⟨2 ^ 64 - 1, some ⟨255, true⟩⟩
    let t : OffsetTable := .ofEntries [("\"\\\n\x01😀", s), ("", ⟨0, none⟩)]
    (s.offset < 2 ^ 64 ∧ ∀ e ∈ t.entries, e.2.offset < 2 ^ 64) ∧
      (ofText? s.toJson.compactText).bind Slot.ofJson? = some s ∧
      (ofText? t.toJson.compactText).bind OffsetTable.ofJson? = some t ∧
      (ofText? (GeneratedCode.layoutText t)).bind OffsetTable.ofJson? = some t := by
  intro s t
  have hs : s.offset < 2 ^ 64 := by decide
  have ht : ∀ e ∈ t.entries, e.2.offset < 2 ^ 64 := by decide +kernel
  exact ⟨⟨hs, ht⟩, read_printed.2.1 s hs, read_printed.1 t ht⟩

end PixelFont
