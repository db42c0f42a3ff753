import PixelFont.Proofs.FontView

/-!
Compiled fonts decode to themselves. Main statement: `decode_compile`. It holds whatever the offset
table held before, because the slots that reading asks for are those that writing has just recorded.
-/

set_option autoImplicit false

namespace PixelFont

open FieldValue

namespace Font

/-- A font decodes from its payload by any table with the slots that this takes. A font without
glyphs takes those of the header only. -/
theorem decode_payload {f : Font} (h : f.Fits) {t : OffsetTable} (ht : ∀ n ∈ f.notes, t.Has n) :
    ∃ v, FontView.ofBytes f.payload t = .ok v ∧ v.decode f.name f.copyright = .ok f := by
  have hh : ∀ n ∈ FontHeader.notes, t.Has n := fun n hn => ht n (mem_notes_of_header hn)
  -- without glyphs the data ends with the header, and no slot of a record is asked for
  by_cases hg : f.glyphs = []
  · have hl : f.payload.length = FontHeader.length := by
      rw [length_payload, hg]
      rfl
    have hle : FontHeader.length ≤ f.payload.length := Nat.le_of_eq hl.symm
    refine ⟨_, (FontView.ofBytes_eq_ok_iff hh).mpr ⟨hle, rfl⟩,
      FontView.decode_eq_ok_iff.mpr ⟨⟨rfl, rfl⟩, ?_, ?_⟩⟩
    · exact (FontView.header_eq_ok_iff hh).mpr ⟨h.header, f.take_payload⟩
    · rw [FontView.glyphs_eq hle, List.drop_of_length_le (Nat.le_of_eq hl), GlyphWalk.items_nil, hg]
      rfl
  · refine (FontView.read_eq_ok_iff fun n hn => ?_).mpr h.recorded
    rcases List.mem_append.mp hn with hn | hn
    · exact hh n hn
    · exact ht n (mem_notes_of_glyph hg hn)

theorem decode_compile {f : Font} {t : OffsetTable} {bytes : List UInt8}
    (h : (f.compile t).result = .ok bytes) :
    ∃ v, FontView.ofBytes bytes (f.compile t).table = .ok v ∧
      v.decode f.name f.copyright = .ok f := by
  obtain ⟨hf, rfl⟩ := fits_of_compile h
  have ht : (f.compile t).table = t.recordAll f.notes := by rw [compile_of_fits hf]
  rw [ht]
  exact decode_payload hf fun n hn => OffsetTable.recordAll_has notes_has t hn

/-- Slots that stand elsewhere in the table beforehand do no harm, here those of the size and of the
length of a record. -/
theorem decode_compile_misplaced :
    let f : Font := { name := "a", header := { size := 3 }, copyright := "b",
                      glyphs := [{ box := ⟨3, 1, -1, 0⟩, rows := [[true, false, true]] }] }
    let t := OffsetTable.ofEntries
      [(GlyphField.bytes, ⟨7, some .i8⟩), (FontField.size, ⟨4, none⟩), ("X", ⟨0, none⟩)]
    let bytes : List UInt8 := [3, 0, 0, 0, 0, 0, 0, 0, 0, 0, 0, 0, 11, 0, 0, 3, 1, 255, 0, 160]
    (f.compile t).result = .ok bytes ∧
      ∃ v, FontView.ofBytes bytes (f.compile t).table = .ok v ∧ v.decode "a" "b" = .ok f := by
  intro f t bytes
  have h : (f.compile t).result = .ok bytes := by decide +kernel
  exact ⟨h, decode_compile h⟩

end Font
end PixelFont
