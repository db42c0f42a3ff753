import PixelFont.Proofs.Font
import PixelFont.Proofs.GlyphWalk

set_option autoImplicit false

namespace PixelFont

open FieldValue

/-- The bytes are a header and then records, and they stand for this font. -/
structure Font.Recorded (f : Font) (bytes : List UInt8) : Prop where
  fit : f.header.Fits
  spelled : bytes.take FontHeader.length = spell f.header.fields
  records : ∃ records : List (List UInt8), bytes.drop FontHeader.length = records.flatten ∧
    List.Forall₂ Glyph.Recorded f.glyphs records

theorem Font.Recorded.length_le {f : Font} {bytes : List UInt8} (h : f.Recorded bytes) :
    FontHeader.length ≤ bytes.length := by
  have hl := congrArg List.length h.spelled
  rw [List.length_take, FontHeader.length_spelled] at hl
  omega

theorem Glyph.Fits.recorded {g : Glyph} (h : g.Fits) : g.Recorded g.record := by
  have hw : (spell (g.fields g.writtenLength)).length = headLength := by
    rw [length_spell, width_fields]
  have hd : g.record.drop headLength = g.rows.pack := by
    rw [record, ← hw, List.drop_left]
  have hp := le_bytesFor (g.box.width.toNat * g.box.height.toNat)
  refine ⟨?_, ?_, ?_, ?_⟩
  · rw [length_record]
    exact h.fit_fields
  · rw [length_record, record, ← hw, List.take_left]
  · rw [hd, Bitmap.pack, length_packBits, Bitmap.length_flatten h.shape]
    exact hp
  · have hu := Bitmap.unpack_pack h.shape []
    rw [List.append_nil] at hu
    rw [hd, hu]

theorem Font.recorded_records {gs : List Glyph} (h : ∀ g ∈ gs, g.Fits) :
    List.Forall₂ Glyph.Recorded gs (gs.map Glyph.record) := by
  rw [List.forall₂_map_right_iff, List.forall₂_same]
  exact fun g hg => (h g hg).recorded

theorem Font.payload_eq_flatten (f : Font) :
    f.payload = spell f.header.fields ++ (f.glyphs.map Glyph.record).flatten := by
  rw [payload, records, List.flatMap_def]

theorem Font.take_payload (f : Font) :
    f.payload.take FontHeader.length = spell f.header.fields := by
  rw [payload, ← FontHeader.length_spelled f.header, List.take_left]

theorem Font.drop_payload (f : Font) :
    f.payload.drop FontHeader.length = (f.glyphs.map Glyph.record).flatten := by
  rw [payload_eq_flatten, ← FontHeader.length_spelled f.header, List.drop_left]

theorem Font.Fits.recorded {f : Font} (h : f.Fits) : f.Recorded f.payload :=
  ⟨h.header, f.take_payload, f.glyphs.map Glyph.record, f.drop_payload,
    Font.recorded_records h.glyphs⟩

namespace FontView

theorem ofBytes_eq_ok_iff_mark {bytes : List UInt8} {t : OffsetTable} {v : FontView} :
    ofBytes bytes t = .ok v ↔ ∃ first, t.offset? FontField.firstGlyph = some first ∧
      first ≤ bytes.length ∧ v = ⟨⟨0, bytes⟩, t, first⟩ := by
  simp only [ofBytes, bind_eq_ok_iff, OffsetTable.markAt_eq_ok_iff]
  constructor
  · intro ⟨first, hfirst, h⟩
    by_cases hlt : bytes.length < first
    · simp [hlt] at h
    · simp only [hlt, if_false, Except.ok.injEq] at h
      exact ⟨first, hfirst, Nat.le_of_not_lt hlt, h.symm⟩
  · intro ⟨first, hfirst, hle, h⟩
    exact ⟨first, hfirst, by simp [Nat.not_lt.mpr hle, h]⟩

theorem markAt_firstGlyph {t : OffsetTable} (ht : ∀ n ∈ FontHeader.notes, t.Has n) :
    t.markAt FontField.firstGlyph = .ok FontHeader.length :=
  OffsetTable.markAt_of_has (ht ⟨FontField.firstGlyph, FontHeader.length, none⟩ (by decide))

theorem ofBytes_eq_ok_iff {t : OffsetTable} (ht : ∀ n ∈ FontHeader.notes, t.Has n)
    {bytes : List UInt8} {v : FontView} :
    ofBytes bytes t = .ok v ↔
      FontHeader.length ≤ bytes.length ∧ v = ⟨⟨0, bytes⟩, t, FontHeader.length⟩ := by
  simp [ofBytes_eq_ok_iff_mark, OffsetTable.markAt_eq_ok_iff.mp (markAt_firstGlyph ht)]

theorem header_eq_ok_iff {t : OffsetTable} (ht : ∀ n ∈ FontHeader.notes, t.Has n)
    {bytes : List UInt8} {k : Nat} {h : FontHeader} :
    header ⟨⟨0, bytes⟩, t, k⟩ = .ok h ↔
      h.Fits ∧ bytes.take FontHeader.length = spell h.fields := by
  have hf := View.forall_field_iff 0 h.fields
    (fun n hn => ht n (by
      rw [FontHeader.noted_fields] at hn
      exact List.mem_append_left _ hn)) ⟨0, bytes⟩
  rw [FontHeader.fit_fields, FontHeader.width_fields, List.drop_zero] at hf
  rw [← hf]
  simp only [FontHeader.fields, List.forall_mem_cons, header, size, characters, box, ascent,
    descent, bind_eq_ok_iff, View.box_eq_ok_iff, View.unsigned_eq_ok_iff, View.signed_eq_ok_iff]
  constructor
  · rintro ⟨s, hs, c, hc, b, ⟨hw, hh, hx, hy⟩, a, ha, d, hd, he⟩
    obtain rfl := Except.ok.inj he
    exact ⟨hs, hc, hw, hh, hx, hy, ha, hd, List.forall_mem_nil _⟩
  · rintro ⟨hs, hc, hw, hh, hx, hy, ha, hd, -⟩
    exact ⟨_, hs, _, hc, h.box, ⟨hw, hh, hx, hy⟩, _, ha, _, hd, rfl⟩

theorem decode_eq_ok_iff {v : FontView} {name copyright : String} {f : Font} :
    v.decode name copyright = .ok f ↔ (f.name = name ∧ f.copyright = copyright) ∧
      v.header = .ok f.header ∧
      (v.glyphs.mapM fun item => item.bind GlyphView.decode) = .ok f.glyphs := by
  simp only [decode, bind_eq_ok_iff]
  constructor
  · rintro ⟨h, hh, gs, hg, he⟩
    obtain rfl := Except.ok.inj he
    exact ⟨⟨rfl, rfl⟩, hh, hg⟩
  · rintro ⟨⟨rfl, rfl⟩, hh, hg⟩
    exact ⟨_, hh, _, hg, rfl⟩

theorem glyphs_eq {bytes : List UInt8} (h : FontHeader.length ≤ bytes.length) (t : OffsetTable) :
    glyphs ⟨⟨0, bytes⟩, t, FontHeader.length⟩ =
      GlyphWalk.items ⟨⟨FontHeader.length, bytes.drop FontHeader.length⟩, t, false⟩ := by
  rw [glyphs, walk, View.after?_eq, if_pos (by exact h), Nat.zero_add]
  rfl

theorem read_eq_ok_iff {t : OffsetTable} (ht : ∀ n ∈ FontHeader.notes ++ Glyph.notes, t.Has n)
    {bytes : List UInt8} {f : Font} :
    (∃ v, ofBytes bytes t = .ok v ∧ v.decode f.name f.copyright = .ok f) ↔ f.Recorded bytes := by
  have hh : ∀ n ∈ FontHeader.notes, t.Has n := fun n hn => ht n (List.mem_append_left _ hn)
  have hg : ∀ n ∈ Glyph.notes, t.Has n := fun n hn => ht n (List.mem_append_right _ hn)
  constructor
  · rintro ⟨v, hv, hd⟩
    obtain ⟨hl, rfl⟩ := (ofBytes_eq_ok_iff hh).mp hv
    obtain ⟨-, hheader, hglyphs⟩ := decode_eq_ok_iff.mp hd
    rw [glyphs_eq hl, GlyphWalk.decode_items_iff hg] at hglyphs
    obtain ⟨hfits, hs⟩ := (header_eq_ok_iff hh).mp hheader
    exact ⟨hfits, hs, hglyphs⟩
  · intro h
    refine ⟨_, (ofBytes_eq_ok_iff hh).mpr ⟨h.length_le, rfl⟩,
      decode_eq_ok_iff.mpr ⟨⟨rfl, rfl⟩, ?_, ?_⟩⟩
    · exact (header_eq_ok_iff hh).mpr ⟨h.fit, h.spelled⟩
    · rw [glyphs_eq h.length_le, GlyphWalk.decode_items_iff hg]
      exact h.records

end FontView
end PixelFont
