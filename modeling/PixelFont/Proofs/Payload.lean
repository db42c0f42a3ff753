import Mathlib.Algebra.Ring.Nat
import PixelFont.Proofs.FontView

set_option autoImplicit false

namespace PixelFont

open FieldValue

theorem IntFormat.ofBigEndian_spell_u16 {n : Nat} (h : u16.Holds n) :
    ofBigEndian (u16.spell n) = n := by
  have hn : n ≤ 65535 := (holds_natCast .u16 rfl rfl n).mp h
  have hbits : valueCount u16.bits = 65536 := rfl
  have hbytes : valueCount (8 * u16.bytes) = 65536 := rfl
  rw [spell, ofBigEndian_bigEndian, hbits, hbytes]
  omega

namespace Glyph

theorem compile_eq_ok_iff {g : Glyph} {t : OffsetTable} {bytes : List UInt8} :
    (g.compile t).result = .ok bytes ↔ g.Fits ∧ bytes = g.record := by
  rw [← passes_check, ← Check.findings_eq_nil_iff, compile, Plan.compileChecked]
  cases hc : g.check.findings with
  | nil =>
    have hfits : g.Fits := (passes_check g).mp ((Check.findings_eq_nil_iff _).mp hc)
    simp [Plan.compile, write_plan hfits.fit_fields, eq_comm]
  | cons finding rest => simp

theorem length_records {gs : List Glyph} (h : ∀ g ∈ gs, g.Fits) :
    (Font.records gs).length = (gs.map recordLength).sum := by
  induction gs with
  | nil => rfl
  | cons g gs ih =>
    rw [List.forall_mem_cons] at h
    have hcons : Font.records (g :: gs) = g.record ++ Font.records gs := List.flatMap_cons
    rw [hcons, List.length_append, h.1.record_length, ih h.2, List.map_cons, List.sum_cons]

theorem ofBigEndian_length {g : Glyph} (h : g.Fits) :
    ofBigEndian ((g.record.drop 2).take 2) = g.recordLength := by
  have hw := h.recorded.whole
  rw [hw.spelled, IntFormat.ofBigEndian_spell_u16 hw.holds, h.record_length]

end Glyph

namespace Font

theorem compile_eq_ok_iff {f : Font} {t : OffsetTable} {bytes : List UInt8} :
    (f.compile t).result = .ok bytes ↔ f.Fits ∧ bytes = f.payload := by
  constructor
  · exact fits_of_compile
  · rintro ⟨hf, rfl⟩
    rw [compile_of_fits hf]

section Split

variable {f : Font} {before after : List Glyph} {g : Glyph}

theorem payload_of_split (h : f.glyphs = before ++ g :: after) :
    f.payload = (spell f.header.fields ++ records before) ++ (g.record ++ records after) := by
  simp only [payload, records, h, List.flatMap_append, List.flatMap_cons, List.append_assoc]

theorem length_before_of_split (hf : f.Fits) (h : f.glyphs = before ++ g :: after) :
    (spell f.header.fields ++ records before).length =
      FontHeader.length + (before.map Glyph.recordLength).sum := by
  have hfits : ∀ g ∈ before, g.Fits := fun g hg => hf.glyphs g (by simp [h, hg])
  rw [List.length_append, FontHeader.length_spelled, Glyph.length_records hfits]

theorem drop_payload_of_split (hf : f.Fits) (h : f.glyphs = before ++ g :: after) :
    f.payload.drop (FontHeader.length + (before.map Glyph.recordLength).sum) =
      g.record ++ records after := by
  rw [payload_of_split h, ← length_before_of_split hf h, List.drop_left]

end Split

theorem fits_concat {f : Font} {g : Glyph} (hf : f.Fits) :
    Font.Fits { f with glyphs := f.glyphs ++ [g] } ↔ g.Fits := by
  constructor
  · exact fun h => h.glyphs g (by simp)
  · intro hg
    refine ⟨hf.header, fun g' hg' => ?_⟩
    rcases List.mem_append.mp hg' with h | h
    · exact hf.glyphs g' h
    · rwa [List.mem_singleton.mp h]

theorem payload_concat (f : Font) (g : Glyph) :
    payload { f with glyphs := f.glyphs ++ [g] } = f.payload ++ g.record := by
  simp [payload, records]

/-- Compiled data is a header of nine bytes and then the records of the glyphs, which are the data
that the glyphs are compiled into by themselves. Each starts where those before it end and has its
length in its length field, so one more glyph leaves the data as they are and adds its record. -/
theorem compile_concat {f : Font} {t : OffsetTable} {bytes : List UInt8}
    (h : (f.compile t).result = .ok bytes) :
    (spell f.header.fields).length = 9 ∧
    (∃ records : List (List UInt8), bytes = spell f.header.fields ++ records.flatten ∧
      List.Forall₂ (fun g record => (Glyph.compile g .empty).result = .ok record)
        f.glyphs records) ∧
    (∀ before g after, f.glyphs = before ++ g :: after →
      let start := 9 + (before.map Glyph.recordLength).sum
      ∃ record, (Glyph.compile g .empty).result = .ok record ∧ record.length = g.recordLength ∧
        (bytes.drop start).take g.recordLength = record ∧
        ofBigEndian ((bytes.drop (start + 2)).take 2) = g.recordLength) ∧
    ∀ g u longer, (Font.compile { f with glyphs := f.glyphs ++ [g] } u).result = .ok longer ↔
      ∃ record, (Glyph.compile g .empty).result = .ok record ∧ longer = bytes ++ record := by
  obtain ⟨hf, rfl⟩ := fits_of_compile h
  refine ⟨FontHeader.length_spelled _,
    ⟨f.glyphs.map Glyph.record, f.payload_eq_flatten, ?_⟩, ?_, ?_⟩
  · rw [List.forall₂_map_right_iff, List.forall₂_same]
    exact fun g hg => Glyph.compile_eq_ok_iff.mpr ⟨hf.glyphs g hg, rfl⟩
  · intro before g after hsplit start
    have hg : g.Fits := hf.glyphs g (by simp [hsplit])
    have hdrop : f.payload.drop start = g.record ++ records after := drop_payload_of_split hf hsplit
    refine ⟨g.record, Glyph.compile_eq_ok_iff.mpr ⟨hg, rfl⟩, hg.record_length, ?_, ?_⟩
    · rw [hdrop, ← hg.record_length, List.take_left]
    · have hhead := hg.recorded.head
      unfold Glyph.headLength at hhead
      rw [← List.drop_drop, hdrop, List.drop_append_of_le_length (by omega),
        List.take_append_of_le_length (by rw [List.length_drop]; omega),
        Glyph.ofBigEndian_length hg]
  · intro g u longer
    rw [compile_eq_ok_iff, fits_concat hf, payload_concat]
    simp [Glyph.compile_eq_ok_iff, and_assoc]

theorem compile_concat_third :
    let blank : Glyph := {}
    let dot : Glyph := { box := ⟨3, 3, -1, 0⟩, rows := .unpack 3 3 [182, 128] }
    let f : Font := { header := { size := 3 }, glyphs := [blank, dot] }
    let bytes : List UInt8 := [3, 0, 0, 0, 0, 0, 0, 0, 0, 0, 0, 0, 10, 0, 0, 0, 0, 0, 0,
      0, 0, 0, 12, 0, 0, 3, 3, 255, 0, 182, 128]
    (f.compile .empty).result = .ok bytes ∧ f.glyphs = [blank] ++ dot :: [] ∧
      (dot.compile .empty).result = .ok (bytes.drop 19) ∧
      ofBigEndian ((bytes.drop 21).take 2) = 12 ∧
      (Font.compile { f with glyphs := f.glyphs ++ [dot] } .standard).result =
        .ok (bytes ++ bytes.drop 19) := by
  intro blank dot f bytes
  have h : (f.compile .empty).result = .ok bytes := by decide +kernel
  have hsplit : f.glyphs = [blank] ++ dot :: [] := rfl
  obtain ⟨-, -, hrecord, hlonger⟩ := compile_concat h
  obtain ⟨record, hr, -, htake, hlength⟩ := hrecord _ _ _ hsplit
  have hstart : 9 + ([blank].map Glyph.recordLength).sum = 19 := by decide
  have hdot : dot.recordLength = 12 := by decide
  rw [hstart, hdot] at htake hlength
  obtain rfl : bytes.drop 19 = record := htake
  exact ⟨h, hsplit, hr, hlength, (hlonger dot .standard _).mpr ⟨_, hr, rfl⟩⟩

end Font
end PixelFont
