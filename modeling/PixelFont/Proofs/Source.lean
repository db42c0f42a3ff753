import PixelFont.Batch
import PixelFont.Proofs.Bdf.Acceptance
import PixelFont.Proofs.RoundTrip

/-!
From a source to compiled data and back. Main statement: `ofText_ok_iff`. Neither the shape of a
parsed glyph nor the placeholder can be why a source does not compile, so the numbers that it gives
decide alone.
-/

set_option autoImplicit false

namespace PixelFont

structure Bdf.Fits (b : Bdf) : Prop where
  header : b.header.Fits
  glyphs : ∀ g ∈ b.glyphs, g.advance.Fits ∧ g.box.Fits

namespace Bdf

theorem length_pixels (width : UInt32) (line : List Char) :
    (pixels width line).length = width.toNat := by
  simp [pixels]

theorem Block.Gives.hasShape {block : Block} {g : Glyph} (h : block.Gives g)
    (hb : block.WellFormed) : g.rows.HasShape g.box.width.toNat g.box.height.toNat := by
  rw [h.rows]
  refine ⟨?_, ?_⟩
  · rw [List.length_map, (hb.rows g.box h.box).1]
  · intro row hrow
    obtain ⟨line, -, rfl⟩ := List.mem_map.mp hrow
    exact length_pixels _ _

theorem hasShape_of_parse {text : String} {b : Bdf} (h : parse text = .ok b) :
    ∀ g ∈ b.glyphs, g.rows.HasShape g.box.width.toNat g.box.height.toNat := by
  obtain ⟨ps, -, hw, hsays⟩ := exists_parts_of_parse h
  have hblocks : ∀ block ∈ ps.blocks, block.WellFormed := by
    intro block hblock
    obtain ⟨p, hp, hpart⟩ := List.mem_filterMap.mp hblock
    cases p with
    | outside line => cases hpart
    | glyph block' =>
      obtain rfl := Option.some.inj hpart
      exact hw.sound _ hp
  intro g hg
  obtain ⟨i, hi, rfl⟩ := List.getElem_of_mem hg
  have hl := hsays.glyphs.length_eq
  have hgives := List.Forall₂.get hsays.glyphs (hl ▸ hi) hi
  exact hgives.hasShape (hblocks _ (List.getElem_mem _))

def font (name : String) (b : Bdf) : Font :=
  ⟨name, b.header, b.copyright, .placeholder b.header.size :: b.glyphs⟩

end Bdf

theorem Glyph.placeholder_fits {size : UInt32} (h : size.toNat ≤ 255) :
    (placeholder size).Fits := by
  have hhalf : (size / 2).toNat = size.toNat / 2 := UInt32.toNat_div size 2
  have hnext : (size / 2 + 1).toNat = size.toNat / 2 + 1 := by
    have := size.toNat_lt
    rw [UInt32.toNat_add, hhalf]
    exact Nat.mod_eq_of_lt (by simp only [UInt32.toNat_one]; omega)
  have hzero : -128 ≤ (0 : Int32).toInt ∧ (0 : Int32).toInt ≤ 127 := by decide
  refine ⟨⟨?_, h⟩, ⟨?_, h, hzero, hzero⟩, Bitmap.hasShape_ofPixels _ _ _⟩
  · show (size / 2 + 1).toNat ≤ 255
    omega
  · show (size / 2).toNat ≤ 255
    omega

/-- The numbers of a source decide, as the rows of its glyphs and the placeholder always fit. -/
theorem Bdf.fits_font_iff {text : String} {b : Bdf} (h : parse text = .ok b) (name : String) :
    (b.font name).Fits ↔ b.Fits := by
  constructor
  · rintro ⟨hh, hg⟩
    refine ⟨hh, fun g hm => ?_⟩
    have := hg g (List.mem_cons_of_mem _ hm)
    exact ⟨this.advance, this.box⟩
  · rintro ⟨hh, hg⟩
    refine ⟨hh, List.forall_mem_cons.mpr ⟨Glyph.placeholder_fits hh.size, fun g hm => ?_⟩⟩
    exact ⟨(hg g hm).1, (hg g hm).2, hasShape_of_parse h g hm⟩

theorem Font.ofBdf_eq_ok_iff {name : String} {b : Bdf} {f : Font} :
    Font.ofBdf name b = .ok f ↔ b.header.Fits ∧ f = b.font name := make_eq_ok_iff

namespace SourceResult

variable {name path text : String} {t : OffsetTable}

theorem ofText_of_fits {b : Bdf} (hp : Bdf.parse text = .ok b) (hb : b.Fits) :
    (ofText name path text t).result = .ok ⟨b.font name, (b.font name).payload⟩ ∧
      (ofText name path text t).table = t.recordAll (b.font name).notes := by
  have hmake : Font.ofBdf name b = .ok (b.font name) :=
    Font.ofBdf_eq_ok_iff.mpr ⟨hb.header, rfl⟩
  have hfits : (b.font name).Fits := (Bdf.fits_font_iff hp name).mpr hb
  obtain ⟨events, hread⟩ : ∃ events, Bdf.read text = (events, .ok b) :=
    ⟨_, Prod.ext rfl hp⟩
  simp [ofText, hread, hmake, Font.compile_of_fits hfits]

theorem ofText_of_not_fits (h : ∀ b, Bdf.parse text = .ok b → ¬ b.Fits) :
    (∃ e, (ofText name path text t).result = .error e) ∧ (ofText name path text t).table = t := by
  obtain ⟨events, hread⟩ : ∃ events, Bdf.read text = (events, Bdf.parse text) := ⟨_, rfl⟩
  cases hp : Bdf.parse text with
  | error e => simp [ofText, hread, hp]
  | ok b =>
    cases hmake : Font.ofBdf name b with
    | error e => simp [ofText, hread, hp, hmake]
    | ok f =>
      obtain ⟨-, rfl⟩ := Font.ofBdf_eq_ok_iff.mp hmake
      have hfits : ¬ (b.font name).Fits := fun hf =>
        h b hp ((Bdf.fits_font_iff hp name).mp hf)
      have hcompile := (Font.compile_of_not_fits hfits t).2
      simp [ofText, hread, hp, hmake, hcompile]

theorem decode_payload {b : Bdf} (hf : (b.font name).Fits) {t : OffsetTable}
    (ht : ∀ n ∈ (b.font name).notes, t.Has n) :
    ∃ v, FontView.ofBytes (b.font name).payload t = .ok v ∧ ∀ label notice, v.decode label notice =
      .ok ⟨label, b.header, notice, .placeholder b.header.size :: b.glyphs⟩ := by
  obtain ⟨v, hv, -⟩ := Font.decode_payload hf ht
  refine ⟨v, hv, fun label notice => ?_⟩
  -- neither the name nor the copyright has a part in the data
  let f : Font := ⟨label, b.header, notice, .placeholder b.header.size :: b.glyphs⟩
  have hf : f.Fits := ⟨hf.header, hf.glyphs⟩
  obtain ⟨v', hv', hd⟩ := Font.decode_payload hf ht
  obtain rfl := Except.ok.inj (hv.symm.trans hv')
  exact hd

/-- A source compiles if and only if it is accepted and its numbers fit. The data then decode to its
header and its glyphs after the placeholder; otherwise the offset table stays as it was. -/
theorem ofText_ok_iff (name path text : String) (t : OffsetTable) :
    let r := ofText name path text t
    ((∃ f, r.result = .ok f) ↔ ∃ b, Bdf.parse text = .ok b ∧ b.Fits) ∧
      (∀ f, r.result = .ok f → ∃ b v, Bdf.parse text = .ok b ∧
        FontView.ofBytes f.bytes r.table = .ok v ∧ ∀ label notice, v.decode label notice =
          .ok ⟨label, b.header, notice, .placeholder b.header.size :: b.glyphs⟩) ∧
      ∀ e, r.result = .error e → r.table = t := by
  intro r
  by_cases h : ∃ b, Bdf.parse text = .ok b ∧ b.Fits
  · obtain ⟨b, hp, hb⟩ := h
    obtain ⟨hresult, htable⟩ : r.result = .ok ⟨b.font name, (b.font name).payload⟩ ∧
      r.table = t.recordAll (b.font name).notes := ofText_of_fits hp hb
    refine ⟨⟨fun _ => ⟨b, hp, hb⟩, fun _ => ⟨_, hresult⟩⟩, ?_, ?_⟩
    · intro f hf
      obtain rfl := Except.ok.inj (hresult.symm.trans hf)
      have hfits := (Bdf.fits_font_iff hp name).mpr hb
      have hhas : ∀ n ∈ (b.font name).notes, r.table.Has n := fun n hn =>
        htable ▸ OffsetTable.recordAll_has Font.notes_has t hn
      obtain ⟨v, hv, hd⟩ := decode_payload hfits hhas
      exact ⟨b, v, hp, hv, hd⟩
    · intro e he
      rw [hresult] at he
      cases he
  · obtain ⟨⟨e, hresult⟩, htable⟩ : (∃ e, r.result = .error e) ∧ r.table = t :=
      ofText_of_not_fits fun b hp hb => h ⟨b, hp, hb⟩
    refine ⟨⟨?_, fun hb => absurd hb h⟩, ?_, fun _ _ => htable⟩
    · rintro ⟨f, hf⟩
      rw [hresult] at hf
      cases hf
    · intro f hf
      rw [hresult] at hf
      cases hf

/-- Values at the ends of their ranges, and a glyph whose rows are blank lines. -/
theorem ofText_ok_iff_ends :
    let text := "SIZE 0\nFONTBOUNDINGBOX 255 0 127 -128\nFONT_ASCENT 0\nFONT_DESCENT 255\n" ++
      "CHARS 65535\nSTARTCHAR ffff\nDWIDTH 255 0\nBBX 0 2 -128 127\nBITMAP\n\n\nENDCHAR"
    let r := ofText "a" "b" text .empty
    let header : FontHeader := { characters := 65535, box := ⟨255, 0, 127, -128⟩, descent := 255 }
    let glyph : Glyph := ⟨⟨0xffff⟩, ⟨255, 0⟩, ⟨0, 2, -128, 127⟩, [[], []]⟩
    let bytes : List UInt8 := [0, 255, 255, 255, 0, 127, 128, 0, 255,
      0, 0, 0, 10, 1, 0, 0, 0, 0, 0, 255, 255, 0, 10, 255, 0, 0, 2, 128, 127]
    Bdf.parse text = .ok ⟨header, "", [glyph]⟩ ∧
      r.result = .ok ⟨⟨"a", header, "", [.placeholder 0, glyph]⟩, bytes⟩ ∧
      ∃ v, FontView.ofBytes bytes r.table = .ok v ∧ ∀ label notice, v.decode label notice =
        .ok ⟨label, header, notice, [.placeholder 0, glyph]⟩ := by
  intro text r header glyph bytes
  have hp : Bdf.parse text = .ok ⟨header, "", [glyph]⟩ := by decide +kernel
  have hfits : (⟨header, "", [glyph]⟩ : Bdf).Fits := by
    have hbox : header.box.Fits := ⟨by decide, by decide, by decide, by decide⟩
    refine ⟨⟨by decide, by decide, hbox, by decide, by decide⟩, fun g hg => ?_⟩
    obtain rfl := List.mem_singleton.mp hg
    exact ⟨⟨by decide, by decide⟩, ⟨by decide, by decide, by decide, by decide⟩⟩
  have hbytes : Font.payload ⟨"a", header, "", [.placeholder 0, glyph]⟩ = bytes := by
    decide +kernel
  have hresult : r.result = .ok ⟨⟨"a", header, "", [.placeholder 0, glyph]⟩, bytes⟩ :=
    hbytes ▸ (ofText_of_fits hp hfits).1
  have hsize : header.size = 0 := rfl
  obtain ⟨-, hdecode, -⟩ := ofText_ok_iff "a" "b" text .empty
  obtain ⟨b, v, hb, hv, hd⟩ := hdecode _ hresult
  obtain rfl := Except.ok.inj (hp.symm.trans hb)
  refine ⟨hp, hresult, v, hv, fun label notice => ?_⟩
  rw [hd, hsize]

end SourceResult

end PixelFont
