import PixelFont.Proofs.RoundTrip

set_option autoImplicit false

namespace PixelFont

open FieldValue

/-- A record as a compiled glyph has it: as long as its pixels need, and with zero bits after the
last of them. -/
def GlyphView.Canonical (r : GlyphView) : Prop :=
  ∃ b packed, r.box = .ok b ∧ r.packed = .ok packed ∧
    r.view.field r.table GlyphField.bytes =
      .ok ((Glyph.headLength + bytesFor b.pixels : Nat) : Int) ∧
    ∀ bit ∈ (unpackBits packed).drop b.pixels, bit = false

namespace Glyph

theorem Recorded.fits {g : Glyph} {bs : List UInt8} (h : g.Recorded bs) : g.Fits := by
  obtain ⟨ha, hb, -⟩ := (fit_fields g bs.length).mp h.fit
  refine ⟨ha, hb, ?_⟩
  rw [h.rows]
  exact Bitmap.hasShape_unpack _ _ _

theorem Recorded.writtenLength_le {g : Glyph} {bs : List UInt8} (h : g.Recorded bs) :
    g.writtenLength ≤ bs.length := by
  have hh := h.head
  have hc := h.covered
  rw [List.length_drop] at hc
  rw [h.fits.writtenLength_eq, recordLength, bytesFor]
  omega

/-- Writing a decoded glyph again gives the record it came from if and only if this record has no
byte more than it needs and no bit set after the last pixel. -/
theorem Recorded.record_eq_iff {g : Glyph} {bs : List UInt8} (h : g.Recorded bs) :
    g.record = bs ↔ bs.length = headLength + bytesFor g.box.pixels ∧
      ∀ bit ∈ (unpackBits (bs.drop headLength)).drop g.box.pixels, bit = false := by
  have hc : g.box.width.toNat * g.box.height.toNat ≤ 8 * (bs.drop headLength).length := by
    have hc := h.covered
    rw [Box.pixels] at hc
    omega
  have hp : g.rows.pack = packBits ((unpackBits (bs.drop headLength)).take g.box.pixels) := by
    rw [h.rows]
    exact Bitmap.pack_unpack hc
  have hiff := packBits_take_eq_iff hc
  have hhead := h.head
  have hl : (spell (g.fields g.writtenLength)).length = headLength := by
    rw [length_spell, width_fields]
  constructor
  · intro he
    have hd : g.rows.pack = bs.drop headLength := by
      rw [← he, record, ← hl, List.drop_left]
    obtain ⟨hlen, hz⟩ := hiff.mp (hp.symm.trans hd)
    rw [List.length_drop] at hlen
    refine ⟨?_, hz⟩
    rw [Box.pixels]
    omega
  · rintro ⟨hlen, hz⟩
    have hd : g.rows.pack = bs.drop headLength := by
      rw [hp]
      refine hiff.mpr ⟨?_, hz⟩
      rw [List.length_drop, hlen, Nat.add_sub_cancel_left]
      rfl
    have hw : g.writtenLength = bs.length := by
      rw [hlen, h.fits.writtenLength_eq]
      rfl
    rw [record, hw, ← h.spelled, hd, List.take_append_drop]

theorem Recorded.canonical_iff {t : OffsetTable} (ht : ∀ n ∈ Glyph.notes, t.Has n) {g : Glyph}
    {bs : List UInt8} (h : g.Recorded bs) (p : Nat) :
    GlyphView.Canonical ⟨⟨p, bs⟩, t⟩ ↔ g.record = bs := by
  have hb := (GlyphView.decode_eq_ok_iff_parts.mp
    ((GlyphView.decode_eq_ok_iff ht h.whole (p := p)).mpr h)).2.2.1
  have hf := (GlyphView.field_bytes_eq_ok_iff ht (p := p)).mpr ⟨h.whole.holds, h.whole.spelled⟩
  have hp := (GlyphView.packed_eq_ok_iff ht (p := p)).mpr ⟨h.head, rfl⟩
  rw [h.record_eq_iff]
  constructor
  · rintro ⟨b, packed, hb', hp', hn, hz⟩
    obtain rfl := Except.ok.inj (hb.symm.trans hb')
    obtain rfl := Except.ok.inj (hp.symm.trans hp')
    exact ⟨Int.ofNat.inj (Except.ok.inj (hf.symm.trans hn)), hz⟩
  · rintro ⟨hl, hz⟩
    refine ⟨_, _, hb, hp, ?_, hz⟩
    rw [← hl]
    exact hf

end Glyph

namespace Font

theorem length_records_le {gs : List Glyph} {rs : List (List UInt8)}
    (h : List.Forall₂ Glyph.Recorded gs rs) : (records gs).length ≤ rs.flatten.length := by
  induction h with
  | nil => exact Nat.le_refl 0
  | cons hg _ ih =>
    have hr := hg.writtenLength_le
    rw [records, List.flatMap_cons, List.length_append, Glyph.length_record, List.flatten_cons,
      List.length_append]
    exact Nat.add_le_add hr ih

/-- No record grows, so records that are the same data in all are the same one by one. -/
theorem records_eq_flatten_iff {gs : List Glyph} {rs : List (List UInt8)}
    (h : List.Forall₂ Glyph.Recorded gs rs) :
    records gs = rs.flatten ↔ List.Forall₂ (fun g r => g.record = r) gs rs := by
  induction h with
  | nil => exact ⟨fun _ => .nil, fun _ => rfl⟩
  | cons hg hgs ih =>
    have hr := hg.writtenLength_le
    have hl := length_records_le hgs
    rw [records, List.flatMap_cons, List.flatten_cons, List.forall₂_cons, ← ih]
    constructor
    · intro he
      -- neither the first record nor the rest grew, so neither shrank
      have hlen := congrArg List.length he
      rw [List.length_append, List.length_append, Glyph.length_record] at hlen
      rw [records] at hl
      refine List.append_inj he ?_
      rw [Glyph.length_record]
      omega
    · rintro ⟨h₁, h₂⟩
      rw [records] at h₂
      rw [h₁, h₂]

theorem canonical_views_iff {t : OffsetTable} (ht : ∀ n ∈ Glyph.notes, t.Has n) {gs : List Glyph}
    {rs : List (List UInt8)} (h : List.Forall₂ Glyph.Recorded gs rs) (p : Nat) :
    (∀ r ∈ GlyphWalk.views t p rs, r.Canonical) ↔
      List.Forall₂ (fun g r => g.record = r) gs rs := by
  induction h generalizing p with
  | nil => exact ⟨fun _ => .nil, fun _ => List.forall_mem_nil _⟩
  | cons hg _ ih =>
    rw [GlyphWalk.views, List.forall_mem_cons, List.forall₂_cons, ih, hg.canonical_iff ht]

theorem fits_of_recorded {gs : List Glyph} {rs : List (List UInt8)}
    (h : List.Forall₂ Glyph.Recorded gs rs) : ∀ g ∈ gs, g.Fits := by
  induction h with
  | nil => exact List.forall_mem_nil _
  | cons hg _ ih => exact List.forall_mem_cons.mpr ⟨hg.fits, ih⟩

theorem Recorded.fits {f : Font} {bytes : List UInt8} (h : f.Recorded bytes) : f.Fits := by
  obtain ⟨rs, -, hrs⟩ := h.records
  exact ⟨h.fit, fits_of_recorded hrs⟩

theorem Recorded.length_payload_le {f : Font} {bytes : List UInt8} (h : f.Recorded bytes) :
    f.payload.length ≤ bytes.length := by
  obtain ⟨rs, hd, hrs⟩ := h.records
  have hr := length_records_le hrs
  have hs := congrArg List.length h.spelled
  rw [← hd, List.length_drop] at hr
  rw [List.length_take] at hs
  rw [payload, List.length_append, ← hs]
  omega

theorem Recorded.payload_eq_iff {f : Font} {bytes : List UInt8} (h : f.Recorded bytes) :
    f.payload = bytes ↔ Font.records f.glyphs = bytes.drop FontHeader.length := by
  have hb := List.take_append_drop FontHeader.length bytes
  rw [payload, ← h.spelled]
  constructor
  · exact fun he => List.append_cancel_left (he.trans hb.symm)
  · intro he
    rw [he, hb]

theorem Recorded.payload_eq_iff_canonical {t : OffsetTable} (ht : ∀ n ∈ Glyph.notes, t.Has n)
    {f : Font} {bytes : List UInt8} (h : f.Recorded bytes) :
    f.payload = bytes ↔
      ∀ r, .ok r ∈ FontView.glyphs ⟨⟨0, bytes⟩, t, FontHeader.length⟩ → r.Canonical := by
  obtain ⟨rs, hd, hrs⟩ := h.records
  have hw := GlyphWalk.whole_of_recorded hrs
  rw [h.payload_eq_iff, FontView.glyphs_eq h.length_le, hd, GlyphWalk.items_flatten ht hw,
    records_eq_flatten_iff hrs, ← canonical_views_iff ht hrs FontHeader.length]
  simp only [List.mem_map, Except.ok.injEq, exists_eq_right]

/-- By the layout that some compiled font left, any bytes that decode at all decode to a font that
compiles, into data as short as can be. -/
theorem compile_decode {f₀ : Font} (h₀ : f₀.glyphs ≠ []) {bytes₀ : List UInt8}
    (hc₀ : (f₀.compile .empty).result = .ok bytes₀) {bytes : List UInt8} {v : FontView}
    (hv : FontView.ofBytes bytes (f₀.compile .empty).table = .ok v) {name copyright : String}
    {f : Font} (hd : v.decode name copyright = .ok f) :
    (f₀.compile .empty).table.size = 18 ∧ f.check.findings = [] ∧ ∀ t : OffsetTable,
      ∃ bytes', (f.compile t).result = .ok bytes' ∧ bytes'.length ≤ bytes.length ∧
        (∃ v', FontView.ofBytes bytes' (f₀.compile .empty).table = .ok v' ∧
          v'.decode name copyright = .ok f) ∧
        (bytes' = bytes ↔ ∀ r, .ok r ∈ v.glyphs → r.Canonical) := by
  have hs := table_compile_empty (fits_of_compile hc₀).1 h₀
  have hread : ∀ b, (∃ v, FontView.ofBytes b .standard = .ok v ∧
      v.decode f.name f.copyright = .ok f) ↔ f.Recorded b :=
    fun b => FontView.read_eq_ok_iff fun _ => standard_has
  rw [hs] at hv ⊢
  obtain ⟨⟨rfl, rfl⟩, -, -⟩ := FontView.decode_eq_ok_iff.mp hd
  have hr : f.Recorded bytes := (hread bytes).mp ⟨v, hv, hd⟩
  refine ⟨standard_size, (Check.findings_eq_nil_iff _).mpr ((passes_check f).mpr hr.fits),
    fun t => ?_⟩
  refine ⟨f.payload, by rw [compile_of_fits hr.fits], hr.length_payload_le,
    (hread _).mpr hr.fits.recorded, ?_⟩
  obtain ⟨-, rfl⟩ := (FontView.ofBytes_eq_ok_iff fun n hn =>
    standard_has (List.mem_append_left _ hn)).mp hv
  exact hr.payload_eq_iff_canonical fun n hn => standard_has (List.mem_append_right _ hn)

theorem compile_decode_surplus :
    let f₀ : Font := { name := "a", header := {}, copyright := "b", glyphs := [{}] }
    let f : Font := { name := "a", header := { size := 3 }, copyright := "b",
                      glyphs := [{ box := ⟨1, 1, 0, 0⟩, rows := [[true]] }] }
    let bytes₀ : List UInt8 := [0, 0, 0, 0, 0, 0, 0, 0, 0, 0, 0, 0, 10, 0, 0, 0, 0, 0, 0]
    let bytes : List UInt8 := [3, 0, 0, 0, 0, 0, 0, 0, 0, 0, 0, 0, 12, 0, 0, 1, 1, 0, 0, 255, 7]
    let standard := (f₀.compile .empty).table
    let v : FontView := ⟨⟨0, bytes⟩, standard, FontHeader.length⟩
    f₀.glyphs ≠ [] ∧ (f₀.compile .empty).result = .ok bytes₀ ∧
      FontView.ofBytes bytes standard = .ok v ∧ v.decode "a" "b" = .ok f ∧
      standard.size = 18 ∧ f.check.findings = [] ∧ ∀ t : OffsetTable,
        ∃ bytes', (f.compile t).result = .ok bytes' ∧ bytes'.length ≤ bytes.length ∧
          (∃ v', FontView.ofBytes bytes' standard = .ok v' ∧ v'.decode "a" "b" = .ok f) ∧
          (bytes' = bytes ↔ ∀ r, .ok r ∈ v.glyphs → r.Canonical) := by
  intro f₀ f bytes₀ bytes standard v
  have h₀ : f₀.glyphs ≠ [] := by decide
  have hc₀ : (f₀.compile .empty).result = .ok bytes₀ := by decide +kernel
  have hv : FontView.ofBytes bytes standard = .ok v := by decide +kernel
  have hd : v.decode "a" "b" = .ok f := by decide +kernel
  exact ⟨h₀, hc₀, hv, hd, compile_decode h₀ hc₀ hv hd⟩

end Font
end PixelFont
