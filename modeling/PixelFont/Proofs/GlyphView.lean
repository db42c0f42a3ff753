import PixelFont.Proofs.Glyph
import PixelFont.Proofs.View

set_option autoImplicit false

namespace PixelFont

open FieldValue

theorem OffsetTable.markAt_eq_ok_iff {t : OffsetTable} {name : String} {offset : Nat} :
    t.markAt name = .ok offset ↔ t.offset? name = some offset := by
  cases h : t.offset? name <;> simp [markAt, h]

theorem OffsetTable.markAt_of_has {t : OffsetTable} {name : String} {s : Slot}
    (h : t.Has ⟨name, s⟩) : t.markAt name = .ok s.offset := by
  have hg : t.get? name = some s := h
  rw [markAt_eq_ok_iff, offset?, hg]
  rfl

namespace Glyph

theorem noted_fields (g : Glyph) (length : Nat) :
    noted 0 (g.fields length) = noted 0 (fields {} 0) := rfl

theorem width_fields (g : Glyph) (length : Nat) : width (g.fields length) = headLength := rfl

/-- The bytes are a record of the length that its own length field gives. -/
structure Whole (bs : List UInt8) : Prop where
  head : headLength ≤ bs.length
  holds : IntFormat.u16.Holds bs.length
  spelled : (bs.drop 2).take 2 = IntFormat.u16.spell bs.length

theorem Whole.toNat_length {bs : List UInt8} (h : Whole bs) :
    (UInt32.ofNat bs.length).toNat = bs.length := by
  have hlength : bs.length ≤ 65535 := (IntFormat.holds_natCast .u16 rfl rfl _).mp h.holds
  rw [UInt32.toNat_ofNat']
  exact Nat.mod_eq_of_lt (by omega)

/-- The bytes are a record that stands for this glyph. Bytes beyond the last pixel are free. -/
structure Recorded (g : Glyph) (bs : List UInt8) : Prop where
  fit : Fit (g.fields bs.length)
  spelled : bs.take headLength = spell (g.fields bs.length)
  covered : g.box.pixels ≤ (bs.drop headLength).length * 8
  rows : g.rows = .unpack g.box.width.toNat g.box.height.toNat (bs.drop headLength)

theorem Recorded.head {g : Glyph} {bs : List UInt8} (h : g.Recorded bs) :
    headLength ≤ bs.length := by
  have hl := congrArg List.length h.spelled
  rw [List.length_take, length_spell, width_fields] at hl
  omega

theorem Recorded.whole {g : Glyph} {bs : List UInt8} (h : g.Recorded bs) : Whole bs := by
  refine ⟨h.head, h.fit ⟨GlyphField.bytes, .u16, bs.length⟩ (by simp [fields]), ?_⟩
  have hs : (bs.drop 2).take 2 = ((bs.take headLength).drop 2).take 2 := by
    rw [List.drop_take, List.take_take]
    rfl
  rw [hs, h.spelled]
  rfl

end Glyph

namespace GlyphView

theorem code_eq_ok_iff {g : GlyphView} {c : CharCode} :
    g.code = .ok c ↔ g.view.field g.table GlyphField.code = .ok (c.value.toNat : Int) := by
  rw [code, bind_eq_ok_iff]
  simp only [View.unsigned_eq_ok_iff]
  constructor
  · rintro ⟨word, hw, h⟩
    split at h
    · next value hv =>
      obtain rfl := Except.ok.inj h
      rw [hw, toUInt16?_eq_some_iff.mp hv]
    · cases h
  · intro h
    have hc := c.value.toNat_lt
    have hw : (UInt32.ofNat c.value.toNat).toNat = c.value.toNat := by
      rw [UInt32.toNat_ofNat']
      exact Nat.mod_eq_of_lt (by omega)
    refine ⟨UInt32.ofNat c.value.toNat, by rw [hw]; exact h, ?_⟩
    rw [hw, toUInt16?_eq_some_iff.mpr rfl]

theorem advance_eq_ok_iff {g : GlyphView} {a : Advance} :
    g.advance = .ok a ↔ g.view.field g.table GlyphField.advanceX = .ok (a.x.toNat : Int) ∧
      g.view.field g.table GlyphField.advanceY = .ok (a.y.toNat : Int) := by
  simp only [advance, bind_eq_ok_iff, View.unsigned_eq_ok_iff]
  constructor
  · rintro ⟨x, hx, y, hy, he⟩
    obtain rfl := Except.ok.inj he
    exact ⟨hx, hy⟩
  · rintro ⟨hx, hy⟩
    exact ⟨_, hx, _, hy, rfl⟩

theorem box_eq_ok_iff {g : GlyphView} {b : Box} :
    g.box = .ok b ↔ g.view.field g.table GlyphField.boxWidth = .ok (b.width.toNat : Int) ∧
      g.view.field g.table GlyphField.boxHeight = .ok (b.height.toNat : Int) ∧
      g.view.field g.table GlyphField.boxXOffset = .ok b.xOffset.toInt ∧
      g.view.field g.table GlyphField.boxYOffset = .ok b.yOffset.toInt := by
  rw [box, View.box_eq_ok_iff]
  simp only [View.unsigned_eq_ok_iff, View.signed_eq_ok_iff]

theorem rows_eq_ok_iff {g : GlyphView} {b : Box} (hb : g.box = .ok b) {rows : Bitmap} :
    g.rows = .ok rows ↔ ∃ bs, g.packed = .ok bs ∧ b.pixels ≤ bs.length * 8 ∧
      rows = .unpack b.width.toNat b.height.toNat bs := by
  simp only [GlyphView.rows, bind_eq_ok_iff, hb]
  constructor
  · rintro ⟨b', hb', bs, hp, h⟩
    obtain rfl := Except.ok.inj hb'
    split at h
    · cases h
    · next hl =>
      obtain rfl := Except.ok.inj h
      exact ⟨bs, hp, Nat.le_of_not_lt hl, rfl⟩
  · rintro ⟨bs, hp, hl, rfl⟩
    exact ⟨b, rfl, bs, hp, if_neg (Nat.not_lt.mpr hl)⟩

theorem decode_eq_ok_iff_parts {r : GlyphView} {g : Glyph} :
    r.decode = .ok g ↔ r.code = .ok g.code ∧ r.advance = .ok g.advance ∧ r.box = .ok g.box ∧
      r.rows = .ok g.rows := by
  simp only [decode, bind_eq_ok_iff]
  constructor
  · rintro ⟨c, hc, a, ha, b, hb, rows, hr, he⟩
    obtain rfl := Except.ok.inj he
    exact ⟨hc, ha, hb, hr⟩
  · rintro ⟨hc, ha, hb, hr⟩
    exact ⟨_, hc, _, ha, _, hb, _, hr, rfl⟩

theorem ofHead_eq_ok_iff_room {v : View} {t : OffsetTable} {g : GlyphView} :
    ofHead v t = .ok g ↔ ∃ (length : UInt32) (head : Nat),
      v.unsigned t GlyphField.bytes = .ok length ∧ t.offset? GlyphField.bitmap = some head ∧
        head ≤ length.toNat ∧ length.toNat ≤ v.length ∧
        g = ⟨⟨v.position, v.bytes.take length.toNat⟩, t⟩ := by
  simp only [ofHead, bind_eq_ok_iff, OffsetTable.markAt_eq_ok_iff, View.slice?_unbounded_excluded]
  constructor
  · rintro ⟨length, hlength, head, hhead, h⟩
    by_cases hle : length.toNat < head
    · simp [hle] at h
    by_cases hl : length.toNat ≤ v.length
    · simp only [hle, hl, if_true, if_false, Except.ok.injEq] at h
      exact ⟨length, head, hlength, hhead, Nat.le_of_not_lt hle, hl, h.symm⟩
    · simp [hle, hl] at h
  · rintro ⟨length, head, hlength, hhead, hle, hl, rfl⟩
    exact ⟨length, hlength, head, hhead, by simp [Nat.not_lt.mpr hle, hl]⟩

section Standard

variable {t : OffsetTable} (ht : ∀ n ∈ Glyph.notes, t.Has n)
include ht

theorem has_bitmap : t.Has ⟨GlyphField.bitmap, Glyph.headLength, none⟩ := ht _ (by decide)

theorem has_bytes : t.Has ⟨GlyphField.bytes, 2, some .u16⟩ := ht _ (by decide)

theorem packed_eq_ok_iff {p : Nat} {bs packed : List UInt8} :
    GlyphView.packed ⟨⟨p, bs⟩, t⟩ = .ok packed ↔
      Glyph.headLength ≤ bs.length ∧ packed = bs.drop Glyph.headLength := by
  have hm : OffsetTable.markAt t GlyphField.bitmap = .ok Glyph.headLength :=
    OffsetTable.markAt_of_has (has_bitmap ht)
  simp only [GlyphView.packed, bind_eq_ok_iff, hm, View.after?_eq]
  by_cases h : Glyph.headLength ≤ bs.length
  · simp [View.length, h, eq_comm]
  · simp [View.length, h]

theorem field_bytes_eq_ok_iff {p : Nat} {bs : List UInt8} {n : Nat} :
    View.field ⟨p, bs⟩ t GlyphField.bytes = .ok (n : Int) ↔
      IntFormat.u16.Holds n ∧ (bs.drop 2).take 2 = IntFormat.u16.spell n := by
  rw [View.field_of_has (has_bytes ht), View.read_eq_ok_iff]
  rfl

theorem forall_fields_iff (p : Nat) (bs : List UInt8) (g : Glyph) (n : Nat) :
    (∀ f ∈ g.fields n, View.field ⟨p, bs⟩ t f.name = .ok f.value) ↔
      Fit (g.fields n) ∧ bs.take Glyph.headLength = spell (g.fields n) :=
  View.forall_field_iff 0 (g.fields n) (fun m hm => ht m (by
    rw [Glyph.noted_fields] at hm
    exact List.mem_append_left _ hm)) ⟨p, bs⟩

theorem decode_eq_ok_iff {p : Nat} {bs : List UInt8} (hw : Glyph.Whole bs) {g : Glyph} :
    GlyphView.decode ⟨⟨p, bs⟩, t⟩ = .ok g ↔ g.Recorded bs := by
  have hb := (field_bytes_eq_ok_iff ht (p := p)).mpr ⟨hw.holds, hw.spelled⟩
  have hf := forall_fields_iff ht p bs g bs.length
  simp only [Glyph.fields, Glyph.metrics, List.forall_mem_cons] at hf
  rw [decode_eq_ok_iff_parts, code_eq_ok_iff, advance_eq_ok_iff]
  constructor
  · rintro ⟨hc, ⟨hx, hy⟩, hbox, hr⟩
    obtain ⟨h₁, h₂, h₃, h₄⟩ := box_eq_ok_iff.mp hbox
    obtain ⟨packed, hp, hl, hrows⟩ := (rows_eq_ok_iff hbox).mp hr
    obtain ⟨-, rfl⟩ := (packed_eq_ok_iff ht).mp hp
    obtain ⟨hfit, hs⟩ := hf.mp ⟨hc, hb, hx, hy, h₁, h₂, h₃, h₄, List.forall_mem_nil _⟩
    exact ⟨hfit, hs, hl, hrows⟩
  · rintro h
    obtain ⟨hc, -, hx, hy, h₁, h₂, h₃, h₄, -⟩ := hf.mpr ⟨h.fit, h.spelled⟩
    have hbox : GlyphView.box ⟨⟨p, bs⟩, t⟩ = .ok g.box := box_eq_ok_iff.mpr ⟨h₁, h₂, h₃, h₄⟩
    exact ⟨hc, ⟨hx, hy⟩, hbox, (rows_eq_ok_iff hbox).mpr
      ⟨_, (packed_eq_ok_iff ht).mpr ⟨hw.head, rfl⟩, h.covered, h.rows⟩⟩

theorem ofHead_eq_ok_iff {p : Nat} {bs : List UInt8} {r : GlyphView} :
    ofHead ⟨p, bs⟩ t = .ok r ↔
      ∃ record rest, bs = record ++ rest ∧ Glyph.Whole record ∧ r = ⟨⟨p, record⟩, t⟩ := by
  have hm : OffsetTable.markAt t GlyphField.bitmap = .ok Glyph.headLength :=
    OffsetTable.markAt_of_has (has_bitmap ht)
  simp only [ofHead, bind_eq_ok_iff, hm, View.unsigned_eq_ok_iff, field_bytes_eq_ok_iff ht,
    View.slice?_unbounded_excluded]
  constructor
  · rintro ⟨w, ⟨hh, hs⟩, head, hhead, h⟩
    obtain rfl := Except.ok.inj hhead
    split at h
    · cases h
    next hle =>
    by_cases hl : w.toNat ≤ bs.length
    · simp only [View.length, hl, if_true, Except.ok.injEq] at h
      -- the length field lies in the head, so cutting the view off after the record keeps it
      have hlen : (bs.take w.toNat).length = w.toNat := List.length_take_of_le hl
      have hd : ((bs.take w.toNat).drop 2).take 2 = (bs.drop 2).take 2 := by
        rw [List.drop_take, List.take_take]
        congr 1
        unfold Glyph.headLength at hle
        omega
      refine ⟨bs.take w.toNat, bs.drop w.toNat, (List.take_append_drop _ _).symm, ⟨?_, ?_, ?_⟩,
        h.symm⟩
      · rw [hlen]
        exact Nat.le_of_not_lt hle
      · rw [hlen]
        exact hh
      · rw [hd, hlen]
        exact hs
    · simp [View.length, hl] at h
  · rintro ⟨record, rest, rfl, hw, rfl⟩
    have hhead := hw.head
    have ht := hw.toNat_length
    have hd : ((record ++ rest).drop 2).take 2 = (record.drop 2).take 2 := by
      unfold Glyph.headLength at hhead
      rw [List.drop_append_of_le_length (by omega),
        List.take_append_of_le_length (by rw [List.length_drop]; omega)]
    refine ⟨UInt32.ofNat record.length, ?_, Glyph.headLength, rfl, ?_⟩
    · rw [ht]
      exact ⟨hw.holds, hd.trans hw.spelled⟩
    · rw [ht, if_neg (Nat.not_lt.mpr hhead)]
      simp [View.length]

end Standard

end GlyphView
end PixelFont
