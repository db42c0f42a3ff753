import Mathlib.Algebra.Ring.Nat
import PixelFont.JsonForm
import PixelFont.Proofs.Recording
import PixelFont.Proofs.View

set_option autoImplicit false

namespace PixelFont

namespace JsonValue

theorem toUInt32?_toNat (w : UInt32) : toUInt32? (.integer w.toNat) = some w := by
  rw [toUInt32?, integer?, Option.bind_some, toUInt32?_eq_some_iff]

theorem toInt32?_toInt (w : Int32) : toInt32? (.integer w.toInt) = some w := by
  rw [toInt32?, integer?, Option.bind_some, toInt32?_eq_some_iff]

theorem list?_eq_some_iff {v : JsonValue} {vs : List JsonValue} :
    v.list? = some vs ↔ v = .list vs := by
  cases v <;> simp [list?]

end JsonValue

open JsonValue

theorem CharCode.ofJson?_toJson (c : CharCode) : ofJson? c.toJson = some c := by
  rw [toJson, ofJson?, integer?, Option.bind_some, toUInt16?_eq_some_iff.mpr rfl]
  rfl

variable {v : JsonValue}

theorem Box.ofJson?_of_fields {b : Box} {width height xOffset yOffset : JsonValue}
    (h : v.fields? ["width", "height", "x_offset", "y_offset"] =
      some [some width, some height, some xOffset, some yOffset])
    (hw : width.toUInt32? = some b.width) (hh : height.toUInt32? = some b.height)
    (hx : xOffset.toInt32? = some b.xOffset) (hy : yOffset.toInt32? = some b.yOffset) :
    ofJson? v = some b := by
  simp [ofJson?, h, hw, hh, hx, hy]

theorem Box.ofJson?_toJson (b : Box) : ofJson? b.toJson = some b :=
  ofJson?_of_fields rfl (toUInt32?_toNat _) (toUInt32?_toNat _) (toInt32?_toInt _)
    (toInt32?_toInt _)

theorem Advance.ofJson?_of_fields {a : Advance} {x y : JsonValue}
    (h : v.fields? ["x", "y"] = some [some x, some y]) (hx : x.toUInt32? = some a.x)
    (hy : y.toUInt32? = some a.y) : ofJson? v = some a := by
  simp [ofJson?, h, hx, hy]

theorem Advance.ofJson?_toJson (a : Advance) : ofJson? a.toJson = some a :=
  ofJson?_of_fields rfl (toUInt32?_toNat _) (toUInt32?_toNat _)

theorem FontHeader.ofJson?_of_fields {header : FontHeader}
    {size characters box ascent descent : JsonValue}
    (h : v.fields? ["size", "declared_char_count", "bounding_box", "ascent", "descent"] =
      some [some size, some characters, some box, some ascent, some descent])
    (hs : size.toUInt32? = some header.size) (hc : characters.toUInt32? = some header.characters)
    (hb : Box.ofJson? box = some header.box) (ha : ascent.toUInt32? = some header.ascent)
    (hd : descent.toUInt32? = some header.descent) : ofJson? v = some header := by
  simp [ofJson?, h, hs, hc, hb, ha, hd]

theorem FontHeader.ofJson?_toJson (h : FontHeader) : ofJson? h.toJson = some h :=
  ofJson?_of_fields rfl (toUInt32?_toNat _) (toUInt32?_toNat _) h.box.ofJson?_toJson
    (toUInt32?_toNat _) (toUInt32?_toNat _)

theorem Bitmap.ofJson?_toJson (rows : Bitmap) : ofJson? (toJson rows) = some rows := by
  have hrow (row : List Bool) : (row.map JsonValue.bool).mapM JsonValue.bool? = some row :=
    mapM_map_eq_some fun _ _ => rfl
  exact mapM_map_eq_some fun row _ => hrow row

theorem Glyph.ofJson?_of_fields {g : Glyph} {code advance box rows : JsonValue}
    (h : v.fields? ["code", "device_width", "bounding_box", "bitmap"] =
      some [some code, some advance, some box, some rows])
    (hc : CharCode.ofJson? code = some g.code) (ha : Advance.ofJson? advance = some g.advance)
    (hb : Box.ofJson? box = some g.box) (hr : Bitmap.ofJson? rows = some g.rows) :
    ofJson? v = some g := by
  simp [ofJson?, h, hc, ha, hb, hr]

theorem Glyph.ofJson?_toJson (g : Glyph) : ofJson? g.toJson = some g :=
  ofJson?_of_fields rfl g.code.ofJson?_toJson g.advance.ofJson?_toJson g.box.ofJson?_toJson
    (Bitmap.ofJson?_toJson g.rows)

theorem Font.ofJson?_eq_some_iff {f : Font} :
    ofJson? v = some f ↔ ∃ name header copyright items,
      v.fields? ["name", "metrics", "copyright", "glyphs"] =
        some [some name, some header, some copyright, some (.list items)] ∧
      name.text? = some f.name ∧ FontHeader.ofJson? header = some f.header ∧
      copyright.text? = some f.copyright ∧ items.mapM Glyph.ofJson? = some f.glyphs := by
  constructor
  · intro h
    simp only [ofJson?, Option.bind_eq_bind, Option.bind_eq_some_iff] at h
    obtain ⟨fields, hfields, h⟩ := h
    split at h
    · next name header copyright glyphs =>
      simp only [Option.bind_eq_some_iff, list?_eq_some_iff] at h
      obtain ⟨name', hn, header', hh, copyright', hc, items, rfl, glyphs', hg, h⟩ := h
      cases h
      exact ⟨name, header, copyright, items, hfields, hn, hh, hc, hg⟩
    · cases h
  · intro ⟨name, header, copyright, items, h, hn, hh, hc, hg⟩
    simp [ofJson?, h, hn, hh, hc, list?, hg]

theorem Font.ofJson?_toJson (f : Font) : ofJson? f.toJson = some f :=
  ofJson?_eq_some_iff.mpr ⟨_, _, _, _, rfl, rfl, f.header.ofJson?_toJson, rfl,
    mapM_map_eq_some fun g _ => g.ofJson?_toJson⟩

theorem IntFormat.ofJson?_of_fields {f : IntFormat} {width signed : JsonValue}
    (h : v.fields? ["width", "signed"] = some [some width, some signed])
    (hw : width.integer?.bind toUInt8? = some f.width) (hs : signed.bool? = some f.signed) :
    ofJson? v = some f := by
  obtain ⟨w, hwi, hw⟩ := Option.bind_eq_some_iff.mp hw
  simp [ofJson?, h, hwi, hw, hs]

theorem IntFormat.ofJson?_toJson (f : IntFormat) : ofJson? f.toJson = some f := by
  have hw : (JsonValue.integer f.width.toNat).integer?.bind toUInt8? = some f.width := by
    rw [integer?, Option.bind_some, toUInt8?_eq_some_iff]
  exact ofJson?_of_fields rfl hw rfl

theorem Slot.ofJson?_toJson {s : Slot} (h : s.offset < 2 ^ 64) : ofJson? s.toJson = some s := by
  obtain ⟨offset, format⟩ := s
  change offset < 2 ^ 64 at h
  obtain ⟨n, hn⟩ : ∃ n : Int, (offset : Int) = n := ⟨_, rfl⟩
  have hoffset : ¬ (n < 0 ∨ 0x10000000000000000 ≤ n) := by omega
  have hnat : n.toNat = offset := by omega
  cases format with
  | none =>
    have hfields : (toJson ⟨offset, none⟩).fields? ["offset", "ty"] =
        some [some (.integer n), some .null] := hn ▸ rfl
    simp [ofJson?, hfields, integer?, hoffset, hnat]
  | some f =>
    obtain ⟨ms, hms⟩ : ∃ ms, f.toJson = .object ms := ⟨_, rfl⟩
    have hfields : (toJson ⟨offset, some f⟩).fields? ["offset", "ty"] =
        some [some (.integer n), some (.object ms)] := hn ▸ hms ▸ rfl
    have hformat : IntFormat.ofJson? (.object ms) = some f := hms ▸ f.ofJson?_toJson
    simp [ofJson?, hfields, integer?, hoffset, hnat, hformat]

theorem OffsetTable.ofJson?_toJson {t : OffsetTable} (h : ∀ e ∈ t.entries, e.2.offset < 2 ^ 64) :
    ofJson? t.toJson = some t := by
  rw [toJson, ofJson?, mapM_map_eq_some]
  · exact congrArg some t.ofEntries_entries
  · intro e he
    exact congrArg (Option.map (Prod.mk e.1)) (Slot.ofJson?_toJson (h e he))

end PixelFont
