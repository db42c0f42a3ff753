import PixelFont.Glyph
import PixelFont.Proofs.Bitmap
import PixelFont.Proofs.Check
import PixelFont.Proofs.OffsetTable
import PixelFont.Proofs.Record.Fields

/-!
Which glyphs can be compiled, and into what. Main statements: `passes_check`, by which the check
of a glyph asks for exactly what its fields can hold and for the shape that its box declares, and
`write_plan`, which gives the bytes and the recordings of a glyph whose numbers fit.
-/

set_option autoImplicit false

namespace PixelFont

open FieldValue

/-- The values of a box are ones that the fields of compiled data can hold. -/
structure Box.Fits (b : Box) : Prop where
  width : b.width.toNat ≤ 255
  height : b.height.toNat ≤ 255
  xOffset : -128 ≤ b.xOffset.toInt ∧ b.xOffset.toInt ≤ 127
  yOffset : -128 ≤ b.yOffset.toInt ∧ b.yOffset.toInt ≤ 127

structure Advance.Fits (a : Advance) : Prop where
  x : a.x.toNat ≤ 255
  y : a.y.toNat ≤ 255

structure Glyph.Fits (g : Glyph) : Prop where
  advance : g.advance.Fits
  box : g.box.Fits
  shape : g.rows.HasShape g.box.width.toNat g.box.height.toNat

section Holds

open IntFormat

/-- The bounds of a box are those of the formats that its values are written in. -/
theorem Box.fits_iff (b : Box) :
    b.Fits ↔ u8.Holds b.width.toNat ∧ u8.Holds b.height.toNat ∧ i8.Holds b.xOffset.toInt ∧
      i8.Holds b.yOffset.toInt := by
  rw [holds_natCast .u8 rfl rfl, holds_natCast .u8 rfl rfl, holds_range .i8 rfl,
    holds_range .i8 rfl]
  constructor
  · rintro ⟨hw, hh, hx, hy⟩
    exact ⟨hw, hh, hx, hy⟩
  · rintro ⟨hw, hh, hx, hy⟩
    exact ⟨hw, hh, hx, hy⟩

theorem Advance.fits_iff (a : Advance) : a.Fits ↔ u8.Holds a.x.toNat ∧ u8.Holds a.y.toNat := by
  rw [holds_natCast .u8 rfl rfl, holds_natCast .u8 rfl rfl]
  constructor
  · rintro ⟨hx, hy⟩
    exact ⟨hx, hy⟩
  · rintro ⟨hx, hy⟩
    exact ⟨hx, hy⟩

theorem CharCode.holds (c : CharCode) : u16.Holds c.value.toNat :=
  (holds_natCast .u16 rfl rfl _).mpr (Nat.le_of_lt_succ c.value.toNat_lt)

end Holds

theorem Check.passes_range (f : IntFormat) (hs : IntFormat.supported f.bytes = true) (v : Int) :
    (range f v).Passes ↔ f.Holds v :=
  (and_iff_right hs).symm

theorem Box.passes_check (b : Box) : b.check.Passes ↔ b.Fits := by
  rw [check, Check.passes_all, fits_iff]
  simp only [List.forall_mem_cons, Check.passes_field, Check.passes_range .u8 rfl,
    Check.passes_range .i8 rfl, List.not_mem_nil, false_imp_iff, implies_true, and_true]

theorem Advance.passes_check (a : Advance) : a.check.Passes ↔ a.Fits := by
  rw [check, Check.passes_all, fits_iff]
  simp only [List.forall_mem_cons, Check.passes_field, Check.passes_range .u8 rfl,
    List.not_mem_nil, false_imp_iff, implies_true, and_true]

namespace Glyph

theorem passes_checkRowCount (g : Glyph) :
    g.checkRowCount.Passes ↔ g.rows.length = g.box.height.toNat := by
  unfold checkRowCount
  split <;> simp [*, Check.Passes]

theorem passes_checkRow (g : Glyph) (i : Nat) (row : List Bool) :
    (g.checkRow i row).Passes ↔ row.length = g.box.width.toNat := by
  unfold checkRow
  split <;> simp [*, Check.Passes]

theorem passes_checkRows (g : Glyph) :
    (Check.all (g.rows.zipIdx.map fun (row, i) => g.checkRow i row)).Passes ↔
      ∀ row ∈ g.rows, row.length = g.box.width.toNat :=
  Check.passes_all_zipIdx (fun row i => passes_checkRow g i row) g.rows

theorem passes_check (g : Glyph) : g.check.Passes ↔ g.Fits := by
  rw [check, Check.passes_table]
  simp only [List.forall_mem_cons, Check.passes_field, Advance.passes_check, Box.passes_check]
  constructor
  · rintro ⟨ha, hb, ⟨hc, hr⟩, -⟩
    exact ⟨ha, hb, (passes_checkRowCount g).mp hc, (passes_checkRows g).mp hr⟩
  · rintro ⟨ha, hb, hc, hr⟩
    exact ⟨ha, hb, ⟨(passes_checkRowCount g).mpr hc, (passes_checkRows g).mpr hr⟩,
      List.forall_mem_nil _⟩

def metrics (g : Glyph) : List FieldValue :=
  [⟨GlyphField.advanceX, .u8, g.advance.x.toNat⟩, ⟨GlyphField.advanceY, .u8, g.advance.y.toNat⟩,
   ⟨GlyphField.boxWidth, .u8, g.box.width.toNat⟩, ⟨GlyphField.boxHeight, .u8, g.box.height.toNat⟩,
   ⟨GlyphField.boxXOffset, .i8, g.box.xOffset.toInt⟩,
   ⟨GlyphField.boxYOffset, .i8, g.box.yOffset.toInt⟩]

def fields (g : Glyph) (length : Nat) : List FieldValue :=
  ⟨GlyphField.code, .u16, g.code.value.toNat⟩ :: ⟨GlyphField.bytes, .u16, length⟩ :: g.metrics

def notes : List Note := noted 0 (fields {} 0) ++ [⟨GlyphField.bitmap, headLength, none⟩]

/-- The length of the record with the rows that the glyph has, well shaped or not. -/
def writtenLength (g : Glyph) : Nat := headLength + g.rows.pack.length

def record (g : Glyph) : List UInt8 := spell (g.fields g.writtenLength) ++ g.rows.pack

@[simp] theorem length_record (g : Glyph) : g.record.length = g.writtenLength := by
  rw [record, List.length_append, length_spell]
  rfl

theorem fit_fields (g : Glyph) (length : Nat) :
    Fit (g.fields length) ↔ g.advance.Fits ∧ g.box.Fits ∧ length ≤ 65535 := by
  have hlength : IntFormat.u16.Holds length ↔ length ≤ 65535 :=
    IntFormat.holds_natCast .u16 rfl rfl length
  simp only [Fit, fields, metrics, List.forall_mem_cons, Advance.fits_iff, Box.fits_iff, ← hlength]
  constructor
  · rintro ⟨-, hl, hx, hy, hw, hh, hxo, hyo, -⟩
    exact ⟨⟨hx, hy⟩, ⟨hw, hh, hxo, hyo⟩, hl⟩
  · rintro ⟨⟨hx, hy⟩, ⟨hw, hh, hxo, hyo⟩, hl⟩
    exact ⟨g.code.holds, hl, hx, hy, hw, hh, hxo, hyo, List.forall_mem_nil _⟩

theorem Fits.writtenLength_eq {g : Glyph} (h : g.Fits) : g.writtenLength = g.recordLength := by
  rw [writtenLength, Bitmap.pack, length_packBits, Bitmap.length_flatten h.shape]
  rfl

theorem Fits.record_length {g : Glyph} (h : g.Fits) : g.record.length = g.recordLength := by
  rw [length_record, h.writtenLength_eq]

/-- The largest box takes 65025 pixels, so no glyph that fits is too long for its length field. -/
theorem Fits.writtenLength_le {g : Glyph} (h : g.Fits) : g.writtenLength ≤ 65535 := by
  have hp : g.box.width.toNat * g.box.height.toNat ≤ 255 * 255 :=
    Nat.mul_le_mul h.box.width h.box.height
  rw [h.writtenLength_eq, recordLength, headLength, bytesFor, Box.pixels]
  omega

theorem Fits.fit_fields {g : Glyph} (h : g.Fits) : Fit (g.fields g.writtenLength) :=
  (Glyph.fit_fields g _).mpr ⟨h.advance, h.box, h.writtenLength_le⟩

def codeField (g : Glyph) : List FieldValue := [⟨GlyphField.code, .u16, g.code.value.toNat⟩]

/-- The buffer when all is written but the length. -/
def draft (g : Glyph) : Buffer :=
  ((((({} : Buffer).fields g.codeField).reserve GlyphField.bytes .u16).fields g.metrics).mark
    GlyphField.bitmap).append g.rows.pack

theorem draft_bytes (g : Glyph) :
    g.draft.bytes.toList = spell g.codeField ++ [0, 0] ++ spell g.metrics ++ g.rows.pack := by
  simp [draft, Buffer.append, Buffer.mark, Buffer.note, Buffer.fields, Buffer.reserve,
    IntFormat.u16, IntFormat.bytes, List.replicate]

theorem draft_size (g : Glyph) : g.draft.bytes.size = g.writtenLength := by
  rw [← Array.length_toList, draft_bytes]
  simp only [List.length_append, length_spell]
  rfl

theorem fill_draft {g : Glyph} (h : Fit (g.fields g.writtenLength)) :
    g.draft.fill ⟨GlyphField.bytes, 2, .u16⟩ g.writtenLength =
      .ok ⟨g.record.toArray, 0, notes.toArray⟩ := by
  have hl : IntFormat.u16.Holds g.writtenLength :=
    h ⟨GlyphField.bytes, .u16, g.writtenLength⟩ (by simp [fields])
  have hs : (IntFormat.u16.spell g.writtenLength).length = 2 := IntFormat.length_spell _ _
  have hb : (overwrite g.draft.bytes 2 (IntFormat.u16.spell g.writtenLength)).toList =
      g.record := by
    have hi : 2 + (IntFormat.u16.spell g.writtenLength).length ≤ g.draft.bytes.size := by
      rw [hs, draft_size, writtenLength, headLength]
      omega
    rw [toList_overwrite hi, draft_bytes, hs]
    rfl
  have hn : g.draft.notes = notes.toArray := rfl
  unfold Buffer.fill
  simp only [IntFormat.encode_of_holds hl, hn]
  rw [← hb]
  rfl

theorem fit_codeField (g : Glyph) : Fit g.codeField := by
  intro f hf
  obtain rfl := List.mem_singleton.mp hf
  exact g.code.holds

theorem run_plan_draft {g : Glyph} (hm : Fit g.metrics) :
    g.plan.run #v[] {} =
      (Plan.fill 0 g.writtenLength .done).run #v[⟨GlyphField.bytes, 2, .u16⟩] g.draft := by
  -- the buffer is new, so the position that is taken for the length is its size
  have hp : g.draft.position = g.writtenLength := g.draft_size
  show (Plan.fields g.codeField (.reserve GlyphField.bytes .u16 (.fields g.metrics
    (.mark GlyphField.bitmap (.bytes g.rows.pack
      (.position fun length => .fill 0 length .done)))))).run #v[] {} = _
  rw [Plan.run_fields g.fit_codeField _ _ (Nat.zero_le _), Plan.run,
    Plan.run_fields hm _ _ (Nat.zero_le _), ← hp]
  rfl

theorem run_plan {g : Glyph} (h : Fit (g.fields g.writtenLength)) :
    g.plan.run #v[] {} = (.ok (), ⟨g.record.toArray, 0, notes.toArray⟩) := by
  have hm : Fit g.metrics := fun f hf => h f (by simp [fields, hf])
  rw [run_plan_draft hm, Plan.run_fill (fill_draft h)]
  rfl

/-- A glyph whose numbers fit is written, even if its rows do not have the shape of its box. -/
theorem write_plan {g : Glyph} (h : Fit (g.fields g.writtenLength)) :
    g.plan.write {} = (.ok g.writtenLength, ⟨g.record.toArray, 0, notes.toArray⟩) := by
  show ((g.plan.run #v[] {}).1.map fun _ => (g.plan.run #v[] {}).2.position,
    (g.plan.run #v[] {}).2.leave {}) = _
  rw [run_plan h]
  simp [Except.map, Buffer.position, Buffer.leave]

end Glyph
end PixelFont
