import PixelFont.Glyph
import PixelFont.View

set_option autoImplicit false

namespace PixelFont

namespace View

def unsigned (v : View) (t : OffsetTable) (name : String) : Except ReadFault UInt32 := do
  let n ← v.field t name
  match toUInt32? n with
  | some word => .ok word
  | none => .error (.badValue name n)

def signed (v : View) (t : OffsetTable) (name : String) : Except ReadFault Int32 := do
  let n ← v.field t name
  match toInt32? n with
  | some word => .ok word
  | none => .error (.badValue name n)

def box (v : View) (t : OffsetTable) (width height xOffset yOffset : String) :
    Except ReadFault Box := do
  return { width := ← v.unsigned t width, height := ← v.unsigned t height,
           xOffset := ← v.signed t xOffset, yOffset := ← v.signed t yOffset }

end View

def OffsetTable.markAt (t : OffsetTable) (name : String) : Except ReadFault Nat :=
  match t.offset? name with
  | some offset => .ok offset
  | none => .error (.missingField name)

/-- A view that covers one glyph record, as long as its length field says. -/
structure GlyphView where
  view : View
  table : OffsetTable
  deriving DecidableEq

namespace GlyphView

def ofHead (v : View) (t : OffsetTable) : Except ReadFault GlyphView := do
  let length := (← v.unsigned t GlyphField.bytes).toNat
  let head ← t.markAt GlyphField.bitmap
  if length < head then .error (.badLength v.position length)
  else match v.slice? .unbounded (.excluded length) with
    | some record => .ok ⟨record, t⟩
    | none => .error .outOfBounds

def position (g : GlyphView) : Nat := g.view.position

def length (g : GlyphView) : Nat := g.view.length

def code (g : GlyphView) : Except ReadFault CharCode := do
  let word ← g.view.unsigned g.table GlyphField.code
  match toUInt16? word.toNat with
  | some value => .ok ⟨value⟩
  | none => .error (.badValue GlyphField.code word.toNat)

def advance (g : GlyphView) : Except ReadFault Advance := do
  return { x := ← g.view.unsigned g.table GlyphField.advanceX,
           y := ← g.view.unsigned g.table GlyphField.advanceY }

def box (g : GlyphView) : Except ReadFault Box :=
  g.view.box g.table GlyphField.boxWidth GlyphField.boxHeight
    GlyphField.boxXOffset GlyphField.boxYOffset

def packed (g : GlyphView) : Except ReadFault (List UInt8) := do
  match g.view.after? (← g.table.markAt GlyphField.bitmap) with
  | some v => .ok v.bytes
  | none => .error .outOfBounds

/-- Bytes beyond the last pixel are ignored. -/
def rows (g : GlyphView) : Except ReadFault Bitmap := do
  let box ← g.box
  let packed ← g.packed
  if packed.length * 8 < box.pixels then .error .outOfBounds
  else .ok (.unpack box.width.toNat box.height.toNat packed)

def decode (g : GlyphView) : Except ReadFault Glyph := do
  return { code := ← g.code, advance := ← g.advance, box := ← g.box, rows := ← g.rows }

def describe (g : GlyphView) : String :=
  "GlyphRef \x7b position: " ++ toString g.position ++ ", byte_len: " ++ toString g.length ++
    " \x7d"

end GlyphView
end PixelFont
