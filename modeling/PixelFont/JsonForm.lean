import PixelFont.Font
import PixelFont.JsonValue.Reader

/-!
The JSON forms of fonts, glyphs and offset tables. A structure is an object whose members are its
fields in order. Read back, the members may come in any order among others that are ignored, but
none twice; a list of exactly the fields' values in order will do as well.
-/

set_option autoImplicit false

namespace PixelFont

namespace JsonValue

/-- The values of the named fields, `none` for one that an object does not have. -/
def fields? (names : List String) : JsonValue → Option (List (Option JsonValue))
  | .object ms => names.mapM fun name =>
    match ms.filter fun m => m.1 = name with
    | [] => some none
    | [(_, v)] => some (some v)
    | _ => none
  | .list vs => if vs.length = names.length then some (vs.map some) else none
  | _ => none

def integer? : JsonValue → Option Int
  | .integer i => some i
  | _ => none

def text? : JsonValue → Option String
  | .text s => some s
  | _ => none

def bool? : JsonValue → Option Bool
  | .bool b => some b
  | _ => none

def list? : JsonValue → Option (List JsonValue)
  | .list vs => some vs
  | _ => none

def toUInt32? (v : JsonValue) : Option UInt32 := v.integer?.bind PixelFont.toUInt32?

def toInt32? (v : JsonValue) : Option Int32 := v.integer?.bind PixelFont.toInt32?

end JsonValue

open JsonValue (fields?)

def IntFormat.toJson (f : IntFormat) : JsonValue :=
  .object [("width", .integer f.width.toNat), ("signed", .bool f.signed)]

def IntFormat.ofJson? (v : JsonValue) : Option IntFormat := do
  match ← v.fields? ["width", "signed"] with
  | [some width, some signed] =>
    return { width := ← (← width.integer?) |> toUInt8?, signed := ← signed.bool? }
  | _ => none

def CharCode.toJson (c : CharCode) : JsonValue := .integer c.value.toNat

def CharCode.ofJson? (v : JsonValue) : Option CharCode :=
  (v.integer?.bind toUInt16?).map CharCode.mk

def Box.toJson (b : Box) : JsonValue :=
  .object [("width", .integer b.width.toNat), ("height", .integer b.height.toNat),
    ("x_offset", .integer b.xOffset.toInt), ("y_offset", .integer b.yOffset.toInt)]

def Box.ofJson? (v : JsonValue) : Option Box := do
  match ← v.fields? ["width", "height", "x_offset", "y_offset"] with
  | [some width, some height, some xOffset, some yOffset] =>
    return { width := ← width.toUInt32?, height := ← height.toUInt32?,
             xOffset := ← xOffset.toInt32?, yOffset := ← yOffset.toInt32? }
  | _ => none

def Advance.toJson (a : Advance) : JsonValue :=
  .object [("x", .integer a.x.toNat), ("y", .integer a.y.toNat)]

def Advance.ofJson? (v : JsonValue) : Option Advance := do
  match ← v.fields? ["x", "y"] with
  | [some x, some y] => return { x := ← x.toUInt32?, y := ← y.toUInt32? }
  | _ => none

def Slot.toJson (s : Slot) : JsonValue :=
  let format := match s.format with
    | some f => f.toJson
    | none => .null
  .object [("offset", .integer s.offset), ("ty", format)]

/-- Offsets are at most sixty-four bits wide. The format of a mark is null or missing. -/
def Slot.ofJson? (v : JsonValue) : Option Slot := do
  match ← v.fields? ["offset", "ty"] with
  | [some offset, format] =>
    let n ← offset.integer?
    if n < 0 ∨ 0x10000000000000000 ≤ n then none
    match format with
    | none => return ⟨n.toNat, none⟩
    | some .null => return ⟨n.toNat, none⟩
    | some f => return ⟨n.toNat, some (← IntFormat.ofJson? f)⟩
  | _ => none

def OffsetTable.toJson (t : OffsetTable) : JsonValue :=
  .object (t.entries.map fun (name, s) => (name, s.toJson))

/-- A key that comes again replaces the slot of the first. -/
def OffsetTable.ofJson? : JsonValue → Option OffsetTable
  | .object ms => do
    return ofEntries (← ms.mapM fun (name, v) => (Slot.ofJson? v).map fun s => (name, s))
  | _ => none

def FontHeader.toJson (h : FontHeader) : JsonValue :=
  .object [("size", .integer h.size.toNat),
    ("declared_char_count", .integer h.characters.toNat), ("bounding_box", h.box.toJson),
    ("ascent", .integer h.ascent.toNat), ("descent", .integer h.descent.toNat)]

def FontHeader.ofJson? (v : JsonValue) : Option FontHeader := do
  match ← v.fields? ["size", "declared_char_count", "bounding_box", "ascent", "descent"] with
  | [some size, some characters, some box, some ascent, some descent] =>
    return { size := ← size.toUInt32?, characters := ← characters.toUInt32?,
             box := ← Box.ofJson? box, ascent := ← ascent.toUInt32?,
             descent := ← descent.toUInt32? }
  | _ => none

def Bitmap.toJson (rows : Bitmap) : JsonValue :=
  .list (rows.map fun row => .list (row.map JsonValue.bool))

def Bitmap.ofJson? (v : JsonValue) : Option Bitmap := do
  (← v.list?).mapM fun row => do (← row.list?).mapM JsonValue.bool?

def Glyph.toJson (g : Glyph) : JsonValue :=
  .object [("code", g.code.toJson), ("device_width", g.advance.toJson),
    ("bounding_box", g.box.toJson), ("bitmap", Bitmap.toJson g.rows)]

def Glyph.ofJson? (v : JsonValue) : Option Glyph := do
  match ← v.fields? ["code", "device_width", "bounding_box", "bitmap"] with
  | [some code, some advance, some box, some rows] =>
    return { code := ← CharCode.ofJson? code, advance := ← Advance.ofJson? advance,
             box := ← Box.ofJson? box, rows := ← Bitmap.ofJson? rows }
  | _ => none

def Font.toJson (f : Font) : JsonValue :=
  .object [("name", .text f.name), ("metrics", f.header.toJson),
    ("copyright", .text f.copyright), ("glyphs", .list (f.glyphs.map Glyph.toJson))]

def Font.ofJson? (v : JsonValue) : Option Font := do
  match ← v.fields? ["name", "metrics", "copyright", "glyphs"] with
  | [some name, some header, some copyright, some glyphs] =>
    return { name := ← name.text?, header := ← FontHeader.ofJson? header,
             copyright := ← copyright.text?, glyphs := ← (← glyphs.list?).mapM Glyph.ofJson? }
  | _ => none

end PixelFont
