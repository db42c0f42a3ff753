import PixelFont.Glyph

set_option autoImplicit false

namespace PixelFont

structure FontHeader where
  size : UInt32 := 0
  /-- The number of characters as the source declares it. It is written as it is, even if the font
  has another number of glyphs. -/
  characters : UInt32 := 0
  box : Box := {}
  ascent : UInt32 := 0
  descent : UInt32 := 0
  deriving DecidableEq, Repr

def FontHeader.check (h : FontHeader) : Check :=
  .table "FontMetrics" [.field "size" (.range .u8 h.size.toNat),
    .field "declared_char_count" (.range .u16 h.characters.toNat),
    .field "bounding_box" h.box.check,
    .field "ascent" (.range .u8 h.ascent.toNat), .field "descent" (.range .u8 h.descent.toNat)]

structure Font where
  name : String := ""
  header : FontHeader := {}
  copyright : String := ""
  glyphs : List Glyph := []
  deriving DecidableEq, Repr

namespace Font

/-- A font whose first glyph is the placeholder. The placeholder takes its size from the header,
so the header is checked first. -/
def make (name : String) (header : FontHeader) (copyright : String) (glyphs : List Glyph) :
    Except CompileFault Font :=
  match header.check.findings with
  | [] => .ok ⟨name, header, copyright, .placeholder header.size :: glyphs⟩
  | fs => .error (.invalid fs)

def check (f : Font) : Check :=
  .table "FontRecord" [.field "metrics" f.header.check,
    .field "glyphs" (.items (f.glyphs.map Glyph.check))]

def plan (f : Font) : Plan 0 :=
  .field FontField.size .u8 f.header.size.toNat <|
  .field FontField.characters .u16 f.header.characters.toNat <|
  .field FontField.boxWidth .u8 f.header.box.width.toNat <|
  .field FontField.boxHeight .u8 f.header.box.height.toNat <|
  .field FontField.boxXOffset .i8 f.header.box.xOffset.toInt <|
  .field FontField.boxYOffset .i8 f.header.box.yOffset.toInt <|
  .field FontField.ascent .u8 f.header.ascent.toNat <|
  .field FontField.descent .u8 f.header.descent.toNat <|
  .mark FontField.firstGlyph <|
  .records (f.glyphs.map Glyph.plan)

def compile (f : Font) (t : OffsetTable) : Compilation := f.plan.compileChecked f.check t

def compileLog (f : Font) (c : Compilation) : List LogLine :=
  c.log ++ match c.result with
    | .ok bytes =>
      [⟨.debug, s!"compiled {f.name} size {f.header.size}: {f.glyphs.length} glyphs, " ++
        s!"{bytes.length} bytes"⟩]
    | .error _ => []

def comment (f : Font) : String :=
  s!"// {f.name}\n//   - {f.copyright}\n//   - Size: {f.header.size}\n" ++
    s!"//   - Characters: {f.header.characters}\n"

end Font
end PixelFont
