import PixelFont.OffsetTable

set_option autoImplicit false

namespace PixelFont

namespace FontField

def size := "FONT_SIZE"
def characters := "FONT_CHARACTERS"
def boxWidth := "FONT_BOUNDING_BOX_WIDTH"
def boxHeight := "FONT_BOUNDING_BOX_HEIGHT"
def boxXOffset := "FONT_BOUNDING_BOX_X_OFFSET"
def boxYOffset := "FONT_BOUNDING_BOX_Y_OFFSET"
def ascent := "FONT_ASCENT"
def descent := "FONT_DESCENT"

def firstGlyph := "FONT_FIRST_CHARACTER"

end FontField

namespace GlyphField

def code := "CHARACTER_CODE"

def bytes := "CHARACTER_BYTES"

def advanceX := "CHARACTER_DEVICE_WIDTH_X"
def advanceY := "CHARACTER_DEVICE_WIDTH_Y"
def boxWidth := "CHARACTER_BBX_WIDTH"
def boxHeight := "CHARACTER_BBX_HEIGHT"
def boxXOffset := "CHARACTER_BBX_X_OFFSET"
def boxYOffset := "CHARACTER_BBX_Y_OFFSET"

/-- Marks the start of the packed pixels, which run to the end of the record. -/
def bitmap := "CHARACTER_BITMAP"

end GlyphField

/-- The layout of compiled fonts, in the order in which a font with glyphs records it. -/
def OffsetTable.standard : OffsetTable := .ofEntries
  [(FontField.size, ⟨0, some .u8⟩), (FontField.characters, ⟨1, some .u16⟩),
   (FontField.boxWidth, ⟨3, some .u8⟩), (FontField.boxHeight, ⟨4, some .u8⟩),
   (FontField.boxXOffset, ⟨5, some .i8⟩), (FontField.boxYOffset, ⟨6, some .i8⟩),
   (FontField.ascent, ⟨7, some .u8⟩), (FontField.descent, ⟨8, some .u8⟩),
   (FontField.firstGlyph, ⟨9, none⟩),
   (GlyphField.code, ⟨0, some .u16⟩), (GlyphField.bytes, ⟨2, some .u16⟩),
   (GlyphField.advanceX, ⟨4, some .u8⟩), (GlyphField.advanceY, ⟨5, some .u8⟩),
   (GlyphField.boxWidth, ⟨6, some .u8⟩), (GlyphField.boxHeight, ⟨7, some .u8⟩),
   (GlyphField.boxXOffset, ⟨8, some .i8⟩), (GlyphField.boxYOffset, ⟨9, some .i8⟩),
   (GlyphField.bitmap, ⟨10, none⟩)]

end PixelFont
