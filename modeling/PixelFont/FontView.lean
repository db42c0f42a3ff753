import PixelFont.Font
import PixelFont.GlyphWalk

set_option autoImplicit false

namespace PixelFont

structure FontView where
  view : View
  table : OffsetTable
  firstGlyph : Nat
  deriving DecidableEq

namespace FontView

/-- Only the mark of the first glyph is looked at; a short header shows when it is read. -/
def ofBytes (bytes : List UInt8) (t : OffsetTable) : Except ReadFault FontView := do
  let firstGlyph ← t.markAt FontField.firstGlyph
  if bytes.length < firstGlyph then .error .outOfBounds
  else .ok ⟨{ bytes }, t, firstGlyph⟩

def size (f : FontView) : Except ReadFault UInt32 := f.view.unsigned f.table FontField.size

def characters (f : FontView) : Except ReadFault UInt32 :=
  f.view.unsigned f.table FontField.characters

def box (f : FontView) : Except ReadFault Box :=
  f.view.box f.table FontField.boxWidth FontField.boxHeight
    FontField.boxXOffset FontField.boxYOffset

def ascent (f : FontView) : Except ReadFault UInt32 := f.view.unsigned f.table FontField.ascent

def descent (f : FontView) : Except ReadFault UInt32 :=
  f.view.unsigned f.table FontField.descent

def header (f : FontView) : Except ReadFault FontHeader := do
  return { size := ← f.size, characters := ← f.characters, box := ← f.box,
           ascent := ← f.ascent, descent := ← f.descent }

def walk (f : FontView) : GlyphWalk :=
  { rest := (f.view.after? f.firstGlyph).getD {}, table := f.table }

def glyphs (f : FontView) : List (Except ReadFault GlyphView) := f.walk.items

/-- The first record with this code among the items of a walk. A fault met before it, in the walk
or in a code, is the answer. -/
def find (code : CharCode) :
    List (Except ReadFault GlyphView) → Except ReadFault (Option GlyphView)
  | [] => .ok none
  | .error e :: _ => .error e
  | .ok g :: items =>
    match g.code with
    | .error e => .error e
    | .ok c => if c = code then .ok (some g) else find code items

def glyph? (f : FontView) (code : CharCode) : Except ReadFault (Option GlyphView) :=
  find code f.glyphs

def glyphOrFirst (f : FontView) (code : CharCode) : Except ReadFault GlyphView := do
  match ← f.glyph? code with
  | some g => .ok g
  | none => f.glyphs.head?.getD (.error .noGlyphs)

def decode (f : FontView) (name copyright : String) : Except ReadFault Font := do
  let header ← f.header
  let glyphs ← f.glyphs.mapM fun item => item.bind GlyphView.decode
  return { name, header, copyright, glyphs }

def describe (f : FontView) : String :=
  "FontRef \x7b len: " ++ toString f.view.length ++ ", first_glyph: " ++ toString f.firstGlyph ++
    " \x7d"

end FontView
end PixelFont
