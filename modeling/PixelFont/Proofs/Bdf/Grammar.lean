import Mathlib.Data.List.Forall2
import PixelFont.Bdf

/-!
What a font source is, said of the text as a whole. Its lines are parted into glyphs and the lines
outside them; each line is known by its first word, and a value is found on the last of the lines
that give it. How the lines are read one after another has no part in it.
-/

set_option autoImplicit false

namespace PixelFont.Bdf

/-- The words of a line. The one at index 0 is its keyword; a word that is not there is empty. -/
def wordAt (line : List Char) (i : Nat) : List Char := (Text.words line).getD i []

/-- The line has this keyword, in letters of either case. -/
def names (k : Keyword) (line : List Char) : Bool := Text.sameWord k.text.toList (wordAt line 0)

def partsGlyphs (line : List Char) : Bool :=
  names .startChar line || names .bitmap line || names .endChar line

def number? (line : List Char) (i : Nat) : Option UInt32 :=
  (Text.unsigned? (wordAt line i)).bind fun n => toUInt32? n

def offset? (line : List Char) (i : Nat) : Option Int32 :=
  (Text.signed? (wordAt line i)).bind toInt32?

def box? (line : List Char) : Option Box := do
  return { width := ← number? line 1, height := ← number? line 2,
           xOffset := ← offset? line 3, yOffset := ← offset? line 4 }

def advance? (line : List Char) : Option Advance := do
  return { x := ← number? line 1, y := ← number? line 2 }

def code? (line : List Char) : Option CharCode :=
  if (wordAt line 1).length = 4 then
    ((Text.natural? 16 (wordAt line 1)).bind fun n => toUInt16? n).map CharCode.mk
  else none

def hasNumbers (line : List Char) : Keyword → Bool
  | .size | .fontAscent | .fontDescent | .chars => (number? line 1).isSome
  | .fontBoundingBox | .bbx => (box? line).isSome
  | .dWidth => (advance? line).isSome
  | _ => true

def Keyword.required : List Keyword := [.size, .fontBoundingBox, .fontAscent, .fontDescent, .chars]

def HeaderNumbers (line : List Char) : Prop :=
  ∀ k ∈ Keyword.required, names k line = true → hasNumbers line k = true

def MetricNumbers (line : List Char) : Prop :=
  ∀ k ∈ [Keyword.dWidth, .bbx], names k line = true → hasNumbers line k = true

/-- A row of pixels: hexadecimal digits, blanks around them or not, four pixels to each and enough
for the width. -/
def IsRow (width : UInt32) (line : List Char) : Prop :=
  (∀ c ∈ Text.trim line, (Text.digit? 16 c).isSome = true) ∧
    width.toNat ≤ 4 * (Text.trim line).length

/-- The pixel at an index of a row, where the leftmost pixel of a digit is its highest bit. -/
def pixelAt (digits : List Char) (x : Nat) : Bool :=
  ((digits[x / 4]?.bind (Text.digit? 16)).getD 0).testBit (3 - x % 4)

def pixels (width : UInt32) (line : List Char) : List Bool :=
  (List.range width.toNat).map (pixelAt (Text.trim line))

/-- The last of these lines with this keyword. -/
def latest? (k : Keyword) (lines : List (List Char)) : Option (List Char) :=
  (lines.filter (names k)).getLast?

/-- The lines of a glyph: the one that starts it, those before its rows, the one that announces
them, the rows, and the one that ends it. -/
structure Block where
  start : List Char
  inner : List (List Char)
  bitmap : List Char
  rows : List (List Char)
  stop : List Char
  deriving DecidableEq, Repr

namespace Block

def lines (b : Block) : List (List Char) := b.start :: (b.inner ++ b.bitmap :: (b.rows ++ [b.stop]))

def advance? (b : Block) : Option Advance := (latest? .dWidth b.inner).bind Bdf.advance?

def box? (b : Block) : Option Box := (latest? .bbx b.inner).bind Bdf.box?

structure WellFormed (b : Block) : Prop where
  start : names .startChar b.start = true
  code : (code? b.start).isSome = true
  inner : ∀ line ∈ b.inner, partsGlyphs line = false
  metrics : ∀ line ∈ b.inner, MetricNumbers line
  hasAdvance : ∃ line ∈ b.inner, names .dWidth line = true
  hasBox : ∃ line ∈ b.inner, names .bbx line = true
  bitmap : names .bitmap b.bitmap = true
  rows : ∀ box, b.box? = some box →
    b.rows.length = box.height.toNat ∧ ∀ row ∈ b.rows, IsRow box.width row
  stop : names .endChar b.stop = true

/-- The glyph that these lines give: its extent is the last one given, and its rows are cut to the
width of its box. -/
structure Gives (b : Block) (g : Glyph) : Prop where
  code : code? b.start = some g.code
  advance : b.advance? = some g.advance
  box : b.box? = some g.box
  rows : g.rows = b.rows.map (pixels g.box.width)

end Block

inductive Part where
  | outside (line : List Char)
  | glyph (block : Block)
  deriving DecidableEq, Repr

namespace Part

def lines : Part → List (List Char)
  | .outside line => [line]
  | .glyph b => b.lines

/-- The lines on which a header line may stand, outside a glyph or before its rows. -/
def unrowed : Part → List (List Char)
  | .outside line => [line]
  | .glyph b => b.inner

def block? : Part → Option Block
  | .outside _ => none
  | .glyph b => some b

/-- A line outside the glyphs neither starts nor ends a glyph nor its rows. -/
def Sound : Part → Prop
  | .outside line => partsGlyphs line = false
  | .glyph b => b.WellFormed

end Part

abbrev Parts := List Part

namespace Parts

def lines (ps : Parts) : List (List Char) := ps.flatMap Part.lines

def unrowed (ps : Parts) : List (List Char) := ps.flatMap Part.unrowed

def blocks (ps : Parts) : List Block := ps.filterMap Part.block?

structure WellFormed (ps : Parts) : Prop where
  sound : ∀ p ∈ ps, p.Sound
  header : ∀ line ∈ ps.unrowed, HeaderNumbers line
  required : ∀ k ∈ Keyword.required, ∃ line ∈ ps.unrowed, names k line = true

/-- What a source says whose parts are well formed: the value of each header line is the last one
given, and each block gives one glyph. -/
structure Says (ps : Parts) (b : Bdf) : Prop where
  size : (latest? .size ps.unrowed).bind (number? · 1) = some b.header.size
  box : (latest? .fontBoundingBox ps.unrowed).bind box? = some b.header.box
  ascent : (latest? .fontAscent ps.unrowed).bind (number? · 1) = some b.header.ascent
  descent : (latest? .fontDescent ps.unrowed).bind (number? · 1) = some b.header.descent
  characters : (latest? .chars ps.unrowed).bind (number? · 1) = some b.header.characters
  copyright : b.copyright =
    ((latest? .copyright ps.unrowed).map fun line => (Line.ofText line).notice).getD ""
  glyphs : List.Forall₂ Block.Gives ps.blocks b.glyphs

end Parts
end PixelFont.Bdf
