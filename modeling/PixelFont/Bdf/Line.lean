import PixelFont.Glyph
import PixelFont.Text

set_option autoImplicit false

namespace PixelFont.Bdf

/-- The keywords that matter. A line that starts with any other word is skipped. -/
inductive Keyword where
  | size
  | fontBoundingBox
  | fontAscent
  | fontDescent
  | copyright
  | chars
  | startChar
  | dWidth
  | bbx
  | bitmap
  | endChar
  deriving DecidableEq, Repr

namespace Keyword

def text : Keyword → String
  | .size => "SIZE"
  | .fontBoundingBox => "FONTBOUNDINGBOX"
  | .fontAscent => "FONT_ASCENT"
  | .fontDescent => "FONT_DESCENT"
  | .copyright => "COPYRIGHT"
  | .chars => "CHARS"
  | .startChar => "STARTCHAR"
  | .dWidth => "DWIDTH"
  | .bbx => "BBX"
  | .bitmap => "BITMAP"
  | .endChar => "ENDCHAR"

def all : List Keyword :=
  [.size, .fontBoundingBox, .fontAscent, .fontDescent, .copyright, .chars, .startChar, .dWidth,
   .bbx, .bitmap, .endChar]

def ofWord? (word : List Char) : Option Keyword :=
  all.find? fun k => Text.sameWord k.text.toList word

end Keyword

inductive LineFault where
  | missingField (keyword : Keyword)
  | badValue (keyword : Keyword) (found : String)
  | badCode (fault : CharCode.Fault)
  | notHex (row : String)
  | shortRow (width : UInt32) (found : Nat)
  | rowCount (code : CharCode) (height : UInt32) (found : Nat)
  | unexpected (keyword : Keyword)
  | unterminated
  deriving DecidableEq, Repr

def LineFault.message : LineFault → String
  | .missingField k => s!"missing required field {k.text}"
  | .badValue k found => s!"invalid value '{found}' for {k.text}"
  | .badCode e => s!"invalid glyph code: {e.message}"
  | .notHex row => s!"bitmap row '{row}' is not hex"
  | .shortRow width found => s!"bitmap row has {found} pixels, but the glyph is {width} wide"
  | .rowCount code height found =>
    s!"glyph {code.text} has {found} bitmap rows, but is {height} tall"
  | .unexpected k => s!"unexpected {k.text}"
  | .unterminated => "unterminated glyph at end of input"

structure Line where
  word : List Char
  rest : List Char
  deriving DecidableEq, Repr

namespace Line

def ofText (cs : List Char) : Line :=
  let (word, rest) := (Text.trimStart cs).span fun c => !Text.isBlank c
  ⟨word, Text.trim rest⟩

def keyword? (l : Line) : Option Keyword := Keyword.ofWord? l.word

def arguments (l : Line) : List (List Char) := Text.words l.rest

def argument (l : Line) (i : Nat) : List Char := l.arguments.getD i []

def unsigned (l : Line) (k : Keyword) (i : Nat) : Except LineFault UInt32 :=
  match (Text.unsigned? (l.argument i)).bind fun n => toUInt32? n with
  | some v => .ok v
  | none => .error (.badValue k (String.ofList (l.argument i)))

def signed (l : Line) (k : Keyword) (i : Nat) : Except LineFault Int32 :=
  match (Text.signed? (l.argument i)).bind toInt32? with
  | some v => .ok v
  | none => .error (.badValue k (String.ofList (l.argument i)))

def box (l : Line) (k : Keyword) : Except LineFault Box := do
  return { width := ← l.unsigned k 0, height := ← l.unsigned k 1,
           xOffset := ← l.signed k 2, yOffset := ← l.signed k 3 }

def advance (l : Line) (k : Keyword) : Except LineFault Advance := do
  return { x := ← l.unsigned k 0, y := ← l.unsigned k 1 }

def code (l : Line) : Except LineFault CharCode :=
  (CharCode.parse (l.argument 0)).mapError .badCode

/-- All that follows the keyword, less one quote at either end. -/
def notice (l : Line) : String :=
  let text := if l.rest.head? = some '"' then l.rest.tail else l.rest
  String.ofList (if text.getLast? = some '"' then text.dropLast else text)

end Line

def nibbleBits (n : Nat) : List Bool := [n.testBit 3, n.testBit 2, n.testBit 1, n.testBit 0]

def rowPixels (row : List Char) (width : UInt32) : Except LineFault (List Bool) :=
  match row.mapM (Text.digit? 16) with
  | none => .error (.notHex (String.ofList row))
  | some digits =>
    let pixels := digits.flatMap nibbleBits
    if pixels.length < width.toNat then .error (.shortRow width pixels.length)
    else .ok (pixels.take width.toNat)

end PixelFont.Bdf
