import PixelFont.Bdf.Line
import PixelFont.Font

/-!
Font sources in the Glyph Bitmap Distribution Format. A source is read line by line: a line is
taken by its keyword until `BITMAP`, and as a row of pixels from there to `ENDCHAR`. Every line
whose keyword is not known is skipped.
-/

set_option autoImplicit false

namespace PixelFont

structure Bdf where
  header : FontHeader
  copyright : String
  glyphs : List Glyph
  deriving DecidableEq, Repr

def Font.ofBdf (name : String) (b : Bdf) : Except CompileFault Font :=
  Font.make name b.header b.copyright b.glyphs

namespace Bdf

structure ParseFault where
  line : Nat
  cause : LineFault
  deriving DecidableEq, Repr

def ParseFault.message (e : ParseFault) : String := s!"line {e.line}: {e.cause.message}"

inductive Event where
  | glyphStarts (code : CharCode) (line : Nat)
  | glyphEnds (code : CharCode) (line : Nat)
  | ignored (word : String) (line : Nat)
  | countDiffers (declared : UInt32) (found : Nat)
  | parsed (glyphs : Nat) (size : UInt32)
  deriving DecidableEq, Repr

def Event.logLine : Event → LogLine
  | .glyphStarts code n => ⟨.trace, s!"glyph {code.text} starts on line {n}"⟩
  | .glyphEnds code n => ⟨.trace, s!"glyph {code.text} ends on line {n}"⟩
  | .ignored word n => ⟨.debug, s!"ignoring {word} outside of a glyph on line {n}"⟩
  | .countDiffers declared found =>
    ⟨.warning, s!"font declares {declared} characters but defines {found}"⟩
  | .parsed glyphs size => ⟨.debug, s!"parsed {glyphs} glyphs at size {size}"⟩

structure OpenGlyph where
  code : CharCode
  line : Nat
  advance : Option Advance := none
  box : Option Box := none
  deriving DecidableEq, Repr

structure RowGlyph where
  code : CharCode
  line : Nat
  advance : Advance
  box : Box
  rows : Array (List Bool) := #[]
  deriving DecidableEq, Repr

inductive Mode where
  | outside
  | inGlyph (glyph : OpenGlyph)
  | inRows (glyph : RowGlyph)
  deriving DecidableEq, Repr

/-- What has been read so far. A header line that comes again replaces the earlier one. -/
structure Scan where
  size : Option UInt32 := none
  box : Option Box := none
  ascent : Option UInt32 := none
  descent : Option UInt32 := none
  copyright : Option String := none
  characters : Option UInt32 := none
  glyphs : Array Glyph := #[]
  mode : Mode := .outside
  deriving DecidableEq, Repr

namespace Scan

def row (s : Scan) (g : RowGlyph) (n : Nat) (text : List Char) :
    Except LineFault (Scan × Option Event) := do
  if (Line.ofText text).keyword? = some .endChar then
    if g.rows.size ≠ g.box.height.toNat then
      throw (.rowCount g.code g.box.height g.rows.size)
    let glyph : Glyph := ⟨g.code, g.advance, g.box, g.rows.toList⟩
    return ({ s with glyphs := s.glyphs.push glyph, mode := .outside }, some (.glyphEnds g.code n))
  else
    let pixels ← rowPixels (Text.trim text) g.box.width
    return ({ s with mode := .inRows { g with rows := g.rows.push pixels } }, none)

def open? (s : Scan) : Option OpenGlyph :=
  match s.mode with
  | .inGlyph g => some g
  | _ => none

/-- A line with a known keyword that is not in a bitmap. `DWIDTH` and `BBX` count only in a glyph;
their arguments are not looked at elsewhere. -/
def keyword (s : Scan) (n : Nat) (l : Line) : Keyword → Except LineFault (Scan × Option Event)
  | .size => do return ({ s with size := ← l.unsigned .size 0 }, none)
  | .fontBoundingBox => do return ({ s with box := ← l.box .fontBoundingBox }, none)
  | .fontAscent => do return ({ s with ascent := ← l.unsigned .fontAscent 0 }, none)
  | .fontDescent => do return ({ s with descent := ← l.unsigned .fontDescent 0 }, none)
  | .copyright => return ({ s with copyright := l.notice }, none)
  | .chars => do return ({ s with characters := ← l.unsigned .chars 0 }, none)
  | .startChar => do
    if s.open?.isSome then throw (.unexpected .startChar)
    let code ← l.code
    return ({ s with mode := .inGlyph { code, line := n } }, some (.glyphStarts code n))
  | .dWidth =>
    match s.open? with
    | none => return (s, some (.ignored (String.ofList l.word) n))
    | some g => do
      return ({ s with mode := .inGlyph { g with advance := ← l.advance .dWidth } }, none)
  | .bbx =>
    match s.open? with
    | none => return (s, some (.ignored (String.ofList l.word) n))
    | some g => do return ({ s with mode := .inGlyph { g with box := ← l.box .bbx } }, none)
  | .bitmap =>
    match s.open? with
    | none => throw (.unexpected .bitmap)
    | some g =>
      match g.box, g.advance with
      | none, _ => throw (.missingField .bbx)
      | _, none => throw (.missingField .dWidth)
      | some box, some advance =>
        return ({ s with mode := .inRows { code := g.code, line := g.line, advance, box } }, none)
  | .endChar => throw (if s.open?.isSome then .missingField .bitmap else .unexpected .endChar)

def step (s : Scan) (n : Nat) (text : List Char) : Except LineFault (Scan × Option Event) :=
  match s.mode with
  | .inRows g => s.row g n text
  | _ =>
    let l := Line.ofText text
    match l.keyword? with
    | some k => s.keyword n l k
    | none => .ok (s, none)

def steps (s : Scan) (n : Nat) (log : Array Event) :
    List (List Char) → Array Event × Except ParseFault Scan
  | [] => (log, .ok s)
  | text :: texts =>
    match s.step n text with
    | .error e => (log, .error ⟨n, e⟩)
    | .ok (s, event) => steps s (n + 1) (log ++ event.toArray) texts

/-- A field that a source cannot do without, reported on its last line. -/
def required {α : Type} (last : Nat) (k : Keyword) : Option α → Except ParseFault α
  | some a => .ok a
  | none => .error ⟨last, .missingField k⟩

def contents (s : Scan) (last : Nat) : Except ParseFault Bdf := do
  match s.mode with
  | .outside => pure ()
  | .inGlyph g => throw ⟨g.line, .unterminated⟩
  | .inRows g => throw ⟨g.line, .unterminated⟩
  let size ← required last .size s.size
  let box ← required last .fontBoundingBox s.box
  let ascent ← required last .fontAscent s.ascent
  let descent ← required last .fontDescent s.descent
  let characters ← required last .chars s.characters
  return { header := { size, characters, box, ascent, descent }
           copyright := s.copyright.getD "", glyphs := s.glyphs.toList }

end Scan

def lastEvents (b : Bdf) : List Event :=
  let found := b.glyphs.length
  (if found = b.header.characters.toNat then [] else [.countDiffers b.header.characters found]) ++
    [.parsed found b.header.size]

/-- A source's contents, with what is worth logging on the way. An empty text is taken to have
one line. -/
def read (text : String) : List Event × Except ParseFault Bdf :=
  let lines := Text.lines text.toList
  match Scan.steps {} 1 #[] lines with
  | (events, .error e) => (events.toList, .error e)
  | (events, .ok s) =>
    match s.contents (max 1 lines.length) with
    | .error e => (events.toList, .error e)
    | .ok b => (events.toList ++ b.lastEvents, .ok b)

def parse (text : String) : Except ParseFault Bdf := (read text).2

end Bdf
end PixelFont
