import PixelFont.GlyphView

/-!
The walk over the glyph records of a font. Each record's length says where the next one starts;
the walk ends with the data or after its first fault.
-/

set_option autoImplicit false

namespace PixelFont

structure GlyphWalk where
  rest : View
  table : OffsetTable
  failed : Bool := false
  deriving DecidableEq

namespace GlyphWalk

def next? (w : GlyphWalk) : Option (Except ReadFault GlyphView × GlyphWalk) :=
  if w.failed || w.rest.bytes.isEmpty then none
  else match GlyphView.ofHead w.rest w.table with
    | .ok g => some (.ok g, { w with rest := (w.rest.after? g.length).getD {} })
    | .error e => some (.error e, { w with failed := true })

def take : Nat → GlyphWalk → List (Except ReadFault GlyphView) × GlyphWalk
  | 0, w => ([], w)
  | n + 1, w =>
    match w.next? with
    | none => ([], w)
    | some (item, w) =>
      let (items, w) := take n w
      (item :: items, w)

/-- All items. A record of no bytes would come again for ever, so the list ends with it. -/
def items (w : GlyphWalk) : List (Except ReadFault GlyphView) :=
  match w.next? with
  | none => []
  | some (.error e, _) => [.error e]
  | some (.ok g, after) =>
    if _ : after.rest.length < w.rest.length then .ok g :: items after else [.ok g]
  termination_by w.rest.length

end GlyphWalk
end PixelFont
