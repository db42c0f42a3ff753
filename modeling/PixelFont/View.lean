import PixelFont.OffsetTable

set_option autoImplicit false

namespace PixelFont

inductive ReadFault where
  | outOfBounds
  | missingField (name : String)
  /-- A value is asked of a mark. -/
  | untypedField (name : String)
  /-- The length field of the glyph at `position` is less than what stands before its pixels. -/
  | badLength (position length : Nat)
  | badValue (name : String) (value : Int)
  | noGlyphs
  | scalar (fault : IntFormat.Fault)
  deriving DecidableEq, Repr

def ReadFault.message : ReadFault → String
  | .outOfBounds => "An offset was out of bounds"
  | .missingField name => s!"the layout has no entry for '{name}'"
  | .untypedField name => s!"the layout entry for '{name}' has no type"
  | .badLength p n => s!"glyph at offset {p} has invalid length {n}"
  | .badValue name v => s!"invalid value {v} for '{name}'"
  | .noGlyphs => "the font contains no glyphs"
  | .scalar e => e.message

inductive Bound where
  | unbounded
  | included (n : Nat)
  | excluded (n : Nat)
  deriving DecidableEq, Repr

def Bound.first : Bound → Nat
  | .unbounded => 0
  | .included n => n
  | .excluded n => n + 1

def Bound.stop (length : Nat) : Bound → Nat
  | .unbounded => length
  | .included n => n + 1
  | .excluded n => n

structure View where
  position : Nat := 0
  bytes : List UInt8 := []
  deriving DecidableEq, Repr

namespace View

def length (v : View) : Nat := v.bytes.length

def part? (v : View) (start stop : Nat) : Option View :=
  if start ≤ stop ∧ stop ≤ v.length then
    some ⟨v.position + start, (v.bytes.drop start).take (stop - start)⟩
  else none

theorem part?_eq_some_iff {v w : View} {start stop : Nat} :
    v.part? start stop = some w ↔ start ≤ stop ∧ stop ≤ v.length ∧
      w = ⟨v.position + start, (v.bytes.drop start).take (stop - start)⟩ := by
  unfold part?
  split
  · next h => simp [h, eq_comm]
  · next h => simp only [reduceCtorEq, false_iff]; exact fun h' => h ⟨h'.1, h'.2.1⟩

def slice? (v : View) (lo hi : Bound) : Option View := v.part? lo.first (hi.stop v.length)

def after? (v : View) (start : Nat) : Option View := v.slice? (.included start) .unbounded

def read (v : View) (offset : Nat) (f : IntFormat) : Except ReadFault Int :=
  match v.slice? (.included offset) (.excluded (offset + f.bytes)) with
  | none => .error .outOfBounds
  | some field => (f.decode field.bytes).mapError .scalar

def field (v : View) (t : OffsetTable) (name : String) : Except ReadFault Int :=
  match t.get? name with
  | none => .error (.missingField name)
  | some ⟨_, none⟩ => .error (.untypedField name)
  | some ⟨offset, some f⟩ => v.read offset f

end View
end PixelFont
