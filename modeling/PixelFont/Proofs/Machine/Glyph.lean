import Mathlib.Data.Nat.Bitwise
import PixelFont.Proofs.GlyphView
import PixelFont.Proofs.Machine.Field

set_option autoImplicit false

namespace PixelFont.Machine

namespace GlyphView

def ofHead (v : View) (t : OffsetTable) : Run ReadFault GlyphView := do
  let length := (← unsigned v t GlyphField.bytes).toNat
  let head ← Run.of (t.markAt GlyphField.bitmap)
  if length < head then throw (.badLength v.position length)
  else match before? v length with
    | some record => return ⟨record, t⟩
    | none => throw .outOfBounds

def code (g : GlyphView) : Run ReadFault CharCode := do
  let word ← unsigned g.view g.table GlyphField.code
  match toUInt16? word.toNat with
  | some value => return ⟨value⟩
  | none => throw (.badValue GlyphField.code word.toNat)

def advance (g : GlyphView) : Run ReadFault Advance := do
  return { x := ← unsigned g.view g.table GlyphField.advanceX,
           y := ← unsigned g.view g.table GlyphField.advanceY }

def box (g : GlyphView) : Run ReadFault Box :=
  Machine.box g.view g.table GlyphField.boxWidth GlyphField.boxHeight
    GlyphField.boxXOffset GlyphField.boxYOffset

def packed (g : GlyphView) : Run ReadFault (List UInt8) := do
  match after? g.view (← Run.of (g.table.markAt GlyphField.bitmap)) with
  | some v => return v.bytes
  | none => throw .outOfBounds

def pixel (packed : List UInt8) (width x y : Nat) : Checked Bool := do
  let bit ← add 64 (← mul 64 y width) x
  let byte ← index packed (bit / 8)
  let mask ← shiftRight 8 0x80 (bit % 8)
  return byte.toNat &&& mask != 0

def unpack (width height : Nat) (packed : List UInt8) : Checked Bitmap :=
  (List.range height).mapM fun y => (List.range width).mapM fun x => pixel packed width x y

def rows (g : GlyphView) : Run ReadFault Bitmap := do
  let box ← box g
  let packed ← packed g
  let bits ← mul 64 packed.length 8
  let pixels ← mul 64 box.width.toNat box.height.toNat
  if bits < pixels then throw .outOfBounds
  else unpack box.width.toNat box.height.toNat packed

section Pixels

theorem and_shiftRight_ne_zero (n : Nat) {i : Nat} (hi : i < 8) :
    (n &&& 0x80 >>> i != 0) = n.testBit (7 - i) := by
  have hmask : ∀ i < 8, 0x80 >>> i = 2 ^ (7 - i) := by decide
  rw [hmask i hi, Nat.and_two_pow]
  cases n.testBit (7 - i) <;> simp

variable {packed : List UInt8} {width height : Nat} (hp : packed.length < 2 ^ 61)
  (hb : width * height ≤ packed.length * 8)
include hp hb

/-- The bytes that the pixels are in have been counted before. -/
theorem pixel_eq {x y : Nat} (hx : x < width) (hy : y < height) :
    pixel packed width x y = .ok ((unpackBits packed).toArray.getD (y * width + x) false) := by
  have hrow : y * width + width ≤ height * width := by
    rw [← Nat.succ_mul]
    exact Nat.mul_le_mul_right width hy
  have hbit : y * width + x < packed.length * 8 := by
    rw [Nat.mul_comm height] at hrow
    omega
  have hbyte : (y * width + x) / 8 < packed.length := by omega
  have hmod : (y * width + x) % 8 < 8 := Nat.mod_lt _ (by decide)
  rw [pixel, mul_eq (by omega), ok_bind, add_eq (by omega), ok_bind, index_eq hbyte, ok_bind,
    shiftRight_eq hmod, ok_bind, and_shiftRight_ne_zero _ hmod]
  simp [Array.getD_eq_getD_getElem?, getElem?_unpackBits, List.getElem?_eq_getElem hbyte]
  rfl

theorem unpack_eq : unpack width height packed = .ok (.unpack width height packed) := by
  rw [unpack, Bitmap.unpack, Bitmap.ofPixels]
  refine mapM_eq_map fun y hy => mapM_eq_map fun x hx => ?_
  exact pixel_eq hp hb (List.mem_range.mp hx) (List.mem_range.mp hy)

end Pixels

theorem ofHead_eq {v : View} (h : Small v) (t : OffsetTable) :
    ofHead v t = .of (PixelFont.GlyphView.ofHead v t) := by
  rw [ofHead, PixelFont.GlyphView.ofHead, unsigned_eq h]
  refine Run.bind_of fun word _ => Run.bind_of fun head _ => ?_
  split
  · rfl
  · rw [before?_eq h]
    cases v.slice? .unbounded (.excluded word.toNat) <;> rfl

theorem exists_take_of_ofHead {v : View} {t : OffsetTable} {g : GlyphView}
    (hg : PixelFont.GlyphView.ofHead v t = .ok g) :
    ∃ n ≤ v.length, g.view = ⟨v.position, v.bytes.take n⟩ := by
  obtain ⟨length, _, -, -, -, hle, rfl⟩ := PixelFont.GlyphView.ofHead_eq_ok_iff_room.mp hg
  exact ⟨length.toNat, hle, rfl⟩

theorem small_of_ofHead {v : View} (h : Small v) {t : OffsetTable} {g : GlyphView}
    (hg : PixelFont.GlyphView.ofHead v t = .ok g) : Small g.view := by
  obtain ⟨n, hn, hview⟩ := exists_take_of_ofHead hg
  have h : v.position + v.length < 2 ^ 61 := h
  rw [hview]
  show v.position + (v.bytes.take n).length < 2 ^ 61
  rw [List.length_take_of_le hn]
  omega

structure Safe (g : GlyphView) : Prop where
  code : code g = .of g.code
  advance : advance g = .of g.advance
  box : box g = .of g.box
  packed : packed g = .of g.packed
  rows : rows g = .of g.rows

section Accessors

variable {g : GlyphView} (h : Small g.view)
include h

theorem code_eq : code g = .of g.code := by
  rw [code, PixelFont.GlyphView.code, unsigned_eq h]
  refine Run.bind_of fun word _ => ?_
  cases toUInt16? word.toNat <;> rfl

theorem advance_eq : advance g = .of g.advance := by
  rw [advance, unsigned_eq h, unsigned_eq h]
  exact Run.bind_of fun _ _ => Run.bind_of fun _ _ => rfl

theorem packed_eq : packed g = .of g.packed := by
  rw [packed, PixelFont.GlyphView.packed]
  refine Run.bind_of fun start _ => ?_
  rw [after?_eq h]
  cases g.view.after? start <;> rfl

theorem length_packed {bs : List UInt8} (hbs : g.packed = .ok bs) : bs.length < 2 ^ 61 := by
  simp only [PixelFont.GlyphView.packed, bind_eq_ok_iff] at hbs
  obtain ⟨start, -, hbs⟩ := hbs
  split at hbs
  · next v hv =>
    obtain rfl := Except.ok.inj hbs
    have hv : v.position + v.length < 2 ^ 61 := h.part? hv
    exact Nat.lt_of_le_of_lt (Nat.le_add_left _ _) hv
  · cases hbs

theorem rows_eq : rows g = .of g.rows := by
  rw [rows, PixelFont.GlyphView.rows, box, box_eq h, packed_eq h]
  refine Run.bind_of fun b _ => Run.bind_of fun bs hbs => ?_
  have hbs := length_packed h hbs
  have hpixels : b.width.toNat * b.height.toNat < 2 ^ 32 * 2 ^ 32 :=
    Nat.mul_lt_mul'' b.width.toNat_lt b.height.toNat_lt
  rw [mul_eq (by omega), mul_eq hpixels, Run.lift_ok, pure_bind, Run.lift_ok, pure_bind]
  show (if bs.length * 8 < b.pixels then _ else _) =
    Run.of (if bs.length * 8 < b.pixels then _ else _)
  by_cases hb : bs.length * 8 < b.pixels
  · rw [if_pos hb, if_pos hb, Run.of_error]
  · rw [if_neg hb, if_neg hb, unpack_eq hbs (Nat.le_of_not_lt hb)]
    rfl

theorem safe : Safe g where
  code := code_eq h
  advance := advance_eq h
  box := box_eq h _ _ _ _ _
  packed := packed_eq h
  rows := rows_eq h

end Accessors

end GlyphView
end PixelFont.Machine
