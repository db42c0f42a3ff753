import PixelFont.Proofs.GlyphView

set_option autoImplicit false

namespace PixelFont

/-- The bit with this index, counted from the most significant one of the first byte. No bit is set
after the last byte. -/
def bitAt (bs : List UInt8) (i : Nat) : Bool := (bs.getD (i / 8) 0).toNat.testBit (7 - i % 8)

/-- The bytes with all bits cleared from the one with index `n` on. -/
def clearFrom (n : Nat) (bs : List UInt8) : List UInt8 :=
  bs.mapIdx fun i b => b &&& UInt8.ofNat (0xFF <<< (8 - (n - 8 * i)))

theorem bitAt_eq_getD (bs : List UInt8) (i : Nat) : bitAt bs i = (unpackBits bs).getD i false := by
  rw [List.getD_eq_getElem?_getD, getElem?_unpackBits, bitAt, List.getD_eq_getElem?_getD]
  cases bs[i / 8]? <;> simp

theorem eq_of_bitAt {as bs : List UInt8} (hl : as.length = bs.length)
    (h : ∀ i, bitAt as i = bitAt bs i) : as = bs := by
  apply unpackBits_injective
  refine List.ext_getElem (by simp [hl]) fun i ha hb => ?_
  have hi := h i
  rwa [bitAt_eq_getD, bitAt_eq_getD, List.getD_eq_getElem?_getD, List.getD_eq_getElem?_getD,
    List.getElem?_eq_getElem ha, List.getElem?_eq_getElem hb] at hi

theorem bitAt_take {n : Nat} (bs : List UInt8) {i : Nat} (h : i / 8 < n) :
    bitAt (bs.take n) i = bitAt bs i := by
  simp [bitAt, List.getD_eq_getElem?_getD, h]

theorem bitAt_clearFrom (n : Nat) (bs : List UInt8) (i : Nat) :
    bitAt (clearFrom n bs) i = (decide (i < n) && bitAt bs i) := by
  have hmask : (UInt8.ofNat (0xFF <<< (8 - (n - 8 * (i / 8))))).toNat.testBit (7 - i % 8) =
      decide (i < n) := by
    rw [UInt8.toNat_ofNat', Nat.testBit_mod_two_pow, Nat.testBit_shiftLeft,
      show (0xFF : Nat) = 2 ^ 8 - 1 from rfl, Nat.testBit_two_pow_sub_one]
    simp only [← Bool.decide_and, ge_iff_le, decide_eq_decide]
    omega
  rw [bitAt, bitAt, clearFrom, List.getD_eq_getElem?_getD, List.getD_eq_getElem?_getD,
    List.getElem?_mapIdx]
  cases bs[i / 8]? with
  | none => simp
  | some b =>
    rw [Option.map_some, Option.getD_some, Option.getD_some, UInt8.toNat_and, Nat.testBit_and,
      hmask, Bool.and_comm]

namespace Bitmap

theorem bitAt_pack (rows : Bitmap) (i : Nat) : bitAt rows.pack i = rows.flatten.getD i false := by
  rw [bitAt_eq_getD, pack, unpackBits_packBits, List.getD_eq_getElem?_getD,
    List.getD_eq_getElem?_getD, List.getElem?_append]
  split
  · rfl
  · next h =>
    -- the rows have ended, and what fills up the last byte is unset
    rw [List.getElem?_eq_none (Nat.le_of_not_lt h), List.getElem?_replicate]
    split <;> rfl

theorem unpack_eq_ofPixels (width height : Nat) (bs : List UInt8) :
    unpack width height bs = ofPixels width height fun x y => bitAt bs (y * width + x) := by
  simp only [unpack, bitAt_eq_getD, Array.getD_eq_getD_getElem?, List.getD_eq_getElem?_getD,
    List.getElem?_toArray]

theorem getElem?_unpack {width height x y : Nat} (bs : List UInt8) (hx : x < width)
    (hy : y < height) :
    ((unpack width height bs)[y]?.bind (·[x]?)) = some (bitAt bs (y * width + x)) := by
  simp [unpack_eq_ofPixels, ofPixels, hx, hy]

theorem pack_unpack_eq_clearFrom {width height : Nat} {bs : List UInt8}
    (h : width * height ≤ 8 * bs.length) :
    (unpack width height bs).pack =
      clearFrom (width * height) (bs.take (bytesFor (width * height))) := by
  have hlength := length_flatten (hasShape_unpack width height bs)
  apply eq_of_bitAt
  · rw [pack, length_packBits, hlength]
    simp [clearFrom, bytesFor]
    omega
  · intro i
    rw [bitAt_pack, flatten_unpack h, bitAt_clearFrom, List.getD_eq_getElem?_getD,
      List.getElem?_take]
    by_cases hi : i < width * height
    · have hbyte : i / 8 < bytesFor (width * height) := by
        unfold bytesFor
        omega
      rw [if_pos hi, decide_eq_true hi, Bool.true_and, bitAt_take bs hbyte, bitAt_eq_getD,
        List.getD_eq_getElem?_getD]
    · simp [hi]

end Bitmap

namespace GlyphView

variable {v : View} {t : OffsetTable} {g : GlyphView}

theorem exists_packed_of_ofHead (h : ofHead v t = .ok g) :
    ∃ head, t.offset? GlyphField.bitmap = some head ∧ head ≤ g.length ∧
      g.packed = .ok (g.view.bytes.drop head) := by
  obtain ⟨length, head, -, hhead, hle, hl, rfl⟩ := ofHead_eq_ok_iff_room.mp h
  have hlength : View.length ⟨v.position, v.bytes.take length.toNat⟩ = length.toNat :=
    List.length_take_of_le hl
  refine ⟨head, hhead, Nat.le_trans hle (Nat.le_of_eq hlength.symm), ?_⟩
  have hmark := OffsetTable.markAt_eq_ok_iff.mpr hhead
  simp [packed, hmark, View.after?_eq, hlength, hle, bind, Except.bind]

theorem exists_rows_iff {b : Box} {packed : List UInt8} (hb : g.box = .ok b)
    (hp : g.packed = .ok packed) :
    (∃ rows, g.rows = .ok rows) ↔ b.pixels ≤ 8 * packed.length := by
  simp only [rows_eq_ok_iff hb, hp, Except.ok.injEq, exists_eq_left', exists_and_left, exists_eq,
    and_true]
  omega

theorem rows_eq_unpack {b : Box} {packed : List UInt8} {rows : Bitmap} (hb : g.box = .ok b)
    (hp : g.packed = .ok packed) (h : g.rows = .ok rows) :
    rows = .unpack b.width.toNat b.height.toNat packed := by
  obtain ⟨bs, hbs, -, rfl⟩ := (rows_eq_ok_iff hb).mp h
  rw [hp] at hbs
  rw [Except.ok.inj hbs]

end GlyphView

namespace Bitmap

/-- Rows of any lengths are packed bit by bit. A record that is read by any table gives pixels if
and only if there is a bit for each, and then these bits, whatever follows. So unpacking undoes
packing, and packing what was unpacked clears the bits that no pixel takes. -/
theorem pack_inverse_unpack :
    (∀ rows : Bitmap, rows.pack.length = bytesFor rows.flatten.length ∧
      ∀ i, bitAt rows.pack i = rows.flatten.getD i false) ∧
    (∀ (v : View) (t : OffsetTable) (g : GlyphView) (b : Box),
      GlyphView.ofHead v t = .ok g → g.box = .ok b →
      ∃ head, t.offset? GlyphField.bitmap = some head ∧ head ≤ g.length ∧
        let packed := g.view.bytes.drop head
        ((∃ rows, g.rows = .ok rows) ↔
          b.width.toNat * b.height.toNat ≤ 8 * packed.length) ∧
        ∀ rows, g.rows = .ok rows → rows.HasShape b.width.toNat b.height.toNat ∧
          ∀ y < b.height.toNat, ∀ x < b.width.toNat,
            (rows[y]?.bind (·[x]?)) = some (bitAt packed (y * b.width.toNat + x))) ∧
    (∀ (rows : Bitmap) (width height : Nat), rows.HasShape width height →
      ∀ rest, unpack width height (rows.pack ++ rest) = rows) ∧
    ∀ (width height : Nat) (bs : List UInt8), width * height ≤ 8 * bs.length →
      (unpack width height bs).pack =
        clearFrom (width * height) (bs.take (bytesFor (width * height))) := by
  refine ⟨fun rows => ⟨length_packBits _, bitAt_pack rows⟩, ?_, fun _ _ _ => unpack_pack,
    fun _ _ _ => pack_unpack_eq_clearFrom⟩
  intro v t g b hg hb
  obtain ⟨head, hhead, hle, hpacked⟩ := GlyphView.exists_packed_of_ofHead hg
  refine ⟨head, hhead, hle, GlyphView.exists_rows_iff hb hpacked, fun rows hrows => ?_⟩
  obtain rfl := GlyphView.rows_eq_unpack hb hpacked hrows
  exact ⟨hasShape_unpack _ _ _, fun y hy x hx => getElem?_unpack _ hx hy⟩

theorem pack_inverse_unpack_surplus :
    let t := OffsetTable.ofEntries [(GlyphField.bytes, ⟨0, some .u8⟩),
      (GlyphField.boxWidth, ⟨1, some .u8⟩), (GlyphField.boxHeight, ⟨2, some .u8⟩),
      (GlyphField.boxXOffset, ⟨0, some .i8⟩), (GlyphField.boxYOffset, ⟨1, some .i8⟩),
      (GlyphField.bitmap, ⟨3, none⟩)]
    let g : GlyphView := ⟨⟨0, [6, 3, 3, 0xB6, 0xFF, 7]⟩, t⟩
    let rows : Bitmap := [[true, false, true], [true, false, true], [true, false, true]]
    GlyphView.ofHead ⟨0, [6, 3, 3, 0xB6, 0xFF, 7, 1]⟩ t = .ok g ∧ g.box = .ok ⟨3, 3, 6, 3⟩ ∧
      g.rows = .ok rows ∧ rows[2]?.bind (·[2]?) = some (bitAt [0xB6, 0xFF, 7] 8) ∧
      rows.HasShape 3 3 ∧ unpack 3 3 (rows.pack ++ [0xFF]) = rows ∧
      3 * 3 ≤ 8 * [0xB6, 0xFF, 7].length ∧
      (unpack 3 3 [0xB6, 0xFF, 7]).pack = clearFrom 9 [0xB6, 0xFF] := by
  intro t g rows
  have hg : GlyphView.ofHead ⟨0, [6, 3, 3, 0xB6, 0xFF, 7, 1]⟩ t = .ok g := by decide +kernel
  have hb : g.box = .ok ⟨3, 3, 6, 3⟩ := by decide +kernel
  have hrows : g.rows = .ok rows := by decide +kernel
  have hcount : 3 * 3 ≤ 8 * [0xB6, 0xFF, 7].length := by decide
  obtain ⟨-, hread, hunpack, hpack⟩ := pack_inverse_unpack
  obtain ⟨head, hhead, -, -, hpixels⟩ := hread _ t g _ hg hb
  obtain rfl : 3 = head := Option.some.inj hhead
  obtain ⟨hshape, hpixel⟩ := hpixels rows hrows
  exact ⟨hg, hb, hrows, hpixel 2 (by decide) 2 (by decide), hshape, hunpack rows 3 3 hshape _,
    hcount, hpack 3 3 [0xB6, 0xFF, 7] hcount⟩

end Bitmap
end PixelFont
