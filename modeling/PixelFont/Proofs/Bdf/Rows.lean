import PixelFont.Proofs.Bdf.Run
import PixelFont.Proofs.Hex
import PixelFont.Proofs.Pixels

set_option autoImplicit false

namespace PixelFont

namespace Hex

theorem unpackBits_eq_flatMap_halves (bs : List UInt8) :
    unpackBits bs = (halves bs).flatMap Bdf.nibbleBits := by
  have hbyte (b : UInt8) :
      bitsOf b = Bdf.nibbleBits (b.toNat / 16) ++ Bdf.nibbleBits (b.toNat % 16) := by
    have hhigh (i : Nat) : (b.toNat / 16).testBit i = b.toNat.testBit (i + 4) := by
      rw [show (16 : Nat) = 2 ^ 4 from rfl, Nat.testBit_div_two_pow]
    have hlow (i : Nat) (hi : i < 4) : (b.toNat % 16).testBit i = b.toNat.testBit i := by
      rw [show (16 : Nat) = 2 ^ 4 from rfl, Nat.testBit_mod_two_pow, decide_eq_true hi,
        Bool.true_and]
    simp [bitsOf, List.range, List.range.loop, Bdf.nibbleBits, hhigh, hlow]
  rw [unpackBits, halves, List.flatMap_assoc, funext hbyte]
  rfl

end Hex

namespace Bdf

def hexDigits : List Char := "0123456789abcdefABCDEF".toList

theorem of_mem_hexDigits {p : Char → Bool} (hall : hexDigits.all p = true) {c : Char}
    (h : c ∈ hexDigits) : p c = true := List.all_eq_true.mp hall c h

theorem isSome_digit?_iff {c : Char} : (Text.digit? 16 c).isSome = true ↔ c ∈ hexDigits := by
  constructor
  · exact of_digit (p := (· ∈ hexDigits)) (by decide)
  · exact of_mem_hexDigits (p := fun c => (Text.digit? 16 c).isSome) (by decide)

theorem digitChar_digitValue {c : Char} (h : c ∈ hexDigits) :
    Nat.digitChar (digitValue c) = c.toLower :=
  beq_iff_eq.mp
    (of_mem_hexDigits (p := fun c => Nat.digitChar (digitValue c) == c.toLower) (by decide) h)

theorem digitValue_lt {c : Char} (h : c ∈ hexDigits) : digitValue c < 16 :=
  of_decide_eq_true (of_mem_hexDigits (p := fun c => decide (digitValue c < 16)) (by decide) h)

section Bits

theorem nibbleBits_injective {d e : Nat} (hd : d < 16) (he : e < 16)
    (h : nibbleBits d = nibbleBits e) : d = e := by
  have hall : ∀ d < 16, ∀ e < 16, nibbleBits d = nibbleBits e → d = e := by decide
  exact hall d hd e he h

theorem flatMap_nibbleBits_injective {ds es : List Nat} (hd : ∀ d ∈ ds, d < 16)
    (he : ∀ e ∈ es, e < 16) (h : ds.flatMap nibbleBits = es.flatMap nibbleBits) : ds = es := by
  induction ds generalizing es with
  | nil =>
    cases es with
    | nil => rfl
    | cons e es => simp [nibbleBits] at h
  | cons d ds ih =>
    cases es with
    | nil => simp [nibbleBits] at h
    | cons e es =>
      rw [List.forall_mem_cons] at hd he
      rw [List.flatMap_cons, List.flatMap_cons] at h
      obtain ⟨hde, hrest⟩ := List.append_inj h rfl
      rw [nibbleBits_injective hd.1 he.1 hde, ih hd.2 he.2 hrest]

theorem testBit_foldlM {cs : List Char} {m n : Nat}
    (h : cs.foldlM (fun n c => (Text.digit? 16 c).map (16 * n + ·)) m = some n) (i : Nat) :
    n.testBit i =
      if i < 4 * cs.length then pixelAt cs (4 * cs.length - 1 - i)
      else m.testBit (i - 4 * cs.length) := by
  induction cs generalizing m with
  | nil =>
    cases h
    simp
  | cons c cs ih =>
    rw [List.foldlM_cons] at h
    obtain ⟨next, hnext, hn⟩ := Option.bind_eq_some_iff.mp h
    obtain ⟨d, hd, rfl⟩ := Option.map_eq_some_iff.mp hnext
    rw [ih hn, List.length_cons]
    -- the digits after `c` decide the low bits, `c` the four above them
    by_cases hi : i < 4 * cs.length
    · rw [if_pos hi, if_pos (by omega), ← pixelAt_cons_add c cs]
      exact congrArg (pixelAt (c :: cs)) (by omega)
    · rw [if_neg hi, show 16 * m + d = 2 ^ 4 * m + d from rfl,
        Nat.testBit_two_pow_mul_add m (Text.digit?_lt hd)]
      by_cases hlast : i - 4 * cs.length < 4
      · rw [if_pos hlast, if_pos (by omega), pixelAt_cons_lt c cs (by omega), digitValue, hd]
        exact congrArg d.testBit (by omega)
      · rw [if_neg hlast, if_neg (by omega)]
        exact congrArg m.testBit (by omega)

/-- The pixels of a row are the bits of the number that it spells. -/
theorem testBit_natural? {row : List Char} {n x : Nat} (h : Text.natural? 16 row = some n)
    (hx : x < 4 * row.length) : n.testBit (4 * row.length - 1 - x) = pixelAt row x := by
  rw [Text.natural?] at h
  split at h
  · cases h
  · rw [testBit_foldlM h, if_pos (by omega)]
    exact congrArg (pixelAt row) (by omega)

end Bits

theorem map_pixelAt_take {row : List Char} {k : Nat} (h : k ≤ row.length) :
    (List.range (4 * k)).map (pixelAt row) = ((row.take k).map digitValue).flatMap nibbleBits := by
  rw [← map_pixelAt, List.length_take_of_le h]
  refine List.map_congr_left fun x hx => ?_
  have hx : x / 4 < k := by
    rw [List.mem_range] at hx
    omega
  rw [pixelAt, pixelAt, List.getElem?_take_of_lt hx]

def bitmapOf (w : UInt32) (rows : List (List Char)) : Bitmap :=
  rows.map fun row => (List.range w.toNat).map (pixelAt row)

theorem hasShape_bitmapOf (w : UInt32) (rows : List (List Char)) :
    (bitmapOf w rows).HasShape w.toNat rows.length := by
  simp [Bitmap.HasShape, bitmapOf]

theorem length_flatten_bitmapOf (w : UInt32) (rows : List (List Char)) :
    (bitmapOf w rows).flatten.length = rows.length * w.toNat := by
  rw [Bitmap.length_flatten (hasShape_bitmapOf w rows), Nat.mul_comm]

section Packed

variable {w : UInt32} {rows : List (List Char)}

theorem bitAt_pack_bitmapOf {x y : Nat} (hy : y < rows.length) (hx : x < w.toNat) :
    bitAt (bitmapOf w rows).pack (y * w.toNat + x) = pixelAt rows[y] x := by
  have hunpack := Bitmap.unpack_pack (hasShape_bitmapOf w rows) []
  have hbit := Bitmap.getElem?_unpack (bitmapOf w rows).pack hx hy
  rw [List.append_nil] at hunpack
  rw [hunpack] at hbit
  have hpixel : (bitmapOf w rows)[y]?.bind (·[x]?) = some (pixelAt rows[y] x) := by
    simp [bitmapOf, hx, hy]
  exact Option.some.inj (hbit.symm.trans hpixel)

theorem exists_bitAt_pack {x y : Nat} (hy : y < rows.length) (hx : x < w.toNat)
    (hhex : ∀ c ∈ rows[y], (Text.digit? 16 c).isSome = true)
    (hlong : w.toNat ≤ 4 * rows[y].length) :
    ∃ number, Text.natural? 16 rows[y] = some number ∧
      bitAt (bitmapOf w rows).pack (y * w.toNat + x) =
        number.testBit (4 * rows[y].length - 1 - x) := by
  have hne : rows[y] ≠ [] := List.ne_nil_of_length_pos (by omega)
  obtain ⟨number, hnumber⟩ :=
    Option.isSome_iff_exists.mp (Text.natural?_isSome_iff.mpr ⟨hne, hhex⟩)
  have hbit := testBit_natural? hnumber (Nat.lt_of_lt_of_le hx hlong)
  exact ⟨number, hnumber, (bitAt_pack_bitmapOf hy hx).trans hbit.symm⟩

theorem flatten_bitmapOf {k : Nat} (hw : w.toNat = 4 * k)
    (hlong : ∀ row ∈ rows, k ≤ row.length) :
    (bitmapOf w rows).flatten =
      ((rows.flatMap (·.take k)).map digitValue).flatMap nibbleBits := by
  rw [List.map_flatMap, List.flatMap_assoc, bitmapOf, ← List.flatMap_def]
  refine List.flatMap_congr fun row hrow => ?_
  rw [← map_pixelAt_take (hlong row hrow), hw]

theorem digits_pack_bitmapOf {k : Nat} (hw : w.toNat = 4 * k) (h8 : 8 ∣ w.toNat)
    (hlong : ∀ row ∈ rows, k ≤ row.length) (hhex : ∀ row ∈ rows, ∀ c ∈ row, c ∈ hexDigits) :
    Hex.digits (bitmapOf w rows).pack = (rows.flatMap (·.take k)).map Char.toLower := by
  have hkept : ∀ c ∈ rows.flatMap (·.take k), c ∈ hexDigits := by
    intro c hc
    obtain ⟨row, hrow, hc⟩ := List.mem_flatMap.mp hc
    exact hhex row hrow c (List.mem_of_mem_take hc)
  -- no bits fill up the last byte, so the bits of the bytes are the pixels and nothing else
  have hwhole : bytesFor (rows.length * w.toNat) * 8 - rows.length * w.toNat = 0 := by
    obtain ⟨n, hn⟩ := Nat.dvd_mul_left_of_dvd h8 rows.length
    rw [bytesFor]
    omega
  have hhalves :
      Hex.halves (bitmapOf w rows).pack = (rows.flatMap (·.take k)).map digitValue := by
    refine flatMap_nibbleBits_injective (fun _ => Hex.lt_of_mem_halves) ?_ ?_
    · intro d hd
      obtain ⟨c, hc, rfl⟩ := List.mem_map.mp hd
      exact digitValue_lt (hkept c hc)
    · rw [← Hex.unpackBits_eq_flatMap_halves, Bitmap.pack, unpackBits_packBits,
        length_flatten_bitmapOf, hwhole, List.replicate_zero, List.append_nil,
        flatten_bitmapOf hw hlong]
  rw [Hex.digits_eq_map_halves, hhalves, List.map_map]
  exact List.map_congr_left fun c hc => digitChar_digitValue (hkept c hc)

end Packed

/-- This row is refused so at this width, and between `BITMAP` and `ENDCHAR` each line that is this
row with blanks around it or not. -/
def RowRefused (w : UInt32) (row : List Char) (e : LineFault) : Prop :=
  rowPixels row w = .error e ∧
    ∀ (s : Scan) (g : RowGlyph) (n : Nat) (line : List Char), s.mode = .inRows g →
      g.box.width = w → Text.trim line = row → names .endChar line = false →
      s.step n line = .error e

theorem rowRefused_of_error {w : UInt32} {row : List Char} {e : LineFault}
    (h : rowPixels row w = .error e) : RowRefused w row e := by
  refine ⟨h, ?_⟩
  rintro s g n line hm rfl rfl hstop
  rw [Scan.step_inRows hm hstop, h]
  rfl

/-- Rows of enough digits are read, each as the leading bits of the number that it spells, and are
packed in this order with zeros after the last bit; where a row is whole bytes, these bytes are
spelled by its digits. A character that is no digit decides before the number of digits does. -/
theorem pack_hexRows (w : UInt32) :
    (∀ rows : List (List Char),
      (∀ row ∈ rows, (∀ c ∈ row, c ∈ hexDigits) ∧ (w.toNat + 3) / 4 ≤ row.length) →
      ∃ bitmap : Bitmap, rows.mapM (rowPixels · w) = .ok bitmap ∧
        (∀ (s : Scan) (g : RowGlyph) (n : Nat) (lines : List (List Char)), s.mode = .inRows g →
          g.box.width = w → lines.map Text.trim = rows →
          s.Reads n lines { s with
            mode := .inRows { g with rows := g.rows ++ bitmap.toArray } }) ∧
        (∀ y (hy : y < rows.length), ∀ x < w.toNat, ∃ number,
          Text.natural? 16 rows[y] = some number ∧
          bitAt bitmap.pack (y * w.toNat + x) = number.testBit (4 * rows[y].length - 1 - x)) ∧
        bitmap.pack.length = bytesFor (rows.length * w.toNat) ∧
        (∀ i ≥ rows.length * w.toNat, bitAt bitmap.pack i = false) ∧
        (8 ∣ w.toNat → Hex.digits bitmap.pack =
          (rows.flatMap (·.take (w.toNat / 4))).map Char.toLower)) ∧
    (∀ row, (∃ c ∈ row, c ∉ hexDigits) → RowRefused w row (.notHex (String.ofList row))) ∧
    ∀ row, (∀ c ∈ row, c ∈ hexDigits) → row.length < (w.toNat + 3) / 4 →
      RowRefused w row (.shortRow w (4 * row.length)) := by
  simp only [← isSome_digit?_iff]
  refine ⟨fun rows hrows => ?_, fun row hrow => ?_, fun row hhex hshort => ?_⟩
  · have hhex row (h : row ∈ rows) := (hrows row h).1
    have hlong (row : List Char) (h : row ∈ rows) : w.toNat ≤ 4 * row.length := by
      have := (hrows row h).2
      omega
    refine ⟨bitmapOf w rows, ?_, ?_, ?_, ?_, ?_, ?_⟩
    · rw [mapM_eq_ok_iff, bitmapOf, List.forall₂_map_right_iff, List.forall₂_same]
      intro row h
      rw [rowPixels_eq, if_pos (List.all_eq_true.mpr (hhex row h)), if_pos (hlong row h)]
    · rintro s g n lines hm rfl rfl
      have hrow (line : List Char) (hline : line ∈ lines) : IsRow g.box.width line :=
        ⟨hhex _ (List.mem_map_of_mem hline), hlong _ (List.mem_map_of_mem hline)⟩
      rw [bitmapOf, List.map_map]
      exact Scan.reads_rows hm hrow n
    · intro y hy x hx
      have hrow := List.getElem_mem hy
      exact exists_bitAt_pack hy hx (hhex _ hrow) (hlong _ hrow)
    · rw [Bitmap.pack, length_packBits, length_flatten_bitmapOf]
    · intro i hi
      rw [← length_flatten_bitmapOf] at hi
      rw [Bitmap.bitAt_pack, List.getD_eq_getElem?_getD, List.getElem?_eq_none hi]
      rfl
    · intro h8
      refine digits_pack_bitmapOf (by omega) h8 (fun row h => ?_)
        fun row h c hc => isSome_digit?_iff.mp (hhex row h c hc)
      have := hlong row h
      omega
  · obtain ⟨c, hc, hbad⟩ := hrow
    refine rowRefused_of_error ?_
    rw [rowPixels_eq, if_neg fun hhex => hbad (List.all_eq_true.mp hhex c hc)]
  · refine rowRefused_of_error ?_
    rw [rowPixels_eq, if_pos (List.all_eq_true.mpr hhex), if_neg (by omega)]

theorem pack_hexRows_cut :
    let rows := ["fA7".toList, "0b".toList]
    (∃ bitmap : Bitmap, rows.mapM (rowPixels · 8) = .ok bitmap ∧
      bitAt bitmap.pack (1 * 8 + 6) = Nat.testBit 0x0b 1 ∧
      Hex.digits bitmap.pack = "fa0b".toList) ∧
    (∃ bitmap : Bitmap, rows.mapM (rowPixels · 5) = .ok bitmap ∧
      bitAt bitmap.pack (1 * 5 + 4) = Nat.testBit 0x0b 3 ∧ bitmap.pack.length = 2 ∧
      bitAt bitmap.pack 10 = false) ∧
    RowRefused 5 "F 8".toList (.notHex "F 8") ∧ RowRefused 5 "F".toList (.shortRow 5 4) := by
  intro rows
  have hex (row : List Char) (h : row.all hexDigits.contains = true) : ∀ c ∈ row, c ∈ hexDigits :=
    fun c hc => List.contains_iff_mem.mp (List.all_eq_true.mp h c hc)
  have hrows (n : Nat) (h : n ≤ 2) :
      ∀ row ∈ rows, (∀ c ∈ row, c ∈ hexDigits) ∧ n ≤ row.length := by
    rw [List.forall_mem_cons, List.forall_mem_singleton]
    exact ⟨⟨hex _ (by decide), Nat.le_trans h (by decide)⟩, hex _ (by decide), h⟩
  obtain ⟨bytes, hbytes, -, hbit, -, -, hdigits⟩ := (pack_hexRows 8).1 rows (hrows _ (by decide))
  obtain ⟨cut, hcut, -, hcutBit, hlength, hzero, -⟩ :=
    (pack_hexRows 5).1 rows (hrows _ (by decide))
  obtain ⟨number, hnumber, h8⟩ := hbit 1 (by decide) 6 (by decide)
  obtain ⟨number', hnumber', h5⟩ := hcutBit 1 (by decide) 4 (by decide)
  obtain rfl : 0x0b = number := Option.some.inj hnumber
  obtain rfl : 0x0b = number' := Option.some.inj hnumber'
  exact ⟨⟨bytes, hbytes, h8, hdigits (by decide)⟩,
    ⟨cut, hcut, h5, hlength.trans (by decide), hzero 10 (by decide)⟩,
    (pack_hexRows 5).2.1 _ ⟨' ', by decide, by decide⟩,
    (pack_hexRows 5).2.2 _ (hex _ (by decide)) (by decide)⟩

end Bdf
end PixelFont
