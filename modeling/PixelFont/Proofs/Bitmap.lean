import PixelFont.Bitmap

/-!
Packing and unpacking. Bytes are known by their bits, so both directions are laws about lists of
bits: unpacking a packed bitmap gives it back whatever follows, and packing what was unpacked gives
the same bytes exactly if none is left over and the bits after the last pixel are zero.
-/

set_option autoImplicit false

namespace PixelFont

theorem flatMap_range_mul {α : Type} (f : Nat → α) (w n : Nat) :
    ((List.range n).flatMap fun i => (List.range w).map fun j => f (i * w + j)) =
      (List.range (n * w)).map f := by
  induction n with
  | zero => simp
  | succ n ih =>
    rw [List.range_succ, List.flatMap_append, ih, Nat.succ_mul, List.range_add, List.map_append,
      List.map_map]
    simp [Function.comp_def]

theorem map_range_getD (bits : List Bool) (n : Nat) (h : bits.length ≤ n) :
    (List.range n).map (fun k => bits.toArray.getD k false) =
      bits ++ List.replicate (n - bits.length) false := by
  apply List.ext_getElem
  · simp
    omega
  · intro i h₁ h₂
    by_cases hi : i < bits.length
    · simp [Array.getD, hi, List.getElem_append_left hi]
    · simp [Array.getD, hi, List.getElem_append_right (Nat.le_of_not_lt hi)]

theorem map_range_getD_take (bits : List Bool) (n : Nat) (h : n ≤ bits.length) :
    (List.range n).map (fun k => bits.toArray.getD k false) = bits.take n := by
  apply List.ext_getElem
  · simp
    omega
  · intro i h₁ h₂
    have hi : i < bits.length := by simp at h₁; omega
    simp [Array.getD, hi]

theorem le_bytesFor (n : Nat) : n ≤ bytesFor n * 8 := by
  unfold bytesFor
  omega

theorem unpackBits_append (as bs : List UInt8) :
    unpackBits (as ++ bs) = unpackBits as ++ unpackBits bs := List.flatMap_append

theorem getElem?_unpackBits (bs : List UInt8) (i : Nat) :
    (unpackBits bs)[i]? = bs[i / 8]?.map fun b => b.toNat.testBit (7 - i % 8) := by
  induction bs generalizing i with
  | nil => simp [unpackBits]
  | cons b bs ih =>
    have hlength : (bitsOf b).length = 8 := by simp [bitsOf]
    rw [unpackBits, List.flatMap_cons]
    by_cases hi : i < 8
    · rw [List.getElem?_append_left (by omega), Nat.div_eq_of_lt hi, Nat.mod_eq_of_lt hi]
      simp [bitsOf, hi]
    · obtain ⟨j, rfl⟩ : ∃ j, i = j + 8 := ⟨i - 8, by omega⟩
      rw [List.getElem?_append_right (by omega), hlength, Nat.add_sub_cancel,
        Nat.add_div_right j (by decide), Nat.add_mod_right, List.getElem?_cons_succ]
      exact ih j

theorem unpackBits_packBits (bits : List Bool) :
    unpackBits (packBits bits) =
      bits ++ List.replicate (bytesFor bits.length * 8 - bits.length) false := by
  rw [← map_range_getD bits _ (le_bytesFor _), ← flatMap_range_mul]
  simp only [unpackBits, packBits, List.flatMap_map, bitsOf_byteOf, Nat.mul_comm 8]

theorem bitsOf_injective {a b : UInt8} (h : bitsOf a = bitsOf b) : a = b := by
  apply UInt8.toNat_inj.mp
  apply Nat.eq_of_testBit_eq
  intro i
  by_cases hi : i < 8
  · have hb := congrArg (fun l => l[7 - i]?) h
    have hi' : 7 - (7 - i) = i := by omega
    have h7 : 7 - i < 8 := by omega
    simpa [bitsOf, h7, hi'] using hb
  · have hp : 2 ^ 8 ≤ 2 ^ i := Nat.pow_le_pow_right (by decide) (by omega)
    rw [Nat.testBit_lt_two_pow (Nat.lt_of_lt_of_le a.toNat_lt hp),
      Nat.testBit_lt_two_pow (Nat.lt_of_lt_of_le b.toNat_lt hp)]

theorem unpackBits_injective {as bs : List UInt8} (h : unpackBits as = unpackBits bs) :
    as = bs := by
  induction as generalizing bs with
  | nil =>
    have hl := congrArg List.length h
    rw [length_unpackBits, length_unpackBits, List.length_nil] at hl
    exact (List.eq_nil_of_length_eq_zero (by omega)).symm
  | cons a as ih =>
    cases bs with
    | nil =>
      have hl := congrArg List.length h
      rw [length_unpackBits, length_unpackBits, List.length_nil, List.length_cons] at hl
      omega
    | cons b bs =>
      simp only [unpackBits, List.flatMap_cons] at h
      obtain ⟨hb, hr⟩ := List.append_inj h (by simp [bitsOf])
      rw [bitsOf_injective hb, ih hr]

/-- Packing the first `n` bits of some bytes gives these bytes if and only if there are as many as
`n` bits need and the bits left over are zero. -/
theorem packBits_take_eq_iff {bs : List UInt8} {n : Nat} (h : n ≤ 8 * bs.length) :
    packBits ((unpackBits bs).take n) = bs ↔
      bs.length = bytesFor n ∧ ∀ bit ∈ (unpackBits bs).drop n, bit = false := by
  have hn : ((unpackBits bs).take n).length = n :=
    List.length_take_of_le (by rw [length_unpackBits]; exact h)
  have hu := unpackBits_packBits ((unpackBits bs).take n)
  rw [hn] at hu
  -- `hu`: once packed, the bits come back followed by zeros up to a whole byte
  constructor
  · intro he
    have hl := congrArg List.length he
    rw [length_packBits, hn] at hl
    refine ⟨hl.symm, ?_⟩
    rw [he] at hu
    have hd : (unpackBits bs).drop n = List.replicate (bytesFor n * 8 - n) false := by
      have ha := (List.take_append_drop n (unpackBits bs)).trans hu
      exact List.append_cancel_left ha
    intro bit hb
    rw [hd] at hb
    exact List.eq_of_mem_replicate hb
  · rintro ⟨hl, hz⟩
    apply unpackBits_injective
    have hd : (unpackBits bs).drop n = List.replicate (bytesFor n * 8 - n) false := by
      rw [List.eq_replicate_iff]
      refine ⟨?_, hz⟩
      rw [List.length_drop, length_unpackBits, hl]
      omega
    rw [hu, ← hd, List.take_append_drop]

namespace Bitmap

def HasShape (rows : Bitmap) (width height : Nat) : Prop :=
  rows.length = height ∧ ∀ row ∈ rows, row.length = width

theorem hasShape_ofPixels (width height : Nat) (pixel : Nat → Nat → Bool) :
    (ofPixels width height pixel).HasShape width height := by
  refine ⟨by simp [ofPixels], ?_⟩
  intro row h
  obtain ⟨y, -, rfl⟩ := List.mem_map.mp h
  simp

theorem length_flatten {rows : Bitmap} {width height : Nat} (h : rows.HasShape width height) :
    rows.flatten.length = width * height := by
  induction rows generalizing height with
  | nil =>
    obtain ⟨rfl, -⟩ := h
    rfl
  | cons row rows ih =>
    obtain ⟨rfl, hw⟩ := h
    have ht := ih ⟨rfl, fun r hr => hw r (by simp [hr])⟩
    rw [List.flatten_cons, List.length_append, ht, hw row (by simp), List.length_cons,
      Nat.mul_succ, Nat.add_comm]

theorem eq_of_flatten_eq {as bs : Bitmap} {width height : Nat} (ha : as.HasShape width height)
    (hb : bs.HasShape width height) (h : as.flatten = bs.flatten) : as = bs := by
  induction as generalizing bs height with
  | nil =>
    obtain ⟨rfl, -⟩ := ha
    exact (List.eq_nil_of_length_eq_zero hb.1).symm
  | cons a as ih =>
    obtain ⟨rfl, haw⟩ := ha
    obtain ⟨hl, hbw⟩ := hb
    cases bs with
    | nil => cases hl
    | cons b bs =>
      rw [List.flatten_cons, List.flatten_cons] at h
      obtain ⟨h₁, h₂⟩ := List.append_inj h (by rw [haw a (by simp), hbw b (by simp)])
      rw [h₁, ih ⟨rfl, fun r hr => haw r (by simp [hr])⟩
        ⟨Nat.succ.inj hl, fun r hr => hbw r (by simp [hr])⟩ h₂]

theorem hasShape_unpack (width height : Nat) (bs : List UInt8) :
    (unpack width height bs).HasShape width height := hasShape_ofPixels _ _ _

theorem flatten_unpack {width height : Nat} {bs : List UInt8}
    (h : width * height ≤ 8 * bs.length) :
    (unpack width height bs).flatten = (unpackBits bs).take (width * height) := by
  have hl : width * height ≤ (unpackBits bs).length := by rw [length_unpackBits]; exact h
  rw [← map_range_getD_take _ _ hl, Nat.mul_comm width, ← flatMap_range_mul]
  rfl

theorem unpack_pack {rows : Bitmap} {width height : Nat} (h : rows.HasShape width height)
    (rest : List UInt8) : unpack width height (rows.pack ++ rest) = rows := by
  have hf := length_flatten h
  have hb := le_bytesFor (width * height)
  apply eq_of_flatten_eq (hasShape_unpack _ _ _) h
  rw [flatten_unpack (by simp only [List.length_append, pack, length_packBits, hf]; omega),
    unpackBits_append, pack, unpackBits_packBits, List.append_assoc]
  exact List.take_left' hf

theorem pack_unpack {width height : Nat} {bs : List UInt8} (h : width * height ≤ 8 * bs.length) :
    (unpack width height bs).pack = packBits ((unpackBits bs).take (width * height)) := by
  rw [pack, flatten_unpack h]

end Bitmap
end PixelFont
