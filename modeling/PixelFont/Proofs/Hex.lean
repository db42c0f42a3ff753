import PixelFont.BigEndian
import PixelFont.Proofs.Text.Numeral

set_option autoImplicit false

namespace PixelFont.Hex

def halves (bs : List UInt8) : List Nat := bs.flatMap fun b => [b.toNat / 16, b.toNat % 16]

theorem digits_eq_map_halves (bs : List UInt8) : digits bs = (halves bs).map Nat.digitChar := by
  rw [halves, List.map_flatMap]
  rfl

theorem lt_of_mem_halves {bs : List UInt8} {d : Nat} (h : d ∈ halves bs) : d < 16 := by
  obtain ⟨b, -, hd⟩ := List.mem_flatMap.mp h
  have := b.toNat_lt
  simp only [List.mem_cons, List.not_mem_nil, or_false] at hd
  omega

@[simp] theorem length_digits (bs : List UInt8) : (digits bs).length = 2 * bs.length := by
  induction bs with
  | nil => rfl
  | cons b bs ih =>
    rw [digits, List.flatMap_cons, List.length_append, List.length_cons]
    change 2 + (digits bs).length = _
    omega

theorem mem_lowercase {bs : List UInt8} {c : Char} (h : c ∈ digits bs) :
    c ∈ "0123456789abcdef".toList := by
  rw [digits_eq_map_halves] at h
  obtain ⟨d, hd, rfl⟩ := List.mem_map.mp h
  have hall : ∀ d < 16, Nat.digitChar d ∈ "0123456789abcdef".toList := by decide
  exact hall d (lt_of_mem_halves hd)

theorem foldlM_digits (bs : List UInt8) (n : Nat) :
    (digits bs).foldlM (fun n c => (Text.digit? 16 c).map (16 * n + ·)) n =
      some (bs.foldl (fun n b => 256 * n + b.toNat) n) := by
  induction bs generalizing n with
  | nil => rfl
  | cons b bs ih =>
    have hb := b.toNat_lt
    have hhigh := Text.digit?_digitChar (by omega : b.toNat / 16 < 16)
    have hlow := Text.digit?_digitChar (Nat.mod_lt b.toNat (by decide : 0 < 16))
    have hbyte : 16 * (16 * n + b.toNat / 16) + b.toNat % 16 = 256 * n + b.toNat := by omega
    change (pair b ++ digits bs).foldlM _ n = _
    rw [List.foldlM_append, pair, List.foldlM_cons, hhigh]
    change (List.foldlM _ (16 * n + b.toNat / 16) _ >>= _) = _
    rw [List.foldlM_cons, hlow]
    change (digits bs).foldlM _ (16 * (16 * n + b.toNat / 16) + b.toNat % 16) = _
    rw [hbyte, ih, List.foldl_cons]

theorem natural?_digits {bs : List UInt8} (h : bs ≠ []) :
    Text.natural? 16 (digits bs) = some (ofBigEndian bs) := by
  have hne : (digits bs).isEmpty = false := by
    rw [List.isEmpty_eq_false_iff, ← List.length_pos_iff, length_digits]
    have := List.length_pos_iff.mpr h
    omega
  rw [Text.natural?, hne, if_neg Bool.false_ne_true, foldlM_digits]
  rfl

end PixelFont.Hex
