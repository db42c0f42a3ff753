import Mathlib.Data.List.TakeDrop
import PixelFont.JsonValue.Reader
import PixelFont.Proofs.Text.Numeral

set_option autoImplicit false

namespace PixelFont.JsonValue

theorem escape_cases (c : Char) :
    (escape c = [c] ∧ 0x20 ≤ c.toNat ∧ c ≠ '"' ∧ c ≠ '\\') ∨
    (∃ e, escape c = ['\\', e] ∧ escaped? e = some c) ∨
    (c.toNat < 0x20 ∧ escape c =
      ['\\', 'u', '0', '0', Nat.digitChar (c.toNat / 16), Nat.digitChar (c.toNat % 16)]) := by
  have hletter {d e : Char} (hd : escaped? e = some d) (h : c.toNat = d.toNat) :
      escaped? e = some c := by rw [hd, Char.toNat_inj.mp h]
  rw [escape]
  split
  case h_8 hquote hslash =>
    split
    · next hlt => exact .inr (.inr ⟨hlt, rfl⟩)
    · next hle =>
      exact .inl ⟨rfl, Nat.le_of_not_lt hle, fun h => hquote (h ▸ rfl), fun h => hslash (h ▸ rfl)⟩
  all_goals next h => exact .inr (.inl ⟨_, rfl, hletter rfl h⟩)

theorem natural?_of_control {n : Nat} (h : n < 0x20) :
    Text.natural? 16 ['0', '0', Nat.digitChar (n / 16), Nat.digitChar (n % 16)] = some n := by
  have hall : ∀ n < 0x20,
      Text.natural? 16 ['0', '0', Nat.digitChar (n / 16), Nat.digitChar (n % 16)] = some n := by
    decide
  exact hall n h

section Pieces

variable {c : Char} (cs : List Char)

theorem pieces_char (hc : 0x20 ≤ c.toNat) (hquote : c ≠ '"') (hslash : c ≠ '\\') :
    pieces (c :: cs) = (pieces cs).bind fun (ps, rest) => some (.char c :: ps, rest) := by
  rw [pieces.eq_def]
  split
  case h_5 heq =>
    cases heq
    rw [if_neg (by omega)]
    rfl
  all_goals simp_all

theorem pieces_letter {e : Char} (he : escaped? e = some c) :
    pieces ('\\' :: e :: cs) = (pieces cs).bind fun (ps, rest) => some (.char c :: ps, rest) := by
  rw [escaped?.eq_def] at he
  split at he
  case h_9 => cases he
  all_goals
    obtain rfl := Option.some.inj he
    rfl

theorem pieces_unit (digit₁ digit₂ digit₃ digit₄ : Char) :
    pieces ('\\' :: 'u' :: digit₁ :: digit₂ :: digit₃ :: digit₄ :: cs) =
      (Text.natural? 16 [digit₁, digit₂, digit₃, digit₄]).bind fun n =>
        (pieces cs).bind fun (ps, rest) => some (.unit n :: ps, rest) := rfl

theorem pieces_control (hc : c.toNat < 0x20) :
    pieces ('\\' :: 'u' :: '0' :: '0' :: Nat.digitChar (c.toNat / 16) ::
      Nat.digitChar (c.toNat % 16) :: cs) =
      (pieces cs).bind fun (ps, rest) => some (.unit c.toNat :: ps, rest) := by
  rw [pieces_unit, natural?_of_control hc, Option.bind_some]

theorem joined_control (hc : c.toNat < 0x20) (ps : List Piece) :
    joined (.unit c.toNat :: ps) = (joined ps).map (c :: ·) := by
  have hhigh : isHighHalf c.toNat = false := by
    simp [isHighHalf]
    omega
  have hlow : isLowHalf c.toNat = false := by
    simp [isLowHalf]
    omega
  have hcode : Char.ofNat c.toNat = c := Char.ofNat_toNat c
  rcases ps with - | ⟨d | m, ps⟩ <;> simp [joined, hhigh, hlow, hcode]

end Pieces

theorem exists_pieces_escape (c : Char) : ∃ p : Piece,
    (∀ cs, pieces (escape c ++ cs) = (pieces cs).bind fun (ps, rest) => some (p :: ps, rest)) ∧
      ∀ ps, joined (p :: ps) = (joined ps).map (c :: ·) := by
  obtain ⟨he, hc, hquote, hslash⟩ | ⟨e, he, hc⟩ | ⟨hc, he⟩ := escape_cases c
  · exact ⟨.char c, fun cs => he ▸ pieces_char cs hc hquote hslash, fun _ => rfl⟩
  · exact ⟨.char c, fun cs => he ▸ pieces_letter cs hc, fun _ => rfl⟩
  · exact ⟨.unit c.toNat, fun cs => he ▸ pieces_control cs hc, joined_control hc⟩

theorem exists_pieces_quote (cs : List Char) : ∃ ps,
    (∀ rest, pieces (cs.flatMap escape ++ '"' :: rest) = some (ps, rest)) ∧
      joined ps = some cs := by
  induction cs with
  | nil => exact ⟨[], fun _ => rfl, rfl⟩
  | cons c cs ih =>
    obtain ⟨ps, hps, hcs⟩ := ih
    obtain ⟨p, hp, hc⟩ := exists_pieces_escape c
    refine ⟨p :: ps, fun rest => ?_, by rw [hc, hcs]; rfl⟩
    rw [List.flatMap_cons, List.append_assoc, hp, hps]
    rfl

theorem readText_quote (s : String) (rest : List Char) :
    readText (s.toList.flatMap escape ++ '"' :: rest) = some (some s, rest) := by
  obtain ⟨ps, hps, hs⟩ := exists_pieces_quote s.toList
  rw [readText, hps]
  simp [hs]

def NumberEnds (rest : List Char) : Prop :=
  ∀ c, rest.head? = some c → c.isDigit = false ∧ c ≠ '.' ∧ c ≠ 'e' ∧ c ≠ 'E'

section Number

variable {rest : List Char} (h : NumberEnds rest)

include h

theorem takeWhile_toDigits (n : Nat) :
    (Nat.toDigits 10 n ++ rest).takeWhile Char.isDigit = Nat.toDigits 10 n := by
  rw [List.takeWhile_append_of_pos (Text.isDecimal_toDigits n).digits]
  cases rest with
  | nil => simp
  | cons c rest => simp [(h c rfl).1]

theorem dropWhile_toDigits (n : Nat) :
    (Nat.toDigits 10 n ++ rest).dropWhile Char.isDigit = rest := by
  rw [List.dropWhile_append_of_pos (Text.isDecimal_toDigits n).digits]
  cases rest with
  | nil => rfl
  | cons c rest => simp [(h c rfl).1]

theorem skipFraction?_eq : skipFraction? rest = some rest := by
  cases rest with
  | nil => rfl
  | cons c rest =>
    rw [skipFraction?]
    intro cs heq
    exact (h c rfl).2.1 (List.cons.inj heq).1

theorem skipExponent?_eq : skipExponent? rest = some rest := by
  rcases rest with - | ⟨c, - | ⟨d, rest⟩⟩
  · rfl
  · simp [skipExponent?, (h c rfl).2.2]
  · simp [skipExponent?, (h c rfl).2.2]

theorem goesOn_eq : goesOn rest = false := by
  cases rest with
  | nil => rfl
  | cons c rest => simp [goesOn, (h c rfl).2]

end Number

theorem toList_integer (i : Int) : (toString i).toList = Text.integer i := by
  rw [Text.integer, Int.toString_eq_repr, Int.repr_eq_if]
  by_cases h : 0 ≤ i
  · have habs : i.toNat = i.natAbs := by omega
    simp [h, Int.not_lt.mpr h, habs, Nat.repr]
  · have habs : (-i).toNat = i.natAbs := by omega
    simp [h, Int.not_le.mp h, habs, Nat.repr]

theorem readNumber_integer (i : Int) {rest : List Char} (h : NumberEnds rest) :
    readNumber ((toString i).toList ++ rest) = some (.integer i, rest) := by
  obtain ⟨n, hn⟩ : ∃ n, i.natAbs = n := ⟨_, rfl⟩
  have hvalue : Text.natural? 10 (Nat.toDigits 10 n) = some n :=
    (Text.isDecimal_toDigits n).natural?
  have hzeros : ((Nat.toDigits 10 n).length > 1 && (Nat.toDigits 10 n).head? = some '0') =
      false := by
    by_cases hzero : n = 0
    · simp [hzero]
    · simp [Text.head?_toDigits hzero]
  rw [toList_integer, Text.integer, hn]
  split
  · next hi =>
    have hne : n ≠ 0 := by omega
    have hneg : -(n : Int) = i := by omega
    simp [readNumber, takeWhile_toDigits h, dropWhile_toDigits h, hvalue, hzeros,
      skipFraction?_eq h, skipExponent?_eq h, goesOn_eq h, hne, hneg]
  · next hi =>
    have hhead : (Nat.toDigits 10 n).head? ≠ some '-' := fun hmem =>
      Text.notMem_toDigits (by decide) (List.mem_of_head? hmem)
    have hpos : (n : Int) = i := by omega
    simp [readNumber, takeWhile_toDigits h, dropWhile_toDigits h, hvalue, hzeros,
      skipFraction?_eq h, skipExponent?_eq h, goesOn_eq h, hhead, hpos]

end PixelFont.JsonValue
