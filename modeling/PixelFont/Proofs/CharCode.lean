import Mathlib.Data.Nat.Digits.Defs
import PixelFont.Proofs.Bdf.Rows

set_option autoImplicit false

namespace PixelFont.CharCode

open Bdf (hexDigits digitValue of_mem_hexDigits isSome_digit?_iff)

def place (c : Char) : Nat := hexDigits.idxOf c.toLower

def number (cs : List Char) : Nat := Nat.ofDigits 16 (cs.map place).reverse

section Digits

variable {c : Char} {cs : List Char}

theorem digit?_eq_place (h : c ∈ hexDigits) : Text.digit? 16 c = some (place c) :=
  beq_iff_eq.mp (of_mem_hexDigits (p := fun c => Text.digit? 16 c == some (place c)) (by decide) h)

theorem place_lt (h : c ∈ hexDigits) : place c < 16 := Text.digit?_lt (digit?_eq_place h)

theorem digitChar_place (h : c ∈ hexDigits) : Nat.digitChar (place c) = c.toLower := by
  have hplace : digitValue c = place c := by rw [digitValue, digit?_eq_place h, Option.getD_some]
  rw [← hplace, Bdf.digitChar_digitValue h]

theorem number_eq_foldl (cs : List Char) :
    number cs = cs.foldl (fun n c => 16 * n + place c) 0 := by
  rw [number, Nat.ofDigits_eq_foldr, List.foldr_reverse, List.foldl_map]
  simp only [Nat.cast_id, Nat.add_comm]

theorem foldlM_places (h : ∀ c ∈ cs, c ∈ hexDigits) (n : Nat) :
    cs.foldlM (fun n c => (Text.digit? 16 c).map (16 * n + ·)) n =
      some (cs.foldl (fun n c => 16 * n + place c) n) := by
  induction cs generalizing n with
  | nil => rfl
  | cons c cs ih =>
    rw [List.forall_mem_cons] at h
    rw [List.foldlM_cons, digit?_eq_place h.1]
    exact ih h.2 _

theorem natural?_eq_number (hne : cs ≠ []) (h : ∀ c ∈ cs, c ∈ hexDigits) :
    Text.natural? 16 cs = some (number cs) := by
  rw [Text.natural?, if_neg (by simpa using hne), foldlM_places h, number_eq_foldl]

end Digits

theorem find?_notHex_eq_some_iff {cs : List Char} {c : Char} {i : Nat} :
    cs.zipIdx.find? (fun (c, _) => (Text.digit? 16 c).isNone) = some (c, i) ↔
      ∃ before after, cs = before ++ c :: after ∧ before.length = i ∧
        (∀ d ∈ before, d ∈ hexDigits) ∧ c ∉ hexDigits := by
  have hnone {d : Char} : (Text.digit? 16 d).isNone = true ↔ d ∉ hexDigits := by
    rw [← isSome_digit?_iff, Option.isNone_iff_eq_none, Option.not_isSome_iff_eq_none]
  have hbefore {before : List Char} :
      (∀ a ∈ before.zipIdx, (!(Text.digit? 16 a.1).isNone) = true) ↔
        ∀ d ∈ before, d ∈ hexDigits := by
    conv_rhs => rw [← List.zipIdx_map_fst 0 before, List.forall_mem_map]
    simp only [Bool.not_eq_true', ← Bool.not_eq_true, hnone, not_not]
  rw [List.find?_eq_some_iff_append]
  constructor
  · rintro ⟨hc, as, bs, hsplit, has⟩
    obtain ⟨before, rest, rfl, rfl, hrest⟩ := List.zipIdx_eq_append_iff.mp hsplit
    obtain ⟨d, after, rfl, hd, -⟩ := List.zipIdx_eq_cons_iff.mp hrest.symm
    rw [Nat.zero_add, Prod.mk.injEq] at hd
    obtain ⟨rfl, rfl⟩ := hd
    exact ⟨before, after, rfl, rfl, hbefore.mp has, hnone.mp hc⟩
  · rintro ⟨before, after, rfl, rfl, hdigits, hc⟩
    refine ⟨hnone.mpr hc, before.zipIdx, after.zipIdx (before.length + 1), ?_,
      hbefore.mpr hdigits⟩
    rw [List.zipIdx_append, List.zipIdx_cons, Nat.zero_add]

section Parse

variable {cs : List Char}

theorem toNat_ofNat_number (hl : cs.length = 4) (h : ∀ c ∈ cs, c ∈ hexDigits) :
    (UInt16.ofNat (number cs)).toNat = number cs := by
  have hne : cs ≠ [] := List.ne_nil_of_length_pos (by omega)
  have hlt : number cs < 2 ^ 16 := by
    have := Text.natural?_lt (natural?_eq_number hne h)
    rwa [hl] at this
  rw [UInt16.toNat_ofNat', Nat.mod_eq_of_lt hlt]

theorem word_of_digits (hl : cs.length = 4) (h : ∀ c ∈ cs, c ∈ hexDigits) :
    ((Text.unsigned? cs 16).bind fun n => toUInt16? n) = some (UInt16.ofNat (number cs)) := by
  have hne : cs ≠ [] := List.ne_nil_of_length_pos (by omega)
  rw [unsigned?_of_digits fun c hc => isSome_digit?_iff.mpr (h c hc), natural?_code hl,
    natural?_eq_number hne h, Option.map_some]

theorem find?_notHex_eq_none_iff :
    cs.zipIdx.find? (fun (c, _) => (Text.digit? 16 c).isNone) = none ↔ ∀ c ∈ cs, c ∈ hexDigits := by
  simp only [find?_notHex_eq_none, isSome_digit?_iff]

theorem parse_eq (cs : List Char) :
    parse cs =
      if cs.length = 4 then
        match cs.zipIdx.find? fun (c, _) => (Text.digit? 16 c).isNone with
        | some (c, i) => .error (.notHex i c)
        | none => .ok ⟨UInt16.ofNat (number cs)⟩
      else .error (.wrongLength cs.length) := by
  rw [parse, digitCount, ite_not]
  refine if_ctx_congr Iff.rfl (fun hl => ?_) fun _ => rfl
  cases hfind : cs.zipIdx.find? (fun (c, _) => (Text.digit? 16 c).isNone) with
  | some found => rfl
  | none => simp only [word_of_digits hl (find?_notHex_eq_none_iff.mp hfind)]

theorem parse_eq_ok_iff_number {code : CharCode} :
    parse cs = .ok code ↔
      cs.length = 4 ∧ (∀ c ∈ cs, c ∈ hexDigits) ∧ code.value.toNat = number cs := by
  rw [parse_eq]
  split
  · next hl =>
    rw [and_iff_right hl, ← find?_notHex_eq_none_iff]
    split
    · next hfind => simp [hfind]
    · next hfind =>
      have hnumber := toNat_ofNat_number hl (find?_notHex_eq_none_iff.mp hfind)
      obtain ⟨value⟩ := code
      rw [and_iff_right hfind, Except.ok.injEq, mk.injEq, eq_comm, ← UInt16.toNat_inj, hnumber]
  · next hl => simp [hl]

theorem parse_eq_wrongLength_iff {n : Nat} :
    parse cs = .error (.wrongLength n) ↔ n = cs.length ∧ n ≠ 4 := by
  rw [parse_eq]
  split
  · next hl =>
    split
    · simp; omega
    · simp; omega
  · next hl =>
    simp; omega

theorem parse_eq_notHex_iff {i : Nat} {c : Char} :
    parse cs = .error (.notHex i c) ↔ cs.length = 4 ∧
      ∃ before after, cs = before ++ c :: after ∧ before.length = i ∧
        (∀ d ∈ before, d ∈ hexDigits) ∧ c ∉ hexDigits := by
  rw [parse_eq, ← find?_notHex_eq_some_iff]
  split
  · next hl =>
    rw [and_iff_right hl]
    split <;> simp [*, and_comm]
  · next hl => simp [hl]

theorem text_of_parse {code : CharCode} (h : parse cs = .ok code) :
    code.text.toList = cs.map Char.toLower := by
  obtain ⟨hl, hd, hvalue⟩ := parse_eq_ok_iff_number.mp h
  match cs, hl with
  | [a, b, c, d], _ =>
    simp only [List.forall_mem_cons] at hd
    obtain ⟨ha, hb, hc, hd, -⟩ := hd
    have hnumber : code.value.toNat = 4096 * place a + 256 * place b + 16 * place c + place d := by
      rw [hvalue, number_eq_foldl]
      simp
      omega
    have := place_lt ha
    have := place_lt hb
    have := place_lt hc
    have := place_lt hd
    have h₁ : code.value.toNat / 4096 = place a := by omega
    have h₂ : code.value.toNat / 256 % 16 = place b := by omega
    have h₃ : code.value.toNat / 16 % 16 = place c := by omega
    have h₄ : code.value.toNat % 16 = place d := by omega
    simp [text, h₁, h₂, h₃, h₄, digitChar_place, ha, hb, hc, hd]

end Parse

/-- A text is a code if and only if it is four hexadecimal digits. The code is the number that they
spell, and is written with them, letters in lower case. Any other text is refused for the number of
its characters if this is not four, and otherwise for the first of them that is not a digit. No text
is refused for the number that it spells. -/
theorem parse_exact (s : String) :
    ((∃ code, parse s.toList = .ok code) ↔ s.length = 4 ∧ ∀ c ∈ s.toList, c ∈ hexDigits) ∧
    (∀ code, parse s.toList = .ok code →
      code.value.toNat = number s.toList ∧ code.text = s.toLower) ∧
    (∀ n, parse s.toList = .error (.wrongLength n) ↔ n = s.length ∧ n ≠ 4) ∧
    (∀ i c, parse s.toList = .error (.notHex i c) ↔ s.length = 4 ∧
      ∃ before after, s.toList = before ++ c :: after ∧ before.length = i ∧
        (∀ d ∈ before, d ∈ hexDigits) ∧ c ∉ hexDigits) ∧
    (s.length = 4 → (∀ c ∈ s.toList, c ∈ hexDigits) →
      ((Text.unsigned? s.toList 16).bind fun n => toUInt16? n).isSome = true) := by
  rw [← String.length_toList]
  refine ⟨?_, fun code h => ⟨(parse_eq_ok_iff_number.mp h).2.2, ?_⟩,
    fun n => parse_eq_wrongLength_iff, fun i c => parse_eq_notHex_iff, fun hl hd => ?_⟩
  · constructor
    · rintro ⟨code, h⟩
      obtain ⟨hl, hd, -⟩ := parse_eq_ok_iff_number.mp h
      exact ⟨hl, hd⟩
    · rintro ⟨hl, hd⟩
      exact ⟨⟨UInt16.ofNat (number s.toList)⟩,
        parse_eq_ok_iff_number.mpr ⟨hl, hd, toNat_ofNat_number hl hd⟩⟩
  · rw [← String.toList_inj, text_of_parse h]
    exact String.toList_map.symm
  · rw [word_of_digits hl hd, Option.isSome_some]

theorem parse_exact_cases :
    (∃ code, parse "00fA".toList = .ok code ∧ code.value.toNat = 250 ∧ code.text = "00fa") ∧
      ((Text.unsigned? "00fA".toList 16).bind fun n => toUInt16? n).isSome = true ∧
      parse "éé".toList = .error (.wrongLength 2) ∧
      Text.unsigned? "+0fA".toList 16 = some 250 ∧
      parse "+0fA".toList = .error (.notHex 0 '+') := by
  obtain ⟨hok, hcode, -, -, hword⟩ := parse_exact "00fA"
  obtain ⟨-, -, hlength, -, -⟩ := parse_exact "éé"
  obtain ⟨-, -, -, hsign, -⟩ := parse_exact "+0fA"
  have hdigits : ∀ c ∈ "00fA".toList, c ∈ hexDigits := by
    have hall : "00fA".toList.all (· ∈ hexDigits) = true := by decide
    exact fun c hc => of_decide_eq_true (List.all_eq_true.mp hall c hc)
  obtain ⟨code, hparse⟩ := hok.mpr ⟨by decide, hdigits⟩
  obtain ⟨hvalue, htext⟩ := hcode code hparse
  exact ⟨⟨code, hparse, hvalue.trans (by decide), htext.trans (by decide +kernel)⟩,
    hword (by decide) hdigits, (hlength 2).mpr (by decide), by decide,
    (hsign 0 '+').mpr ⟨by decide, [], "0fA".toList, by decide, rfl, by simp, by decide⟩⟩

end PixelFont.CharCode
