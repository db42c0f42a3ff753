import PixelFont.Proofs.GeneratedCode.Array

set_option autoImplicit false

namespace PixelFont

namespace Cpp

/-- A word that does not start with a digit. -/
@[mk_iff] structure IsIdentifier (cs : List Char) : Prop extends IsWord cs where
  head : ∀ c ∈ cs.head?, c.isAlpha = true ∨ c = '_'

instance (cs : List Char) : Decidable (IsIdentifier cs) :=
  decidable_of_iff (IsWord cs ∧ cs.head?.all (fun c => c.isAlpha || c = '_') = true)
    (by simp [isIdentifier_iff, Option.all_eq_true])

theorem isDigit_eq_false_of_isAlpha {c : Char} (h : c.isAlpha = true) : c.isDigit = false := by
  have hletter : 'A'.val ≤ c.val := by
    obtain hupper | hlower := (Bool.or_eq_true _ _).mp h
    · exact (of_decide_eq_true hupper).1
    · have hfirst : 'a'.val ≤ c.val := of_decide_eq_true ((Bool.and_eq_true _ _).mp hlower).1
      exact UInt32.le_trans (by decide) hfirst
  have hdigit : ¬ c.val ≤ '9'.val :=
    UInt32.not_le.mpr (UInt32.lt_of_lt_of_le (by decide) hletter)
  exact Bool.and_eq_false_iff.mpr (.inr (decide_eq_false hdigit))

theorem isDigit_eq_false_iff {c : Char} (h : isWordChar c = true) :
    c.isDigit = false ↔ c.isAlpha = true ∨ c = '_' := by
  refine ⟨fun hdigit => by simpa [isWordChar, Char.isAlphanum, hdigit] using h, ?_⟩
  rintro (halpha | rfl)
  · exact isDigit_eq_false_of_isAlpha halpha
  · rfl

theorem isIdentifier_iff_of_isWord {cs : List Char} (h : IsWord cs) :
    IsIdentifier cs ↔ ∀ c ∈ cs.head?, c.isDigit = false := by
  rw [isIdentifier_iff, and_iff_right h]
  exact forall₂_congr fun c hc => (isDigit_eq_false_iff (h.chars c (List.mem_of_mem_head? hc))).symm

end Cpp

namespace CompiledFont

open Cpp

theorem isDigit_identifierChar (c : Char) : (identifierChar c).isDigit = c.isDigit := by
  rw [identifierChar]
  split
  · rfl
  · next h =>
    have hdigit : c.isDigit = false := by simp_all [Char.isAlphanum]
    rw [hdigit]
    rfl

theorem head?_arrayName (f : CompiledFont) :
    f.arrayName.toList.head? =
      some ((f.font.name.toList.head?.map identifierChar).getD '_') := by
  rw [toList_arrayName, identifier, String.toList_ofList]
  cases f.font.name.toList with
  | nil => rfl
  | cons c cs => rfl

/-- Every name of an array is a word. It is an identifier if and only if the name of the font does
not start with a digit. -/
theorem isIdentifier_arrayName_iff (f : CompiledFont) :
    IsWord f.arrayName.toList ∧
      (IsIdentifier f.arrayName.toList ↔ ∀ c ∈ f.font.name.toList.head?, c.isDigit = false) := by
  refine ⟨f.isWord_arrayName, ?_⟩
  rw [isIdentifier_iff_of_isWord f.isWord_arrayName, head?_arrayName]
  cases f.font.name.toList.head? with
  | none => simp
  | some c => simp [isDigit_identifierChar]

theorem arrayName_of_leading_digit :
    let text := "SIZE 8\nFONTBOUNDINGBOX 0 0 0 0\nFONT_ASCENT 0\nFONT_DESCENT 0\nCHARS 0\n"
    ∃ f, (SourceResult.ofText "6x13" "d/6x13/6x13.8.bdf" text .empty).result = .ok f ∧
      f.arrayName = "6x13_8_pt" ∧ ¬ IsIdentifier f.arrayName.toList := by
  intro text
  let f : CompiledFont := ⟨⟨"6x13", { size := 8 }, "", [.placeholder 8]⟩,
    [8, 0, 0, 0, 0, 0, 0, 0, 0, 0, 0, 0, 14, 5, 8, 4, 8, 0, 0, 249, 153, 153, 159]⟩
  have hresult : (SourceResult.ofText "6x13" "d/6x13/6x13.8.bdf" text .empty).result = .ok f := by
    decide +kernel
  have hname : f.arrayName = "6x13_8_pt" := by decide +kernel
  exact ⟨f, hresult, hname, by rw [hname]; decide⟩

end CompiledFont

end PixelFont
