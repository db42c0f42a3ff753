import Mathlib.Data.List.Forall2
import PixelFont.GeneratedCode
import PixelFont.Proofs.Cpp.Declaration

set_option autoImplicit false

namespace PixelFont

namespace GeneratedCode

section Chunks

variable {α : Type} {n : Nat}

theorem flatten_chunks (n : Nat) (xs : List α) : (chunks n xs).flatten = xs := by
  fun_induction chunks n xs with
  | case1 => rfl
  | case2 x xs ih => rw [List.flatten_cons, ih, List.cons_append, List.take_append_drop]

theorem length_of_mem_chunks {xs part : List α} (h : part ∈ chunks n xs) :
    0 < part.length ∧ part.length ≤ n + 1 := by
  fun_induction chunks n xs with
  | case1 => cases h
  | case2 x xs ih =>
    obtain rfl | h := List.mem_cons.mp h
    · simp only [List.length_cons, List.length_take]
      omega
    · exact ih h

theorem length_of_mem_dropLast_chunks {xs part : List α} (h : part ∈ (chunks n xs).dropLast) :
    part.length = n + 1 := by
  fun_induction chunks n xs with
  | case1 => cases h
  | case2 x xs ih =>
    cases hnext : chunks n (xs.drop n) with
    | nil =>
      rw [hnext] at h
      cases h
    | cons next parts =>
      rw [hnext, List.dropLast_cons_cons, ← hnext] at h
      obtain rfl | h := List.mem_cons.mp h
      · have hlong : xs.drop n ≠ [] := by
          intro hnil
          rw [hnil, chunks] at hnext
          cases hnext
        have hlt : n < xs.length := List.length_lt_of_drop_ne_nil hlong
        simp only [List.length_cons, List.length_take]
        omega
      · exact ih h

end Chunks

end GeneratedCode

theorem toList_natural (n : Nat) : (toString n).toList = Nat.toDigits 10 n := by
  rw [Nat.toString_eq_ofList_toDigits, String.toList_ofList]

theorem toList_word (n : UInt32) : (toString n).toList = Nat.toDigits 10 n.toNat :=
  toList_natural n.toNat

namespace Font

def commentLines (f : Font) : List (List Char) :=
  [' ' :: f.name.toList, "   - ".toList ++ f.copyright.toList,
    "   - Size: ".toList ++ Nat.toDigits 10 f.header.size.toNat]

def lastCommentLine (f : Font) : List Char :=
  "   - Characters: ".toList ++ Nat.toDigits 10 f.header.characters.toNat

theorem toList_comment (f : Font) :
    f.comment.toList =
      (f.commentLines ++ [f.lastCommentLine]).flatMap fun l => '/' :: '/' :: l ++ ['\n'] := by
  have hcomment : f.comment = "// " ++ f.name ++ "\n//   - " ++ f.copyright ++
      "\n//   - Size: " ++ toString f.header.size ++ "\n" ++
      ("//   - Characters: " ++ toString f.header.characters ++ "\n") := rfl
  have hsize := toList_word f.header.size
  have hcharacters := toList_word f.header.characters
  rw [hcomment]
  unfold commentLines lastCommentLine
  simp [hsize, hcharacters]

/-- Only the name and the copyright could end the comment early, and neither can make it longer. -/
theorem isComment_comment {f : Font} (hname : '\n' ∉ f.name.toList)
    (hcopyright : '\n' ∉ f.copyright.toList) : Cpp.IsComment f.comment.toList := by
  have hlast (lead : List Char) (n : Nat) :
      ('/' :: (lead ++ Nat.toDigits 10 n)).getLast? ≠ some '\\' := by
    rw [← List.cons_append, List.getLast?_append, Option.or_of_isSome (by simp)]
    exact fun h => Text.notMem_toDigits (by decide) (List.mem_of_getLast? h)
  rw [toList_comment]
  refine Cpp.isComment_lines ?_ ?_
  · unfold commentLines lastCommentLine
    simp [hname, hcopyright, Text.notMem_toDigits (by decide : '\n'.isDigit = false)]
  · unfold lastCommentLine
    exact hlast _ _

end Font

namespace CompiledFont

open Cpp

variable {f : CompiledFont}

def identifier (name : String) : String := String.ofList (name.toList.map identifierChar)

theorem map_identifierChar_toDigits (n : Nat) :
    (Nat.toDigits 10 n).map identifierChar = Nat.toDigits 10 n := by
  have hdigit : ∀ c ∈ Nat.toDigits 10 n, identifierChar c = id c := fun c hc => by
    simp [identifierChar, Char.isAlphanum, (Text.isDecimal_toDigits n).digits c hc]
  rw [List.map_congr_left hdigit, List.map_id]

theorem toList_arrayName (f : CompiledFont) :
    f.arrayName.toList = (identifier f.font.name).toList ++
      '_' :: Nat.toDigits 10 f.font.header.size.toNat ++ "_pt".toList := by
  have hname : f.arrayName = String.ofList
      ((f.font.name ++ "_" ++ toString f.font.header.size ++ "_pt").toList.map identifierChar) :=
    rfl
  have hline : "_".toList.map identifierChar = ['_'] := by decide
  have hpt : "_pt".toList.map identifierChar = "_pt".toList := by decide
  have hsize := toList_word f.font.header.size
  rw [hname, String.toList_ofList]
  simp only [String.toList_append, List.map_append, hline, hpt, hsize, map_identifierChar_toDigits,
    identifier, String.toList_ofList, List.append_assoc, List.cons_append,
    List.nil_append]

theorem isWord_arrayName (f : CompiledFont) : IsWord f.arrayName.toList where
  ne_nil := by simp [toList_arrayName]
  chars c hc := by
    rw [arrayName, String.toList_ofList] at hc
    obtain ⟨c, -, rfl⟩ := List.mem_map.mp hc
    rw [identifierChar]
    split <;> simp_all [isWordChar]

theorem toList_array (f : CompiledFont) :
    f.array.toList = arrayText f.arrayName.toList (Nat.toDigits 10 f.arraySize) := by
  have harray : f.array = "uint8_t " ++ f.arrayName ++ "[" ++ toString f.arraySize ++ "]" := rfl
  have htype : "uint8_t ".toList = byteType ++ [' '] := by decide
  simp [harray, htype, arrayText]

def literals (f : CompiledFont) : List (List UInt8) :=
  GeneratedCode.chunks (GeneratedCode.bytesPerLine - 1) f.bytes

def defined (f : CompiledFont) : Declaration :=
  ⟨f.font.comment, f.arrayName, f.arraySize, some f.literals⟩

def declaration (f : CompiledFont) : String := s!"\n{f.font.comment}extern {f.array};\n"

theorem toList_declaration (f : CompiledFont) :
    f.declaration.toList = '\n' :: (f.font.comment.toList ++ (externWord ++ ' ' ::
      (arrayText f.arrayName.toList (Nat.toDigits 10 f.arraySize) ++ [';', '\n']))) := by
  have htext : f.declaration = "\n" ++ f.font.comment ++ "extern " ++ f.array ++ ";\n" := rfl
  have hkind : "extern ".toList = externWord ++ [' '] := by decide
  simp [htext, hkind, toList_array]

theorem toList_literal (bs : List UInt8) :
    (GeneratedCode.literal bs).toList = '"' :: (bs.flatMap escape ++ ['"']) := by
  unfold escape
  simp [GeneratedCode.literal, List.flatMap_map]

theorem toList_definition (f : CompiledFont) :
    (GeneratedCode.definition f).toList = '\n' :: (f.font.comment.toList ++
      (arrayText f.arrayName.toList (Nat.toDigits 10 f.arraySize) ++ ' ' :: '=' ::
        (literalLines f.literals ++ [';', '\n']))) := by
  have htext : GeneratedCode.definition f = "\n" ++ f.font.comment ++ f.array ++ " =" ++
      String.join (f.literals.map fun bs => "\n  " ++ GeneratedCode.literal bs) ++ ";\n" := rfl
  simp [htext, toList_array, toList_literal, literalLines, List.flatMap_map]

variable (hname : '\n' ∉ f.font.name.toList) (hcopyright : '\n' ∉ f.font.copyright.toList)

include hname hcopyright

theorem parses_declaration : Parses f.declaration.toList [f.defined.head] := by
  have h := Parses.declared (Font.isComment_comment hname hcopyright) f.isWord_arrayName
    (Nat.succ_ne_zero f.bytes.length)
  simp only [String.ofList_toList] at h
  rw [toList_declaration]
  exact h

theorem parses_definition (hbytes : f.bytes ≠ []) :
    Parses (GeneratedCode.definition f).toList [f.defined] := by
  have hliterals : f.literals ≠ [] := by
    intro hnil
    apply hbytes
    rw [← GeneratedCode.flatten_chunks (GeneratedCode.bytesPerLine - 1) f.bytes]
    exact congrArg List.flatten hnil
  have h := Parses.defined (Font.isComment_comment hname hcopyright) f.isWord_arrayName
    (Nat.succ_ne_zero f.bytes.length) hliterals
  simp only [String.ofList_toList] at h
  rw [toList_definition]
  exact h

end CompiledFont

/-- An array has the comment, the name and the length of a font. Its literals are the bytes of the
font, which fill the array with one zero more, and all but the last have twenty bytes. -/
structure CompiledFont.DefinedAs (f : CompiledFont) (d : Cpp.Declaration) : Prop where
  comment : d.comment = f.font.comment
  name : d.name = f.arrayName
  size : d.size = f.arraySize
  literals : ∃ bss last, d.literals = some (bss ++ [last]) ∧ (bss ++ [last]).flatten = f.bytes ∧
    ((bss ++ [last]).flatten ++ [0]).length = d.size ∧ (∀ bs ∈ bss, bs.length = 20) ∧
    0 < last.length ∧ last.length ≤ 20

theorem CompiledFont.definedAs_defined (f : CompiledFont) (hbytes : f.bytes ≠ []) :
    f.DefinedAs f.defined where
  comment := rfl
  name := rfl
  size := rfl
  literals := by
    have hflatten : f.literals.flatten = f.bytes := GeneratedCode.flatten_chunks _ _
    have hne : f.literals ≠ [] := fun hnil => hbytes (by rw [← hflatten, hnil]; rfl)
    have hsplit : f.literals.dropLast ++ [f.literals.getLast hne] = f.literals :=
      List.dropLast_concat_getLast hne
    refine ⟨f.literals.dropLast, f.literals.getLast hne, congrArg some hsplit.symm, ?_, ?_,
      fun bs hbs => GeneratedCode.length_of_mem_dropLast_chunks hbs,
      GeneratedCode.length_of_mem_chunks (List.getLast_mem hne)⟩
    · rw [hsplit, hflatten]
    · rw [hsplit, hflatten, List.length_append]
      rfl

end PixelFont
