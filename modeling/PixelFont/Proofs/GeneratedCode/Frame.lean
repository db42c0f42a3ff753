import PixelFont.Proofs.GeneratedCode.Array
import PixelFont.Proofs.Text.Lines

set_option autoImplicit false

namespace PixelFont

namespace GeneratedCode

open Cpp

variable (c : Catalogue) (t : OffsetTable) (header : String)

def headerOpening : String :=
  unlines (licenseLines c ++ ["#pragma once", "", s!"#include \"{c.platformInclude}\"", "",
    s!"namespace {c.scope} \x7b", ""] ++ t.entries.flatMap fun (name, s) => defineLines name s)

def sourceOpening : String :=
  unlines (licenseLines c ++ [s!"#include \"{header}\"", "", s!"namespace {c.scope} \x7b"])

/-- The namespace has a qualified name, and files can be included. -/
@[mk_iff] structure Frameable : Prop where
  scope : ∀ ch ∈ c.scope.toList, isWordChar ch = true ∨ ch = ':'
  platformInclude : ∀ ch ∈ c.platformInclude.toList, ch ≠ '\n' ∧ ch ≠ '"'
  header : ∀ ch ∈ header.toList, ch ≠ '\n' ∧ ch ≠ '"'

@[mk_iff] structure Nameable : Prop extends Frameable c header where
  fields : ∀ e ∈ t.entries, ∀ ch ∈ e.1.toList, isWordChar ch = true

instance : Decidable (Frameable c header) :=
  decidable_of_iff
    (c.scope.toList.all (fun ch => isWordChar ch || ch = ':') = true ∧
      c.platformInclude.toList.all (fun ch => ch ≠ '\n' && ch ≠ '"') = true ∧
      header.toList.all (fun ch => ch ≠ '\n' && ch ≠ '"') = true)
    (by simp [frameable_iff])

instance : Decidable (Nameable c t header) :=
  decidable_of_iff
    (Frameable c header ∧ t.entries.all (fun e => e.1.toList.all isWordChar) = true)
    (by simp [nameable_iff])

theorem toList_unlines (ls : List String) :
    (unlines ls).toList = ls.flatMap fun l => l.toList ++ ['\n'] := by
  simp [unlines, List.flatMap_map]

theorem toList_commentLine (cs : List Char) :
    (commentLine cs).toList = '/' :: '/' :: (if cs.isEmpty then [] else ' ' :: cs) := by
  rw [commentLine]
  split <;> simp

theorem lexes_license :
    ∃ texts : List (List Char),
      Lexes (unlines (licenseLines c)).toList (texts.map .comment) := by
  cases hl : c.license with
  | none => exact ⟨[], by simpa [licenseLines, hl, unlines] using Lexes.nil⟩
  | some text =>
    let line (l : List Char) : List Char :=
      if (Text.trimEnd l).isEmpty then [] else ' ' :: Text.trimEnd l
    have htext : (unlines (licenseLines c)).toList =
        ((Text.lines text.toList).map line).flatMap (fun l => '/' :: '/' :: l ++ ['\n']) ++
          ['\n'] := by
      simp [licenseLines, hl, toList_unlines, toList_commentLine, List.flatMap_map, line]
    have hline : ∀ l ∈ (Text.lines text.toList).map line, '\n' ∉ l := by
      rw [List.forall_mem_map]
      intro l hl hmem
      simp only [line] at hmem
      split at hmem
      · cases hmem
      · rw [List.mem_cons] at hmem
        exact Text.lineFeed_notMem_trimEnd hl (hmem.resolve_left (by decide))
    obtain ⟨part, hopen⟩ := Lexer.Commented.nil.lines hline
    obtain ⟨texts, hrun⟩ := hopen.blank
    exact ⟨texts, by rw [htext]; exact hrun⟩

theorem lexes_include {name : String} (h : ∀ ch ∈ name.toList, ch ≠ '\n' ∧ ch ≠ '"') :
    Lexes (s!"#include \"{name}\"".toList ++ ['\n']) [.directive] := by
  have hline : s!"#include \"{name}\"" = "#include \"" ++ name ++ "\"" := rfl
  have hlead : "#include \"".toList = '#' :: "include ".toList ++ ['"'] := by decide
  have hplain : "include ".toList.all Lexer.isPlain = true := by decide
  have htext : s!"#include \"{name}\"".toList ++ ['\n'] =
      '#' :: "include ".toList ++ '"' :: (name.toList ++ ['"', '\n']) := by
    rw [hline, String.toList_append, String.toList_append, hlead]
    simp
  rw [htext]
  exact .quoted (List.all_eq_true.mp hplain) h

theorem isPlain_of_isWordChar {ch : Char} (h : isWordChar ch = true) : Lexer.isPlain ch = true := by
  have hno : (['\n', '"', '/', '\\'].all fun ch => !isWordChar ch) = true := by decide
  refine decide_eq_true fun hmem => ?_
  simpa [h] using List.all_eq_true.mp hno ch hmem

def defineLine (name value : String) : String := "#define " ++ name ++ " " ++ value

theorem toList_defineLine (name value : String) :
    (defineLine name value).toList = "#define ".toList ++ name.toList ++ ' ' :: value.toList := by
  have hblank : " ".toList = [' '] := by decide
  simp [defineLine, hblank]

theorem defineLines_eq (name : String) (s : Slot) :
    defineLines name s = defineLine name (toString s.offset) ::
      s.format.toList.map fun f => defineLine (name ++ "_TYPE") f.cName := by
  have htype (f : IntFormat) :
      s!"#define {name}_TYPE {f.cName}" = defineLine (name ++ "_TYPE") f.cName := by
    have hline : s!"#define {name}_TYPE {f.cName}" =
        "#define " ++ name ++ "_TYPE " ++ f.cName := rfl
    have hend : "_TYPE ".toList = "_TYPE".toList ++ " ".toList := by decide
    rw [hline, defineLine, ← String.toList_inj]
    simp [hend]
  rw [defineLines]
  cases s.format with
  | none => rfl
  | some f => exact congrArg (_ :: [·]) (htype f)

theorem isWord_toString (n : Nat) : IsWord (toString n).toList := by
  rw [toList_natural]
  exact isWord_toDigits n

theorem toList_cName (f : IntFormat) :
    f.cName.toList =
      (if f.signed then "int" else "uint").toList ++ (Nat.toDigits 10 f.bits ++ "_t".toList) := by
  have hname : f.cName = (if f.signed then "int" else "uint") ++ (toString f.bits ++ "_t") := rfl
  rw [hname, String.toList_append, String.toList_append, toList_natural]

theorem isWord_cName (f : IntFormat) : IsWord f.cName.toList where
  ne_nil := by simp [IntFormat.cName]
  chars := by
    have hlead : IsWord (if f.signed then "int" else "uint").toList := by
      split <;> decide
    have hend : IsWord "_t".toList := by decide
    rw [toList_cName, List.forall_mem_append, List.forall_mem_append]
    exact ⟨hlead.chars, (isWord_toDigits f.bits).chars, hend.chars⟩

theorem parses_defineLine {name value : String} (hname : ∀ ch ∈ name.toList, isWordChar ch = true)
    (hvalue : IsWord value.toList) : Parses ((defineLine name value).toList ++ ['\n']) [] := by
  have hlead : "#define ".toList = '#' :: "define ".toList := by decide
  have hplain : ∀ ch ∈ "define ".toList ++ name.toList ++ ' ' :: value.toList,
      Lexer.isPlain ch = true := by
    have hdefine : "define ".toList.all Lexer.isPlain = true := by decide
    rw [List.forall_mem_append, List.forall_mem_append, List.forall_mem_cons]
    exact ⟨⟨List.all_eq_true.mp hdefine, fun ch hch => isPlain_of_isWordChar (hname ch hch)⟩,
      by decide, fun ch hch => isPlain_of_isWordChar (hvalue.chars ch hch)⟩
  rw [toList_defineLine, hlead]
  exact .ofDirective (.directive hplain)

theorem parses_defineLines {name : String} (h : ∀ ch ∈ name.toList, isWordChar ch = true)
    (s : Slot) : ∀ l ∈ defineLines name s, Parses (l.toList ++ ['\n']) [] := by
  have htype : ∀ ch ∈ (name ++ "_TYPE").toList, isWordChar ch = true := by
    have hend : IsWord "_TYPE".toList := by decide
    rw [String.toList_append, List.forall_mem_append]
    exact ⟨h, hend.chars⟩
  rw [defineLines_eq, List.forall_mem_cons, List.forall_mem_map]
  exact ⟨parses_defineLine h (isWord_toString s.offset),
    fun f _ => parses_defineLine htype (isWord_cName f)⟩

theorem parses_namespace (h : ∀ ch ∈ c.scope.toList, isWordChar ch = true ∨ ch = ':') :
    Parses (s!"namespace {c.scope} \x7b".toList ++ ['\n']) [] := by
  have hline : s!"namespace {c.scope} \x7b" = "namespace " ++ c.scope ++ " \x7b" := rfl
  have hlead : "namespace ".toList = namespaceWord ++ [' '] := by decide
  have htext : s!"namespace {c.scope} \x7b".toList ++ ['\n'] =
      namespaceWord ++ ' ' :: (c.scope.toList ++ [' ', '\x7b', '\n']) := by
    rw [hline, String.toList_append, String.toList_append, hlead]
    simp
  rw [htext]
  exact .namespaceStart h

theorem lexes_closing (h : ∀ ch ∈ c.scope.toList, isWordChar ch = true ∨ ch = ':') :
    ∃ texts : List (List Char),
      Lexes (unlines (closingLines c)).toList (.mark '\x7d' :: texts.map .comment) := by
  have hline : "\x7d // namespace " ++ c.scope = "\x7d " ++ "//" ++ " namespace " ++ c.scope := rfl
  have hclose : "\x7d ".toList = ['\x7d', ' '] := by decide
  have hslashes : "//".toList = ['/', '/'] := by decide
  have htext : (unlines (closingLines c)).toList =
      '\n' :: '\x7d' :: ' ' :: ([] ++ [" namespace ".toList ++ c.scope.toList]).flatMap fun l =>
        '/' :: '/' :: l ++ ['\n'] := by
    rw [closingLines, hline, toList_unlines]
    simp only [List.flatMap_cons, List.flatMap_nil, String.toList_append, hclose, hslashes,
      List.nil_append, List.cons_append, List.append_nil, List.append_assoc]
    rfl
  have hnotMem {ch : Char} (hc : isWordChar ch = false ∧ ch ≠ ':') : ch ∉ c.scope.toList :=
    fun hmem => (h ch hmem).elim (fun hw => Bool.false_ne_true (hc.1.symm.trans hw)) hc.2
  obtain ⟨texts, -, hlex⟩ : IsComment
      (([] ++ [" namespace ".toList ++ c.scope.toList]).flatMap fun l =>
        '/' :: '/' :: l ++ ['\n']) := by
    refine isComment_lines ?_ fun hlast => ?_
    · simpa using hnotMem (by decide : isWordChar '\n' = false ∧ '\n' ≠ ':')
    · have hmem := List.mem_of_getLast? hlast
      simp [hnotMem (by decide : isWordChar '\\' = false ∧ '\\' ≠ ':')] at hmem
  refine ⟨texts, fun done => ?_⟩
  rw [htext, Lexer.run_blank (.inr rfl), Lexer.run_mark (by decide), Lexer.run_blank (.inl rfl),
    hlex, List.append_assoc]
  rfl

variable {c t header} (h : Nameable c t header)

include h

theorem Nameable.parses_headerOpening : Parses (headerOpening c t).toList [] := by
  obtain ⟨texts, hlicense⟩ := lexes_license c
  have hopening : (headerOpening c t).toList =
      (unlines (licenseLines c)).toList ++ ("#pragma once".toList ++ ['\n']) ++ (['\n'] ++
        ((s!"#include \"{c.platformInclude}\"".toList ++ ['\n']) ++ (['\n'] ++
          ((s!"namespace {c.scope} \x7b".toList ++ ['\n']) ++ (['\n'] ++
            (t.entries.flatMap fun (name, s) => defineLines name s).flatMap fun l =>
              l.toList ++ ['\n']))))) := by
    simp only [headerOpening, toList_unlines, List.flatMap_append, List.flatMap_cons,
      List.flatMap_nil, List.append_assoc, List.append_nil]
    rfl
  have hpragma : Lexes ("#pragma once".toList ++ ['\n']) [.directive] := by
    have hlead : "#pragma once".toList = '#' :: "pragma once".toList := by decide
    have hplain : "pragma once".toList.all Lexer.isPlain = true := by decide
    rw [hlead]
    exact .directive (List.all_eq_true.mp hplain)
  rw [hopening]
  refine (Parses.directive hlicense hpragma).append <| .append .blank <|
    .append (.ofDirective (lexes_include h.platformInclude)) <| .append .blank <|
    .append (parses_namespace c h.scope) <| .append .blank <| .flatMap_nil fun l hl => ?_
  obtain ⟨e, he, hl⟩ := List.mem_flatMap.mp hl
  exact parses_defineLines (h.fields e he) e.2 l hl

theorem Nameable.parses_sourceOpening : Parses (sourceOpening c header).toList [] := by
  obtain ⟨texts, hlicense⟩ := lexes_license c
  have hopening : (sourceOpening c header).toList =
      (unlines (licenseLines c)).toList ++ (s!"#include \"{header}\"".toList ++ ['\n']) ++
        (['\n'] ++ (s!"namespace {c.scope} \x7b".toList ++ ['\n'])) := by
    simp only [sourceOpening, toList_unlines, List.flatMap_append, List.flatMap_cons,
      List.flatMap_nil, List.append_assoc, List.append_nil]
    rfl
  rw [hopening]
  exact (Parses.directive hlicense (lexes_include h.header)).append
    (.append .blank (parses_namespace c h.scope))

end GeneratedCode

end PixelFont
