import PixelFont.Proofs.Batch
import PixelFont.Proofs.Bdf.Layout
import PixelFont.Proofs.GeneratedCode.Frame

set_option autoImplicit false

namespace PixelFont

/-- A text of so many comments, each on a line of its own. -/
def Cpp.CommentLines (n : Nat) (cs : List Char) : Prop :=
  ∃ ls, Text.pieces (· = '\n') cs = ls ++ [[]] ∧ ls.length = n ∧ ∀ line ∈ ls, ['/', '/'] <+: line

namespace Font

variable {f : Font}

theorem lineFeed_notMem_commentLines (hcopyright : '\n' ∉ f.copyright.toList) :
    ∀ line ∈ f.commentLines.tail ++ [f.lastCommentLine], '\n' ∉ line := by
  unfold commentLines lastCommentLine
  simp [hcopyright, Text.notMem_toDigits (by decide : '\n'.isDigit = false)]

theorem pieces_comment (hcopyright : '\n' ∉ f.copyright.toList) :
    ∃ ls : List (List Char), ls.length = 3 ∧ (∀ line ∈ ls, ['/', '/'] <+: line) ∧
      Text.pieces (· = '\n') f.comment.toList =
        (Text.pieces (· = '\n') f.name.toList).modifyHead (['/', '/', ' '] ++ ·) ++
          (ls ++ [[]]) := by
  let others := f.commentLines.tail ++ [f.lastCommentLine]
  let ls := others.map fun l => '/' :: '/' :: l
  have hslashes : ∀ line ∈ ls, ['/', '/'] <+: line :=
    List.forall_mem_map.mpr fun l _ => ⟨l, rfl⟩
  have hlines : ∀ line ∈ ls, '\n' ∉ line := by
    refine List.forall_mem_map.mpr fun l hl hmem => ?_
    simp [lineFeed_notMem_commentLines hcopyright l hl] at hmem
  have htext : f.comment.toList =
      ['/', '/', ' '] ++ f.name.toList ++ '\n' :: (ls.flatMap (· ++ ['\n']) ++ []) := by
    rw [toList_comment, List.append_nil, List.flatMap_map]
    simp [others, commentLines]
  refine ⟨ls, rfl, hslashes, ?_⟩
  rw [htext, Text.pieces_append_cons (by decide), Text.pieces_append_of_none (by simp),
    Text.pieces_flatMap_lineFeed hlines, Text.pieces_nil]

theorem commentLines_comment_iff (hcopyright : '\n' ∉ f.copyright.toList) :
    Cpp.CommentLines 4 f.comment.toList ↔ '\n' ∉ f.name.toList := by
  obtain ⟨ls, hlength, hslashes, hpieces⟩ := pieces_comment hcopyright
  constructor
  · rintro ⟨all, hall, hfour, -⟩
    have hlengths := congrArg List.length (hall.symm.trans hpieces)
    have hnone : f.name.toList.countP (· = '\n') = 0 := by
      simp only [List.length_append, List.length_modifyHead, Text.length_pieces, hlength, hfour,
        List.length_singleton] at hlengths
      omega
    exact fun hmem => List.countP_eq_zero.mp hnone '\n' hmem (decide_eq_true rfl)
  · intro hname
    refine ⟨(['/', '/', ' '] ++ f.name.toList) :: ls, ?_, by simp [hlength], ?_⟩
    · rw [hpieces, Text.pieces_lineFeed hname]
      rfl
    · exact List.forall_mem_cons.mpr ⟨⟨' ' :: f.name.toList, rfl⟩, hslashes⟩

end Font

namespace GeneratedCode

def licenseBlock (license : String) : List (List Char) :=
  (Text.lines license.toList).map fun l => (commentLine (Text.trimEnd l)).toList

/-- A text starts with comments that hold the lines of a license, less the blanks that end them, and
with one empty line after these. -/
def OpensWith (license : String) (cs : List Char) : Prop :=
  ∃ block next rest, Text.pieces (· = '\n') cs = block ++ [] :: next :: rest ∧ next ≠ [] ∧
    List.Forall₂ (fun l line => ['/', '/'] <+: line ∧ line.drop 3 = Text.trimEnd l)
      (Text.lines license.toList) block

theorem lineFeed_notMem_licenseBlock (license : String) :
    ∀ line ∈ licenseBlock license, '\n' ∉ line := by
  refine List.forall_mem_map.mpr fun l hl hmem => Text.lineFeed_notMem_trimEnd hl ?_
  rw [toList_commentLine] at hmem
  split at hmem <;> simp_all

theorem forall₂_licenseBlock (license : String) :
    List.Forall₂ (fun l line => ['/', '/'] <+: line ∧ line.drop 3 = Text.trimEnd l)
      (Text.lines license.toList) (licenseBlock license) := by
  rw [licenseBlock, List.forall₂_map_right_iff, List.forall₂_same]
  intro l _
  rw [toList_commentLine]
  cases Text.trimEnd l with
  | nil => exact ⟨⟨[], rfl⟩, rfl⟩
  | cons c cs => exact ⟨⟨' ' :: c :: cs, rfl⟩, rfl⟩

theorem opensWith_licenseLines {c : Catalogue} {license : String} (h : c.license = some license)
    {line : String} {ch : Char} {cs : List Char} (hline : line.toList = ch :: cs)
    (hch : ch ≠ '\n') (lines : List String) (rest : String) :
    OpensWith license (unlines (licenseLines c ++ line :: lines) ++ rest).toList := by
  obtain ⟨others, htext⟩ : ∃ others : List Char,
      (unlines (licenseLines c ++ line :: lines) ++ rest).toList =
        (licenseBlock license).flatMap (· ++ ['\n']) ++ '\n' :: ch :: others :=
    ⟨cs ++ '\n' :: ((unlines lines).toList ++ rest.toList), by
      simp [licenseLines, h, toList_unlines, hline, licenseBlock, List.flatMap_map]⟩
  have hnext : Text.pieces (· = '\n') ('\n' :: ch :: others) =
      [] :: (Text.pieces (· = '\n') others).modifyHead (ch :: ·) := by
    rw [Text.pieces_cons, Text.pieces_cons]
    simp [hch]
  have hne := Text.pieces_ne_nil (· = '\n') others
  obtain ⟨first, pieces, hpieces⟩ := List.exists_cons_of_ne_nil hne
  refine ⟨licenseBlock license, ch :: first, pieces, ?_, List.cons_ne_nil _ _,
    forall₂_licenseBlock license⟩
  rw [htext, Text.pieces_flatMap_lineFeed (lineFeed_notMem_licenseBlock license), hnext, hpieces]
  rfl

theorem opensWith_headerText {c : Catalogue} {license : String} (h : c.license = some license)
    (t : OffsetTable) (fonts : List CompiledFont) :
    OpensWith license (headerText c t fonts).toList := by
  have hpragma : "#pragma once".toList = '#' :: "pragma once".toList := by decide
  rw [headerText, List.append_assoc, List.cons_append, String.append_assoc]
  exact opensWith_licenseLines h hpragma (by decide) _ _

theorem opensWith_sourceText {c : Catalogue} {license : String} (h : c.license = some license)
    (header : String) (fonts : List CompiledFont) :
    OpensWith license (sourceText c header fonts).toList := by
  have hinclude : s!"#include \"{header}\"".toList =
      '#' :: ("include \"".toList ++ (header.toList ++ ['"'])) := by
    have hline : s!"#include \"{header}\"" = "#include \"" ++ header ++ "\"" := rfl
    rw [hline]
    simp
  rw [sourceText, String.append_assoc]
  exact opensWith_licenseLines h hinclude (by decide) _ _

/-- A license stays in its comment, and the comment of a font that a source is compiled to has four
lines if and only if the name that it is compiled with has no line feed. -/
theorem comments_hold (c : Catalogue) (name path text : String) (t : OffsetTable) :
    (∀ license, c.license = some license → ∀ table header fonts,
      OpensWith license (headerText c table fonts).toList ∧
        OpensWith license (sourceText c header fonts).toList) ∧
    ∀ f, (SourceResult.ofText name path text t).result = .ok f →
      (Cpp.CommentLines 4 f.font.comment.toList ↔ '\n' ∉ name.toList) := by
  refine ⟨fun license h table header fonts =>
    ⟨opensWith_headerText h table fonts, opensWith_sourceText h header fonts⟩, fun f hf => ?_⟩
  obtain ⟨b, hp, hb⟩ := SourceResult.exists_fits_of_ofText hf
  obtain rfl := Except.ok.inj (hf.symm.trans (SourceResult.ofText_of_fits hp hb).1)
  exact Font.commentLines_comment_iff (Bdf.lineFeed_notMem_of_parse hp)

/-- A license with a blank line and with a carriage return, and a copyright that looks like a
comment. -/
theorem comments_hold_blank :
    let license := "MIT \n\nyours\r\n"
    let c : Catalogue := { license := some license }
    let text := "SIZE 1\nFONTBOUNDINGBOX 0 0 0 0\nFONT_ASCENT 0\nFONT_DESCENT 0\n" ++
      "COPYRIGHT \"*/ // me\"\nCHARS 0"
    ∃ f, (SourceResult.ofText "a" "b" text .empty).result = .ok f ∧
      OpensWith license (headerText c .standard [f]).toList ∧
      OpensWith license (sourceText c "fonts.h" [f]).toList ∧
      Cpp.CommentLines 4 f.font.comment.toList := by
  intro license c text
  let f : CompiledFont := ⟨⟨"a", { size := 1 }, "*/ // me", [.placeholder 1]⟩,
    [1, 0, 0, 0, 0, 0, 0, 0, 0, 0, 0, 0, 10, 1, 1, 0, 1, 0, 0]⟩
  have hresult : (SourceResult.ofText "a" "b" text .empty).result = .ok f := by decide +kernel
  have hname : '\n' ∉ "a".toList := by decide
  clear_value text f
  obtain ⟨hlicense, hcomment⟩ := comments_hold c "a" "b" text .empty
  obtain ⟨hheader, hsource⟩ := hlicense license rfl .standard "fonts.h" [f]
  exact ⟨f, hresult, hheader, hsource, (hcomment f hresult).mpr hname⟩

/-- A name with a line feed, whose second line is left outside the comment. -/
theorem comment_of_lineFeed :
    let text := "SIZE 1\nFONTBOUNDINGBOX 0 0 0 0\nFONT_ASCENT 0\nFONT_DESCENT 0\nCHARS 0\n"
    ∃ f, (SourceResult.ofText "a\nb" "d/font.bdf" text .empty).result = .ok f ∧
      f.font.comment = "// a\nb\n//   - \n//   - Size: 1\n//   - Characters: 0\n" ∧
      ¬ Cpp.CommentLines 4 f.font.comment.toList := by
  intro text
  let f : CompiledFont := ⟨⟨"a\nb", { size := 1 }, "", [.placeholder 1]⟩,
    [1, 0, 0, 0, 0, 0, 0, 0, 0, 0, 0, 0, 10, 1, 1, 0, 1, 0, 0]⟩
  have hresult : (SourceResult.ofText "a\nb" "d/font.bdf" text .empty).result = .ok f := by
    decide +kernel
  have hcomment : f.font.comment = "// a\nb\n//   - \n//   - Size: 1\n//   - Characters: 0\n" := by
    decide +kernel
  have hname : '\n' ∈ f.font.name.toList := by decide
  have hcopyright : '\n' ∉ f.font.copyright.toList := by decide
  clear_value text f
  exact ⟨f, hresult, hcomment, fun h => (Font.commentLines_comment_iff hcopyright).mp h hname⟩

end GeneratedCode

end PixelFont
