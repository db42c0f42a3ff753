import PixelFont.Batch
import PixelFont.Proofs.Bdf.FirstFault
import PixelFont.Proofs.Text.Lines

/-!
Where a report points to. Main statement: `span_of_parse_error`. The lines of a source are counted
twice: when it is read, where a carriage return before a line feed is no part of the line, and by
line feeds alone when the offset of a line is looked up. The counts agree, so the line that a report
points to is the one at fault.
-/

set_option autoImplicit false

namespace PixelFont

namespace Text

@[simp] theorem byteSize_nil : byteSize [] = 0 := rfl

theorem byteSize_append (as bs : List Char) : byteSize (as ++ bs) = byteSize as + byteSize bs := by
  rw [byteSize, String.ofList_append, String.utf8ByteSize_append, byteSize, byteSize]

def lineFed (ls : List (List Char)) : List Char := ls.flatMap (· ++ ['\n'])

theorem lineFed_cons_append (line : List Char) (ls : List (List Char)) (rest : List Char) :
    lineFed (line :: ls) ++ rest = line ++ '\n' :: (lineFed ls ++ rest) := by
  simp [lineFed]

/-- This looks up the offset, in bytes, at which a line starts. The lines are counted from one and
by line feeds only, and a line that there is not starts where the text ends. -/
structure Locates (start : List Char → Nat → Nat) : Prop where
  within : ∀ (ls : List (List Char)) (rest : List Char), (∀ line ∈ ls, '\n' ∉ line) →
    start (lineFed ls ++ rest) (ls.length + 1) = byteSize (lineFed ls)
  beyond : ∀ (cs : List Char) (n : Nat), cs.count '\n' + 1 < n → start cs n = byteSize cs

section AfterLines

variable {line : List Char} (h : '\n' ∉ line)
include h

theorem ne_lineFeed : ∀ c ∈ line, decide (c ≠ '\n') = true := fun _ hc =>
  decide_eq_true fun he => h (he ▸ hc)

theorem afterLines_append_lineFeed (n : Nat) (rest : List Char) :
    afterLines (n + 1) (line ++ '\n' :: rest) = afterLines n rest := by
  rw [afterLines, List.dropWhile_append_of_pos (ne_lineFeed h)]
  rfl

theorem afterLines_eq_nil_of_notMem (n : Nat) : afterLines (n + 1) line = [] := by
  have hnil (n : Nat) : afterLines n [] = [] := by
    induction n with
    | zero => rfl
    | succ n ih => exact ih
  rw [afterLines, List.dropWhile_eq_nil_iff.mpr (ne_lineFeed h)]
  exact hnil n

end AfterLines

theorem afterLines_lineFed {ls : List (List Char)} (h : ∀ line ∈ ls, '\n' ∉ line)
    (rest : List Char) : afterLines ls.length (lineFed ls ++ rest) = rest := by
  induction ls with
  | nil => rfl
  | cons line ls ih =>
    rw [List.forall_mem_cons] at h
    rw [lineFed_cons_append, List.length_cons, afterLines_append_lineFeed h.1, ih h.2]

theorem afterLines_eq_nil {cs : List Char} {n : Nat} (h : cs.count '\n' < n) :
    afterLines n cs = [] := by
  induction n generalizing cs with
  | zero => cases h
  | succ n ih =>
    rcases lineFeed_cases cs with hl | ⟨line, rest, rfl, hl⟩
    · exact afterLines_eq_nil_of_notMem hl n
    · rw [afterLines_append_lineFeed hl]
      rw [List.count_append, List.count_cons_self] at h
      exact ih (by omega)

theorem locates_lineSpan : Locates fun cs n => (lineSpan cs n).1 where
  within ls rest h := by
    rw [lineSpan, Nat.add_sub_cancel, afterLines_lineFed h, byteSize_append, Nat.add_sub_cancel]
  beyond cs n h := by
    rw [lineSpan, afterLines_eq_nil (by omega), byteSize_nil, Nat.sub_zero]

theorem exists_line {cs : List Char} {i : Nat} (h : i < max 1 (lines cs).length) :
    ∃ ls after, cs = lineFed ls ++ ((lines cs).getD i [] ++ after) ∧ (∀ line ∈ ls, '\n' ∉ line) ∧
      ls.length = i := by
  induction i generalizing cs with
  | zero =>
    have hprefix : (lines cs).getD 0 [] <+: cs := by
      rcases lineFeed_cases cs with hl | ⟨line, rest, rfl, hl⟩
      · rw [lines_of_lineFeed_notMem hl]
        split
        · exact List.nil_prefix
        · exact List.prefix_rfl
      · rw [lines_append_lineFeed hl]
        exact (dropReturn_isPrefix line).trans (List.prefix_append ..)
    obtain ⟨after, hafter⟩ := hprefix
    exact ⟨[], after, hafter.symm, by simp, rfl⟩
  | succ i ih =>
    rcases lineFeed_cases cs with hl | ⟨line, rest, rfl, hl⟩
    · rw [lines_of_lineFeed_notMem hl] at h
      split at h <;> simp at h
    · rw [lines_append_lineFeed hl, List.length_cons] at h
      have hi : i < max 1 (lines rest).length := by omega
      obtain ⟨ls, after, hrest, hls, hlength⟩ := ih hi
      refine ⟨line :: ls, after, ?_, List.forall_mem_cons.mpr ⟨hl, hls⟩, by simp [hlength]⟩
      rw [lines_append_lineFeed hl, List.getD_cons_succ, lineFed_cons_append, ← hrest]

theorem length_lineSpan (cs : List Char) (n : Nat) :
    (lineSpan cs n).2 = byteSize ((lines cs).getD (n - 1) []) := by
  rw [lineSpan, List.getD_eq_getElem?_getD]
  cases (lines cs)[n - 1]? <;> rfl

end Text

theorem result_ofText_of_parse_error {text : String} {e : Bdf.ParseFault}
    (h : Bdf.parse text = .error e) (name path : String) (t : OffsetTable) :
    (SourceResult.ofText name path text t).result = .error (.badSource path text e) := by
  rw [Bdf.parse] at h
  simp only [SourceResult.ofText]
  rw [h]

/-- A source that is refused is reported with the reason for a label. The span is on a line of the
text, the one at fault, and covers it without what ends it; an empty text has an empty span. -/
theorem span_of_parse_error {start : List Char → Nat → Nat} (hstart : Text.Locates start)
    {text : String} {e : Bdf.ParseFault} (h : Bdf.parse text = .error e)
    (name path : String) (t : OffsetTable) :
    let lines := Text.lines text.toList
    (1 ≤ e.line ∧ e.line ≤ max 1 lines.length) ∧
      ∃ report, (SourceResult.ofText name path text t).result = .error report ∧
        report.label? = some e.cause.message ∧
        ∃ before line after : String, text = before ++ line ++ after ∧
          line.toList = lines.getD (e.line - 1) [] ∧
          report.span? = some (before.utf8ByteSize, line.utf8ByteSize) ∧
          start text.toList e.line = before.utf8ByteSize := by
  intro lines
  obtain ⟨hpos, hle⟩ := Bdf.line_of_parse_error h
  have hindex : e.line - 1 < max 1 (Text.lines text.toList).length := by omega
  obtain ⟨ls, after, htext, hls, hlength⟩ := Text.exists_line hindex
  have hline : ls.length + 1 = e.line := by omega
  have hoffset {start : List Char → Nat → Nat} (hstart : Text.Locates start) :
      start text.toList e.line = Text.byteSize (Text.lineFed ls) := by
    rw [htext, ← hline]
    exact hstart.within ls _ hls
  refine ⟨⟨hpos, hle⟩, .badSource path text e, result_ofText_of_parse_error h name path t, rfl,
    String.ofList (Text.lineFed ls), String.ofList (lines.getD (e.line - 1) []),
    String.ofList after, ?_, String.toList_ofList, ?_, hoffset hstart⟩
  · rw [← String.ofList_append, ← String.ofList_append, List.append_assoc, ← htext,
      String.ofList_toList]
  · have hfirst : (Text.lineSpan text.toList e.line).1 = Text.byteSize (Text.lineFed ls) :=
      hoffset Text.locates_lineSpan
    have hsecond := Text.length_lineSpan text.toList e.line
    rw [Failure.span?, ← Prod.eta (Text.lineSpan _ _), hfirst, hsecond]
    rfl

theorem span_of_parse_error_accents :
    let text := "COMMENT é\r\nCHARS ü\r\n"
    let e : Bdf.ParseFault := ⟨2, .badValue .chars "ü"⟩
    let start (cs : List Char) (n : Nat) : Nat := (Text.lineSpan cs n).1
    Text.Locates start ∧ Bdf.parse text = .error e ∧
      ∃ report, (SourceResult.ofText "a" "a.4.bdf" text .empty).result = .error report ∧
        report.label? = some "invalid value 'ü' for CHARS" ∧
        ∃ before line after : String, text = before ++ line ++ after ∧
          line.toList = "CHARS ü".toList ∧
          report.span? = some (before.utf8ByteSize, line.utf8ByteSize) ∧
          start text.toList e.line = before.utf8ByteSize := by
  intro text e start
  have hparse : Bdf.parse text = .error e := by decide +kernel
  have hlabel : e.cause.message = "invalid value 'ü' for CHARS" := by decide +kernel
  have hline : (Text.lines text.toList).getD (e.line - 1) [] = "CHARS ü".toList := by
    decide +kernel
  rw [← hlabel, ← hline]
  exact ⟨Text.locates_lineSpan, hparse,
    (span_of_parse_error Text.locates_lineSpan hparse "a" "a.4.bdf" .empty).2⟩

end PixelFont
