import Mathlib.Data.List.Find
import Mathlib.Data.List.Induction
import PixelFont.Proofs.Bdf.Acceptance

set_option autoImplicit false

namespace PixelFont.Bdf

/-- Something is missing once the text has ended, and no line is at fault. -/
def LineFault.AtEnd : LineFault → Prop
  | .unterminated => True
  | .missingField k => k ∈ Keyword.required
  | _ => False

section Steps

theorem missing_fails {α : Type} {k : Keyword} (h : k ∉ Keyword.required) :
    FailsOnly (¬ ·.AtEnd) (.error (.missingField k) : Except LineFault α) := failsOnly_error h

theorem unsigned_fails (l : Line) (k : Keyword) (i : Nat) :
    FailsOnly (¬ ·.AtEnd) (l.unsigned k i) := by
  rw [Line.unsigned]
  split
  · exact failsOnly_ok _
  · exact failsOnly_error id

theorem signed_fails (l : Line) (k : Keyword) (i : Nat) :
    FailsOnly (¬ ·.AtEnd) (l.signed k i) := by
  rw [Line.signed]
  split
  · exact failsOnly_ok _
  · exact failsOnly_error id

theorem box_fails (l : Line) (k : Keyword) : FailsOnly (¬ ·.AtEnd) (l.box k) :=
  (unsigned_fails l k 0).bind fun _ => (unsigned_fails l k 1).bind fun _ =>
    (signed_fails l k 2).bind fun _ => (signed_fails l k 3).bind fun _ => failsOnly_ok _

theorem advance_fails (l : Line) (k : Keyword) : FailsOnly (¬ ·.AtEnd) (l.advance k) :=
  (unsigned_fails l k 0).bind fun _ => (unsigned_fails l k 1).bind fun _ => failsOnly_ok _

theorem code_fails (l : Line) : FailsOnly (¬ ·.AtEnd) l.code := by
  rw [Line.code]
  cases CharCode.parse (l.argument 0) with
  | error e => exact failsOnly_error id
  | ok c => exact failsOnly_ok c

theorem rowPixels_fails (row : List Char) (width : UInt32) :
    FailsOnly (¬ ·.AtEnd) (rowPixels row width) := by
  rw [rowPixels_eq]
  split
  · split
    · exact failsOnly_ok _
    · exact failsOnly_error id
  · exact failsOnly_error id

namespace Scan

theorem row_fails (s : Scan) (g : RowGlyph) (n : Nat) (text : List Char) :
    FailsOnly (¬ ·.AtEnd) (s.row g n text) := by
  rw [row]
  split
  · split
    · exact failsOnly_error id
    · exact failsOnly_ok _
  · exact (rowPixels_fails _ _).bind fun _ => failsOnly_ok _

theorem keyword_fails (s : Scan) (n : Nat) (l : Line) (k : Keyword) :
    FailsOnly (¬ ·.AtEnd) (s.keyword n l k) := by
  cases k
  case size | fontAscent | fontDescent | chars =>
    exact (unsigned_fails l _ 0).bind fun _ => failsOnly_ok _
  case fontBoundingBox => exact (box_fails l _).bind fun _ => failsOnly_ok _
  case copyright => exact failsOnly_ok _
  case startChar =>
    rw [keyword]
    split
    · exact failsOnly_error id
    · exact (code_fails l).bind fun _ => failsOnly_ok _
  case dWidth =>
    rw [keyword]
    split
    · exact failsOnly_ok _
    · exact (advance_fails l _).bind fun _ => failsOnly_ok _
  case bbx =>
    rw [keyword]
    split
    · exact failsOnly_ok _
    · exact (box_fails l _).bind fun _ => failsOnly_ok _
  case bitmap =>
    rw [keyword]
    split
    · exact failsOnly_error id
    · split
      · exact missing_fails (by decide)
      · exact missing_fails (by decide)
      · exact failsOnly_ok _
  case endChar =>
    rw [keyword]
    split
    · exact missing_fails (by decide)
    · exact failsOnly_error id

theorem step_fails (s : Scan) (n : Nat) (text : List Char) :
    FailsOnly (¬ ·.AtEnd) (s.step n text) := by
  rw [step]
  split
  · exact row_fails _ _ _ _
  · dsimp only
    split
    · exact keyword_fails _ _ _ _
    · exact failsOnly_ok _

end Scan
end Steps

/-- The first line that cannot stand where it does, and why. -/
def FirstFault (lines : List (List Char)) (e : ParseFault) : Prop :=
  ∃ before line after s, lines = before ++ line :: after ∧ Scan.Reads {} 1 before s ∧
    e.line = before.length + 1 ∧ s.step e.line line = .error e.cause

namespace Scan

theorem steps_append {s s' : Scan} {n : Nat} {before : List (List Char)}
    (h : s.Reads n before s') (log : Array Event) (after : List (List Char)) :
    ∃ log', steps s n log (before ++ after) = steps s' (before.length + n) log' after := by
  induction before generalizing s n log with
  | nil =>
    obtain rfl := h
    exact ⟨log, by simp⟩
  | cons line before ih =>
    obtain ⟨next, ⟨event, hstep⟩, hread⟩ := h
    obtain ⟨log', hlog⟩ := ih hread (log ++ event.toArray)
    refine ⟨log', ?_⟩
    rw [List.cons_append, steps, hstep, List.length_cons, Nat.add_assoc, Nat.add_comm 1]
    exact hlog

theorem exists_of_steps_error {s : Scan} {n : Nat} {log : Array Event} {lines : List (List Char)}
    {e : ParseFault} (h : (steps s n log lines).2 = .error e) :
    ∃ before line after s', lines = before ++ line :: after ∧ s.Reads n before s' ∧
      e.line = before.length + n ∧ s'.step e.line line = .error e.cause := by
  induction lines generalizing s n log with
  | nil => cases h
  | cons line lines ih =>
    rw [steps] at h
    cases hstep : s.step n line with
    | error cause =>
      rw [hstep] at h
      cases h
      exact ⟨[], line, lines, s, rfl, rfl, (Nat.zero_add n).symm, hstep⟩
    | ok r =>
      obtain ⟨next, event⟩ := r
      rw [hstep] at h
      obtain ⟨before, line', after, s', rfl, hread, hn, hfault⟩ := ih h
      refine ⟨line :: before, line', after, s', rfl, ⟨next, ⟨event, hstep⟩, hread⟩, ?_, hfault⟩
      rw [hn, List.length_cons, Nat.add_assoc, Nat.add_comm 1]

theorem steps_eq_error_iff {log : Array Event} {lines : List (List Char)} {e : ParseFault} :
    (steps {} 1 log lines).2 = .error e ↔ FirstFault lines e := by
  constructor
  · exact exists_of_steps_error
  · rintro ⟨before, line, after, s, rfl, hread, hn, hstep⟩
    obtain ⟨log', hlog⟩ := steps_append hread log (line :: after)
    rw [hlog, ← hn, steps, hstep]

end Scan

namespace FirstFault

variable {lines : List (List Char)} {e : ParseFault} (h : FirstFault lines e)
include h

theorem not_atEnd : ¬ e.cause.AtEnd := by
  obtain ⟨-, line, -, s, -, -, -, hstep⟩ := h
  exact s.step_fails e.line line _ hstep

theorem le_length : 1 ≤ e.line ∧ e.line ≤ lines.length := by
  obtain ⟨before, line, after, s, rfl, -, hn, -⟩ := h
  rw [hn, List.length_append, List.length_cons]
  omega

theorem reads_take : ∃ s, Scan.Reads {} 1 (lines.take (e.line - 1)) s := by
  obtain ⟨before, line, after, s, rfl, hread, hn, -⟩ := h
  rw [hn, Nat.add_sub_cancel, List.take_left]
  exact ⟨s, hread⟩

theorem of_take {others : List (List Char)} (hl : others.take e.line = lines.take e.line) :
    FirstFault others e := by
  obtain ⟨before, line, after, s, rfl, hread, hn, hstep⟩ := h
  refine ⟨before, line, others.drop e.line, s, ?_, hread, hn, hstep⟩
  calc others = others.take e.line ++ others.drop e.line := (List.take_append_drop ..).symm
    _ = (before ++ [line]) ++ others.drop e.line := by
      rw [hl, hn, List.append_cons, List.take_left' (by simp)]
    _ = before ++ line :: others.drop e.line := (List.append_cons ..).symm

end FirstFault

theorem reads_or_firstFault (lines : List (List Char)) :
    (∃ s, Scan.Reads {} 1 lines s) ∨ ∃ e, FirstFault lines e := by
  cases h : (Scan.steps {} 1 #[] lines).2 with
  | ok s => exact .inl ⟨s, Scan.steps_eq_ok_iff.mp h⟩
  | error e => exact .inr ⟨e, Scan.steps_eq_error_iff.mp h⟩

theorem parse_of_reads {text : String} {s : Scan}
    (h : Scan.Reads {} 1 (Text.lines text.toList) s) :
    parse text = s.contents (max 1 (Text.lines text.toList).length) := by
  have hsteps : (Scan.steps {} 1 #[] (Text.lines text.toList)).2 = .ok s :=
    Scan.steps_eq_ok_iff.mpr h
  rw [parse, read]
  rcases hs : Scan.steps {} 1 #[] (Text.lines text.toList) with ⟨events, outcome⟩
  rw [hs] at hsteps
  cases hsteps
  cases hc : s.contents (max 1 (Text.lines text.toList).length) <;> simp only [hc]

theorem FirstFault.parse {text : String} {e : ParseFault}
    (h : FirstFault (Text.lines text.toList) e) : Bdf.parse text = .error e := by
  have hsteps : (Scan.steps {} 1 #[] (Text.lines text.toList)).2 = .error e :=
    Scan.steps_eq_error_iff.mpr h
  rw [Bdf.parse, read]
  rcases hs : Scan.steps {} 1 #[] (Text.lines text.toList) with ⟨events, outcome⟩
  rw [hs] at hsteps
  cases hsteps
  rfl

/-- A glyph starts on the line with this number, and no line after it ends one. -/
def OpensAt (lines : List (List Char)) (n : Nat) : Prop :=
  ∃ before line after, lines = before ++ line :: after ∧ n = before.length + 1 ∧
    names .startChar line = true ∧ ∀ later ∈ after, names .endChar later = false

theorem opensAt_concat {lines : List (List Char)} {line : List Char} {n : Nat} :
    OpensAt (lines ++ [line]) n ↔
      (names .startChar line = true ∧ n = lines.length + 1) ∨
        (names .endChar line = false ∧ OpensAt lines n) := by
  constructor
  · rintro ⟨before, start, after, hl, hn, hstart, hafter⟩
    rcases List.eq_nil_or_concat' after with rfl | ⟨after, last, rfl⟩
    · obtain ⟨rfl, hline⟩ := List.append_inj' hl rfl
      obtain ⟨rfl, -⟩ := List.cons.inj hline
      exact .inl ⟨hstart, hn⟩
    · rw [← List.cons_append, ← List.append_assoc] at hl
      obtain ⟨rfl, hline⟩ := List.append_inj' hl rfl
      obtain ⟨rfl, -⟩ := List.cons.inj hline
      rw [List.forall_mem_append, List.forall_mem_singleton] at hafter
      exact .inr ⟨hafter.2, before, start, after, rfl, hn, hstart, hafter.1⟩
  · rintro (⟨hstart, hn⟩ | ⟨hline, before, start, after, rfl, hn, hstart, hafter⟩)
    · exact ⟨lines, line, [], rfl, hn, hstart, by simp⟩
    · refine ⟨before, start, after ++ [line], by simp, hn, hstart, ?_⟩
      rw [List.forall_mem_append, List.forall_mem_singleton]
      exact ⟨hafter, hline⟩

theorem OpensAt.le_length {lines : List (List Char)} {n : Nat} (h : OpensAt lines n) :
    1 ≤ n ∧ n ≤ lines.length := by
  obtain ⟨before, line, after, rfl, rfl, -⟩ := h
  rw [List.length_append, List.length_cons]
  omega

def Mode.line? : Mode → Option Nat
  | .outside => none
  | .inGlyph g => some g.line
  | .inRows g => some g.line

namespace Scan

def gives (s : Scan) : Keyword → Bool
  | .size => s.size.isSome
  | .fontBoundingBox => s.box.isSome
  | .fontAscent => s.ascent.isSome
  | .fontDescent => s.descent.isSome
  | .chars => s.characters.isSome
  | _ => false

/-- What a line that is taken does to the header lines seen and to the glyph that is open. -/
structure Follows (s : Scan) (n : Nat) (line : List Char) (s' : Scan) : Prop where
  gives : ∀ k ∈ Keyword.required, s'.gives k = (s.gives k || names k line)
  line? : s'.mode.line? =
    if names .startChar line then some n
    else if names .endChar line then none
    else s.mode.line?
  start : names .startChar line = true → s.mode.line? = none

section Follows

variable {s s' : Scan} {n : Nat} {line : List Char}

theorem gives_heed (hl : HeaderNumbers line) {k : Keyword} (hk : k ∈ Keyword.required) :
    (s.heed [line]).gives k = (s.gives k || names k line) := by
  have hnumbers := hl k hk
  cases k
  case size | fontBoundingBox | fontAscent | fontDescent | chars =>
    simp only [gives, heed, newest_singleton]
    split
    · next hn =>
      rw [hn, Bool.or_true]
      exact hnumbers hn
    · next hn => rw [Bool.eq_false_iff.mpr hn, Bool.or_false]
  all_goals simp [Keyword.required] at hk

theorem gives_of_not_header {k k' : Keyword} (hk : k ∈ Keyword.required)
    (hk' : k' ∉ Keyword.required) (hn : names k' line = true) (b : Bool) :
    b = (b || names k line) := by
  have hne : k ≠ k' := fun h => hk' (h ▸ hk)
  rw [names_eq_decide hn, decide_eq_false hne, Bool.or_false]

theorem names_of_not_parts (hl : partsGlyphs line = false) :
    names .startChar line = false ∧ names .endChar line = false := by
  simp only [partsGlyphs, Bool.or_eq_false_iff] at hl
  exact ⟨hl.1.1, hl.2⟩

theorem Takes.follows (h : s.Takes n line s') : s.Follows n line s' := by
  cases hm : s.mode with
  | outside =>
    cases hl : partsGlyphs line with
    | false =>
      obtain ⟨hheader, rfl⟩ := (takes_outside hm hl).mp h
      obtain ⟨hstart, hstop⟩ := names_of_not_parts hl
      exact
        { gives := fun _ => gives_heed hheader
          line? := by simp [hstart, hstop, heed]
          start := by simp [hstart] }
    | true =>
      obtain ⟨hstart, code, -, rfl⟩ := (takes_outside_parts hm hl).mp h
      exact
        { gives := fun _ hk => gives_of_not_header hk (by decide) hstart _
          line? := by simp [hstart, Mode.line?]
          start := by simp [hm, Mode.line?] }
  | inGlyph g =>
    cases hl : partsGlyphs line with
    | false =>
      obtain ⟨⟨hheader, -⟩, rfl⟩ := (takes_inGlyph hm hl).mp h
      obtain ⟨hstart, hstop⟩ := names_of_not_parts hl
      exact
        { gives := fun _ => gives_heed hheader
          line? := by simp [hstart, hstop, hm, Mode.line?, OpenGlyph.heed]
          start := by simp [hstart] }
    | true =>
      obtain ⟨hbitmap, box, advance, -, -, rfl⟩ := (takes_inGlyph_parts hm hl).mp h
      have hd := names_eq_decide hbitmap
      exact
        { gives := fun _ hk => gives_of_not_header hk (by decide) hbitmap _
          line? := by simp [hd, hm, Mode.line?]
          start := by simp [hd] }
  | inRows g =>
    cases hl : names .endChar line with
    | false =>
      obtain ⟨hrow, rfl⟩ := (takes_inRows hm hl).mp h
      have hnone := hrow.names_eq_false
      exact
        { gives := fun k _ => by rw [hnone, Bool.or_false]; rfl
          line? := by simp [hnone, hm, Mode.line?]
          start := by simp [hnone] }
    | true =>
      obtain ⟨-, rfl⟩ := (takes_inRows_stop hm hl).mp h
      have hd := names_eq_decide hl
      exact
        { gives := fun _ hk => gives_of_not_header hk (by decide) hl _
          line? := by simp [hd, Mode.line?]
          start := by simp [hd] }

end Follows

/-- What has been read tells of these lines which header lines have come and which glyph is open. -/
structure Tracks (s : Scan) (lines : List (List Char)) : Prop where
  gives : ∀ k ∈ Keyword.required, s.gives k = lines.any (names k)
  opensAt : ∀ n, OpensAt lines n ↔ s.mode.line? = some n

theorem Follows.tracks {s s' : Scan} {lines : List (List Char)} {line : List Char}
    (h : s.Follows (lines.length + 1) line s') (ht : s.Tracks lines) :
    s'.Tracks (lines ++ [line]) where
  gives k hk := by
    rw [h.gives k hk, ht.gives k hk, List.any_append, List.any_cons, List.any_nil, Bool.or_false]
  opensAt n := by
    rw [opensAt_concat, ht.opensAt, h.line?]
    cases hstart : names .startChar line with
    | true =>
      rw [h.start hstart]
      simp only [if_true, true_and, reduceCtorEq, and_false, or_false, Option.some.injEq]
      exact eq_comm
    | false => cases names .endChar line <;> simp

theorem Reads.tracks {s : Scan} {lines : List (List Char)} (h : Reads {} 1 lines s) :
    s.Tracks lines := by
  induction lines using List.reverseRecOn generalizing s with
  | nil =>
    obtain rfl := h
    refine ⟨fun k hk => ?_, fun n => ?_⟩
    · cases k <;> rfl
    · simp [OpensAt, Mode.line?]
  | append_singleton lines line ih =>
    obtain ⟨before, hread, s', htake, rfl⟩ := reads_append.mp h
    rw [Nat.add_comm] at htake
    exact htake.follows.tracks (ih hread)

theorem contents_of_open {s : Scan} {n : Nat} (h : s.mode.line? = some n) (last : Nat) :
    s.contents last = .error ⟨n, .unterminated⟩ := by
  rw [contents]
  cases hm : s.mode with
  | outside => simp [hm, Mode.line?] at h
  | inGlyph g | inRows g =>
    rw [hm] at h
    cases h
    rfl

theorem contents_of_not_open {s : Scan} (h : s.mode.line? = none) (last : Nat) :
    match Keyword.required.find? (!s.gives ·) with
    | some k => s.contents last = .error ⟨last, .missingField k⟩
    | none => ∃ b, s.contents last = .ok b := by
  have hm : s.mode = .outside := by
    cases hm : s.mode with
    | outside => rfl
    | inGlyph g | inRows g => simp [hm, Mode.line?] at h
  simp only [contents, hm, Keyword.required, List.find?, gives]
  cases s.size with
  | none => rfl
  | some size =>
    cases s.box with
    | none => rfl
    | some box =>
      cases s.ascent with
      | none => rfl
      | some ascent =>
        cases s.descent with
        | none => rfl
        | some descent =>
          cases s.characters with
          | none => rfl
          | some characters => exact ⟨_, rfl⟩

end Scan

theorem Scan.contents_fails {s : Scan} {last : Nat} {e : ParseFault}
    (h : s.contents last = .error e) : e.cause.AtEnd := by
  cases hopen : s.mode.line? with
  | some n =>
    cases (contents_of_open hopen last).symm.trans h
    trivial
  | none =>
    have hnone := contents_of_not_open hopen last
    split at hnone
    · next k hk =>
      cases hnone.symm.trans h
      exact List.mem_of_find?_eq_some hk
    · obtain ⟨b, hb⟩ := hnone
      cases hb.symm.trans h

theorem firstFault_of_parse {text : String} {e : ParseFault} (h : parse text = .error e)
    (he : ¬ e.cause.AtEnd) : FirstFault (Text.lines text.toList) e := by
  rcases reads_or_firstFault (Text.lines text.toList) with ⟨s, hread⟩ | ⟨e', hfault⟩
  · rw [parse_of_reads hread] at h
    exact absurd (Scan.contents_fails h) he
  · cases h.symm.trans hfault.parse
    exact hfault

theorem line_of_parse_error {text : String} {e : ParseFault} (h : parse text = .error e) :
    1 ≤ e.line ∧ e.line ≤ max 1 (Text.lines text.toList).length := by
  rcases reads_or_firstFault (Text.lines text.toList) with ⟨s, hread⟩ | ⟨e', hfault⟩
  · rw [parse_of_reads hread] at h
    cases hopen : s.mode.line? with
    | some n =>
      cases (Scan.contents_of_open hopen _).symm.trans h
      obtain ⟨hpos, hle⟩ := ((hread.tracks.opensAt n).mpr hopen).le_length
      exact ⟨hpos, Nat.le_trans hle (Nat.le_max_right _ _)⟩
    | none =>
      have hnone := Scan.contents_of_not_open hopen (max 1 (Text.lines text.toList).length)
      split at hnone
      · cases hnone.symm.trans h
        exact ⟨Nat.le_max_left _ _, Nat.le_refl _⟩
      · obtain ⟨b, hb⟩ := hnone
        cases hb.symm.trans h
  · cases h.symm.trans hfault.parse
    obtain ⟨hpos, hle⟩ := hfault.le_length
    exact ⟨hpos, Nat.le_trans hle (Nat.le_max_right _ _)⟩

/-- A line at fault decides: no line before it is at fault, and any other text that is the same up
to it is refused in the same way. If no line is at fault, then a text is refused only for a glyph
that is open at its end, on the line where it starts, and otherwise only for the first required
header line that never came, on the last line. -/
theorem first_fault_decides :
    (∀ (text : String) (e : ParseFault), parse text = .error e → ¬ e.cause.AtEnd →
      let lines := Text.lines text.toList
      (1 ≤ e.line ∧ e.line ≤ lines.length) ∧
      (∀ before : String, Text.lines before.toList = lines.take (e.line - 1) →
        ∀ e', parse before = .error e' → e'.cause.AtEnd) ∧
      ∀ other : String, (Text.lines other.toList).take e.line = lines.take e.line →
        parse other = .error e) ∧
    ∀ text : String, (∀ e, parse text = .error e → e.cause.AtEnd) →
      let lines := Text.lines text.toList
      (∀ n, OpensAt lines n → parse text = .error ⟨n, .unterminated⟩) ∧
      ((∀ n, ¬ OpensAt lines n) →
        match Keyword.required.find? fun k => !lines.any (names k) with
        | some k => parse text = .error ⟨max 1 lines.length, .missingField k⟩
        | none => ∃ b, parse text = .ok b) := by
  refine ⟨fun text e h he => ?_, fun text hend => ?_⟩
  · have hfault := firstFault_of_parse h he
    refine ⟨hfault.le_length, fun before hbefore e' h' => ?_, fun other hother => ?_⟩
    · obtain ⟨s, hread⟩ := hfault.reads_take
      rw [← hbefore] at hread
      rw [parse_of_reads hread] at h'
      exact Scan.contents_fails h'
    · exact (hfault.of_take hother).parse
  · obtain ⟨s, hread⟩ : ∃ s, Scan.Reads {} 1 (Text.lines text.toList) s := by
      rcases reads_or_firstFault (Text.lines text.toList) with hread | ⟨e, hfault⟩
      · exact hread
      · exact absurd (hend e hfault.parse) hfault.not_atEnd
    intro lines
    have htracks : s.Tracks lines := hread.tracks
    rw [parse_of_reads hread]
    refine ⟨fun n hn => ?_, fun hnone => ?_⟩
    · exact Scan.contents_of_open ((htracks.opensAt n).mp hn) _
    · have hclosed : s.mode.line? = none :=
        Option.eq_none_iff_forall_ne_some.mpr fun n hn => hnone n ((htracks.opensAt n).mpr hn)
      have hmissing : Keyword.required.find? (fun k => !lines.any (names k)) =
          Keyword.required.find? (!s.gives ·) :=
        List.find?_congr fun k hk => by rw [htracks.gives k hk]
      rw [hmissing]
      exact Scan.contents_of_not_open hclosed _

/-- A bad number before a line that ends no glyph, a glyph that nothing ends, and a header without
its second line and its last two. -/
theorem first_fault_decides_thrice :
    let bad := "SIZE 8\nCHARS x\nENDCHAR"
    let opened := "SIZE 8\nSTARTCHAR 0041\nDWIDTH 1 0\n"
    let bare := "\nFONT_ASCENT 1\nsize 8"
    let e : ParseFault := ⟨2, .badValue .chars "x"⟩
    (parse bad = .error e ∧ (∀ e', parse "SIZE 8\n" = .error e' → e'.cause.AtEnd) ∧
      parse "SIZE 8\r\nCHARS x\nBITMAP" = .error e) ∧
    parse opened = .error ⟨2, .unterminated⟩ ∧
    parse bare = .error ⟨3, .missingField .fontBoundingBox⟩ := by
  intro bad opened bare e
  have hbad : parse bad = .error e := by decide +kernel
  have hopened : ∀ e, parse opened = .error e → e.cause.AtEnd := by
    have h : parse opened = .error ⟨2, .unterminated⟩ := by decide +kernel
    rw [h]
    rintro e ⟨⟩
    trivial
  have hbare : ∀ e, parse bare = .error e → e.cause.AtEnd := by
    have h : parse bare = .error ⟨3, .missingField .fontBoundingBox⟩ := by decide +kernel
    rw [h]
    rintro e ⟨⟩
    simp [LineFault.AtEnd, Keyword.required]
  have hclosed : ∀ line ∈ Text.lines bare.toList, names .startChar line = false := by
    decide +kernel
  have hfirst : Keyword.required.find? (fun k => !(Text.lines bare.toList).any (names k)) =
      some .fontBoundingBox := by decide +kernel
  have hlast : max 1 (Text.lines bare.toList).length = 3 := by decide +kernel
  obtain ⟨-, hbefore, hother⟩ := first_fault_decides.1 bad e hbad (by simp [e, LineFault.AtEnd])
  obtain ⟨hopens, -⟩ := first_fault_decides.2 opened hopened
  obtain ⟨-, hmissing⟩ := first_fault_decides.2 bare hbare
  rw [hfirst, hlast] at hmissing
  refine ⟨⟨hbad, hbefore _ (by decide +kernel), hother _ (by decide +kernel)⟩, ?_, ?_⟩
  · exact hopens 2 ⟨["SIZE 8".toList], "STARTCHAR 0041".toList, ["DWIDTH 1 0".toList],
      by decide +kernel, rfl, by decide +kernel, by decide +kernel⟩
  · refine hmissing ?_
    rintro n ⟨before, line, after, hl, -, hstart, -⟩
    rw [hclosed line (by simp [hl])] at hstart
    cases hstart

end PixelFont.Bdf
