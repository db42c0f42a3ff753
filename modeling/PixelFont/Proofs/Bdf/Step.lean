import PixelFont.Proofs.Bdf.Line

set_option autoImplicit false

namespace PixelFont.Bdf

section Newest

variable {α : Type}

/-- The value on the last of these lines with this keyword, or the earlier value if none has it. -/
def newest (k : Keyword) (f : List Char → Option α) (lines : List (List Char))
    (earlier : Option α) : Option α :=
  ((latest? k lines).map f).getD earlier

variable (k : Keyword) (f : List Char → Option α)

theorem newest_append (as bs : List (List Char)) (v : Option α) :
    newest k f (as ++ bs) v = newest k f bs (newest k f as v) := by
  rw [newest, newest, newest, latest?, latest?, latest?, List.filter_append, List.getLast?_append]
  cases (bs.filter (names k)).getLast? <;> simp

theorem newest_singleton (line : List Char) (v : Option α) :
    newest k f [line] v = if names k line then f line else v := by
  cases h : names k line <;> simp [newest, latest?, h]

end Newest

def Scan.heed (s : Scan) (lines : List (List Char)) : Scan :=
  { s with
    size := newest .size (number? · 1) lines s.size
    box := newest .fontBoundingBox box? lines s.box
    ascent := newest .fontAscent (number? · 1) lines s.ascent
    descent := newest .fontDescent (number? · 1) lines s.descent
    copyright := newest .copyright (fun line => some (Line.ofText line).notice) lines s.copyright
    characters := newest .chars (number? · 1) lines s.characters }

def OpenGlyph.heed (g : OpenGlyph) (lines : List (List Char)) : OpenGlyph :=
  { g with
    advance := newest .dWidth advance? lines g.advance
    box := newest .bbx box? lines g.box }

@[simp] theorem Scan.heed_nil (s : Scan) : s.heed [] = s := rfl

@[simp] theorem OpenGlyph.heed_nil (g : OpenGlyph) : g.heed [] = g := rfl

theorem Scan.heed_append (s : Scan) (as bs : List (List Char)) :
    s.heed (as ++ bs) = (s.heed as).heed bs := by
  simp only [Scan.heed, newest_append]

theorem OpenGlyph.heed_append (g : OpenGlyph) (as bs : List (List Char)) :
    g.heed (as ++ bs) = (g.heed as).heed bs := by
  simp only [OpenGlyph.heed, newest_append]

def Scan.Takes (s : Scan) (n : Nat) (line : List Char) (s' : Scan) : Prop :=
  ∃ event, s.step n line = .ok (s', event)

def Keyword.header : List Keyword := .copyright :: required

section Kinds

variable {k : Keyword} {line : List Char}

theorem partsGlyphs_of_names (h : names k line = true) :
    partsGlyphs line = decide (k ∈ [Keyword.startChar, .bitmap, .endChar]) := by
  cases k <;> simp [partsGlyphs, names_eq_decide h]

theorem exists_of_partsGlyphs (h : partsGlyphs line = true) :
    ∃ k ∈ [Keyword.startChar, .bitmap, .endChar], names k line = true := by
  simpa [partsGlyphs, or_assoc] using h

theorem numbers_iff (ks : List Keyword) (h : names k line = true) :
    (∀ k' ∈ ks, names k' line = true → hasNumbers line k' = true) ↔
      (k ∈ ks → hasNumbers line k = true) := by
  simp only [names_eq_decide h, decide_eq_true_iff]
  exact ⟨fun hl hk => hl k hk rfl, fun hl k' hk' he => he ▸ hl (he ▸ hk')⟩

end Kinds

theorem exists_event_iff {α : Type} {x : Except LineFault α} {f : α → Scan}
    {event : α → Option Event} {s' : Scan} :
    (∃ e, (x >>= fun a => pure (f a, event a)) = .ok (s', e)) ↔ ∃ a, x = .ok a ∧ s' = f a := by
  cases x with
  | error e => simp [bind, Except.bind]
  | ok a => simp [bind, Except.bind, pure, Except.pure, eq_comm]

namespace Scan

variable {s s' : Scan} {n : Nat} {line : List Char} {k : Keyword}

theorem keyword_header (hk : k ∈ Keyword.header)
    (hn : names k line = true) :
    (∃ event, s.keyword n (Line.ofText line) k = .ok (s', event)) ↔
      hasNumbers line k = true ∧ s' = s.heed [line] := by
  have hd := names_eq_decide hn
  cases k
  case size | fontAscent | fontDescent | chars =>
    rw [keyword, exists_event_iff]
    simp only [unsigned_eq_ok_iff, hasNumbers, heed, newest_singleton, hd]
    cases number? line 1 <;> simp
  case fontBoundingBox =>
    rw [keyword, exists_event_iff]
    simp only [box_eq_ok_iff, hasNumbers, heed, newest_singleton, hd]
    cases box? line <;> simp
  case copyright =>
    simp [keyword, hasNumbers, heed, newest_singleton, hd, pure, Except.pure, eq_comm]
  all_goals simp [Keyword.header, Keyword.required] at hk

theorem heed_of_not_header (hk : k ∉ Keyword.header)
    (hn : names k line = true) : s.heed [line] = s := by
  have hd := names_eq_decide hn
  cases k <;> simp [Keyword.header, Keyword.required, heed, newest_singleton, hd] at hk ⊢

theorem heed_of_not_metric {g : OpenGlyph} (hk : k ∉ [Keyword.dWidth, .bbx])
    (hn : names k line = true) : g.heed [line] = g := by
  have hd := names_eq_decide hn
  cases k <;> simp [OpenGlyph.heed, newest_singleton, hd] at hk ⊢

theorem heed_of_keyword?_eq_none (hk : (Line.ofText line).keyword? = none) :
    s.heed [line] = s := by
  simp [heed, newest_singleton, names_eq_false_of_keyword? hk]

theorem takes_iff_keyword (hm : ∀ g, s.mode ≠ .inRows g)
    (hk : (Line.ofText line).keyword? = some k) :
    s.Takes n line s' ↔ ∃ event, s.keyword n (Line.ofText line) k = .ok (s', event) := by
  rw [Takes, step]
  split
  · next g h => exact absurd h (hm g)
  · simp only [hk]

theorem takes_iff_of_none (hm : ∀ g, s.mode ≠ .inRows g)
    (hk : (Line.ofText line).keyword? = none) : s.Takes n line s' ↔ s' = s := by
  rw [Takes, step]
  split
  · next g h => exact absurd h (hm g)
  · simp [hk, eq_comm]

theorem required_imp_iff (hk : k ∈ Keyword.header) :
    (k ∈ Keyword.required → hasNumbers line k = true) ↔ hasNumbers line k = true := by
  rcases List.mem_cons.mp hk with rfl | hk
  · simp [hasNumbers]
  · simp [hk]

theorem not_metric_of_header (hk : k ∈ Keyword.header) :
    k ∉ [Keyword.dWidth, .bbx] := by
  cases k <;> simp [Keyword.header, Keyword.required] at hk ⊢

section Outside

variable (hm : s.mode = .outside)
include hm

theorem takes_outside (hl : partsGlyphs line = false) :
    s.Takes n line s' ↔ HeaderNumbers line ∧ s' = s.heed [line] := by
  have hr (g : RowGlyph) : s.mode ≠ .inRows g := by simp [hm]
  have ho : s.open? = none := by simp [open?, hm]
  cases hk : (Line.ofText line).keyword? with
  | none =>
    rw [takes_iff_of_none hr hk, heed_of_keyword?_eq_none hk]
    simp [HeaderNumbers, names_eq_false_of_keyword? hk]
  | some k =>
    have hn := keyword?_ofText.mp hk
    rw [takes_iff_keyword hr hk, HeaderNumbers, numbers_iff _ hn]
    by_cases hh : k ∈ Keyword.header
    · rw [keyword_header hh hn, required_imp_iff hh]
    · rw [heed_of_not_header hh hn]
      rw [partsGlyphs_of_names hn] at hl
      -- Only an advance or a box is left, and outside a glyph nothing is read of it.
      cases k
      case dWidth | bbx =>
        simp [keyword, ho, Keyword.required, pure, Except.pure, @eq_comm _ s']
      all_goals simp [Keyword.header, Keyword.required] at hh hl

theorem takes_outside_parts (hl : partsGlyphs line = true) :
    s.Takes n line s' ↔ names .startChar line = true ∧
      ∃ c, code? line = some c ∧ s' = { s with mode := .inGlyph { code := c, line := n } } := by
  have hr (g : RowGlyph) : s.mode ≠ .inRows g := by simp [hm]
  have ho : s.open? = none := by simp [open?, hm]
  obtain ⟨k, hk, hn⟩ := exists_of_partsGlyphs hl
  rw [takes_iff_keyword hr (keyword?_ofText.mpr hn), names_eq_decide hn]
  cases k
  case startChar =>
    have he : s.keyword n (Line.ofText line) .startChar = (Line.ofText line).code >>= fun c =>
        pure ({ s with mode := .inGlyph { code := c, line := n } }, some (.glyphStarts c n)) := by
      simp [keyword, ho]
    rw [he, exists_event_iff]
    simp only [code_eq_ok_iff, decide_true, true_and]
  all_goals simp [keyword, ho, throw, throwThe, MonadExceptOf.throw] at hk ⊢

end Outside

section InGlyph

variable {g : OpenGlyph} (hm : s.mode = .inGlyph g)
include hm

theorem takes_inGlyph (hl : partsGlyphs line = false) :
    s.Takes n line s' ↔ (HeaderNumbers line ∧ MetricNumbers line) ∧
      s' = { s.heed [line] with mode := .inGlyph (g.heed [line]) } := by
  have hr (g : RowGlyph) : s.mode ≠ .inRows g := by simp [hm]
  have ho : s.open? = some g := by simp [open?, hm]
  cases hk : (Line.ofText line).keyword? with
  | none =>
    have hnone := names_eq_false_of_keyword? hk
    rw [takes_iff_of_none hr hk, heed_of_keyword?_eq_none hk]
    simp [HeaderNumbers, MetricNumbers, hnone, OpenGlyph.heed, newest_singleton, ← hm]
  | some k =>
    have hn := keyword?_ofText.mp hk
    rw [takes_iff_keyword hr hk, HeaderNumbers, MetricNumbers, numbers_iff _ hn, numbers_iff _ hn]
    have hd := names_eq_decide hn
    by_cases hh : k ∈ Keyword.header
    · have hmetric := not_metric_of_header hh
      have hs : { s.heed [line] with mode := .inGlyph g } = s.heed [line] := by
        rw [← hm]
        rfl
      rw [keyword_header hh hn, required_imp_iff hh, heed_of_not_metric hmetric hn, hs]
      simp only [hmetric, false_imp_iff, and_true]
    · rw [heed_of_not_header hh hn]
      rw [partsGlyphs_of_names hn] at hl
      -- Only an advance or a box is left again, and each counts.
      cases k
      case dWidth =>
        simp only [keyword, ho]
        rw [exists_event_iff]
        simp only [advance_eq_ok_iff, hasNumbers, OpenGlyph.heed, newest_singleton, hd]
        cases advance? line <;> simp [Keyword.required]
      case bbx =>
        simp only [keyword, ho]
        rw [exists_event_iff]
        simp only [box_eq_ok_iff, hasNumbers, OpenGlyph.heed, newest_singleton, hd]
        cases box? line <;> simp [Keyword.required]
      all_goals simp [Keyword.header, Keyword.required] at hh hl

theorem takes_inGlyph_parts (hl : partsGlyphs line = true) :
    s.Takes n line s' ↔ names .bitmap line = true ∧
      ∃ box advance, g.box = some box ∧ g.advance = some advance ∧
        s' = { s with mode := .inRows { code := g.code, line := g.line, advance, box } } := by
  have hr (g : RowGlyph) : s.mode ≠ .inRows g := by simp [hm]
  have ho : s.open? = some g := by simp [open?, hm]
  obtain ⟨k, hk, hn⟩ := exists_of_partsGlyphs hl
  rw [takes_iff_keyword hr (keyword?_ofText.mpr hn), names_eq_decide hn]
  cases k
  case bitmap =>
    simp only [keyword, ho, decide_true, true_and]
    cases g.box <;> cases g.advance <;>
      simp [throw, throwThe, MonadExceptOf.throw, pure, Except.pure, @eq_comm _ s']
  all_goals simp [keyword, ho, throw, throwThe, MonadExceptOf.throw, bind, Except.bind] at hk ⊢

end InGlyph

section InRows

variable {g : RowGlyph} (hm : s.mode = .inRows g)
include hm

theorem takes_inRows_stop (hl : names .endChar line = true) :
    s.Takes n line s' ↔ g.rows.size = g.box.height.toNat ∧
      s' = { s with
        glyphs := s.glyphs.push ⟨g.code, g.advance, g.box, g.rows.toList⟩, mode := .outside } := by
  simp only [Takes, step, hm, row, keyword?_ofText.mpr hl]
  by_cases hh : g.rows.size = g.box.height.toNat <;>
    simp [hh, throw, throwThe, MonadExceptOf.throw, bind, Except.bind, pure, Except.pure,
      @eq_comm _ s']

theorem step_inRows (hl : names .endChar line = false) :
    s.step n line = (do
      let pixels ← rowPixels (Text.trim line) g.box.width
      return ({ s with mode := .inRows { g with rows := g.rows.push pixels } }, none)) := by
  have hk : (Line.ofText line).keyword? ≠ some .endChar := by
    rw [ne_eq, keyword?_ofText, hl]
    exact Bool.false_ne_true
  simp only [step, hm, row, if_neg hk]

theorem takes_inRows (hl : names .endChar line = false) :
    s.Takes n line s' ↔ IsRow g.box.width line ∧
      s' = { s with mode := .inRows { g with rows := g.rows.push (pixels g.box.width line) } } := by
  rw [Takes, step_inRows hm hl, exists_event_iff]
  simp only [rowPixels_eq_ok_iff, and_assoc, exists_and_left, exists_eq_left]

end InRows

end Scan
end PixelFont.Bdf
