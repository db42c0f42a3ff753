import PixelFont.Proofs.Bdf.Step

/-!
What reading line after line takes. Main statements: `Scan.reads_parts`, by which the lines of sound
parts are all taken, and `Scan.rest_of_reads`, by which no others are.
-/

set_option autoImplicit false

namespace PixelFont.Bdf

section Latest

variable {α : Type} {k : Keyword} {f : List Char → Option α} {lines : List (List Char)}

theorem mem_of_latest? {line : List Char} (h : latest? k lines = some line) :
    line ∈ lines ∧ names k line = true := List.mem_filter.mp (List.mem_of_getLast? h)

theorem newest_none : newest k f lines none = (latest? k lines).bind f := by
  cases h : latest? k lines <;> simp [newest, h]

theorem exists_of_latest? {v : α} (h : (latest? k lines).bind f = some v) :
    ∃ line ∈ lines, names k line = true := by
  obtain ⟨line, hline, -⟩ := Option.bind_eq_some_iff.mp h
  exact ⟨line, mem_of_latest? hline⟩

theorem exists_latest? (h : ∃ line ∈ lines, names k line = true)
    (hf : ∀ line ∈ lines, names k line = true → (f line).isSome = true) :
    ∃ v, (latest? k lines).bind f = some v := by
  obtain ⟨line, hmem, hk⟩ := h
  have hsome : (latest? k lines).isSome = true := by
    rw [latest?, Option.isSome_iff_ne_none, ne_eq, List.getLast?_eq_none_iff]
    exact List.ne_nil_of_mem (List.mem_filter.mpr ⟨hmem, hk⟩)
  obtain ⟨last, hlast⟩ := Option.isSome_iff_exists.mp hsome
  obtain ⟨hmem, hk⟩ := mem_of_latest? hlast
  obtain ⟨v, hv⟩ := Option.isSome_iff_exists.mp (hf last hmem hk)
  exact ⟨v, by rw [hlast, Option.bind_some, hv]⟩

end Latest

namespace Parts

theorem lines_cons (p : Part) (ps : Parts) : lines (p :: ps) = p.lines ++ lines ps := rfl

theorem unrowed_cons (p : Part) (ps : Parts) : unrowed (p :: ps) = p.unrowed ++ unrowed ps := rfl

end Parts

namespace Scan

/-- These lines, numbered from `n` on, are all taken, and leave this. -/
def Reads (s : Scan) (n : Nat) : List (List Char) → Scan → Prop
  | [], s' => s' = s
  | line :: lines, s'' => ∃ s', s.Takes n line s' ∧ s'.Reads (n + 1) lines s''

theorem steps_eq_ok_iff {s s' : Scan} {n : Nat} {log : Array Event} {lines : List (List Char)} :
    (steps s n log lines).2 = .ok s' ↔ s.Reads n lines s' := by
  induction lines generalizing s n log with
  | nil => simp [steps, Reads, eq_comm]
  | cons line lines ih =>
    rw [steps, Reads]
    cases h : s.step n line with
    | error e => simp [Takes, h]
    | ok r =>
      obtain ⟨next, event⟩ := r
      simp [ih, Takes, h]

theorem reads_append {s s'' : Scan} {n : Nat} {as bs : List (List Char)} :
    s.Reads n (as ++ bs) s'' ↔ ∃ s', s.Reads n as s' ∧ s'.Reads (n + as.length) bs s'' := by
  induction as generalizing s n with
  | nil => simp [Reads]
  | cons a as ih =>
    simp only [List.cons_append, Reads, ih, List.length_cons, Nat.add_assoc, Nat.add_comm 1]
    constructor
    · rintro ⟨s₁, h₁, s₂, h₂, h⟩
      exact ⟨s₂, ⟨s₁, h₁, h₂⟩, h⟩
    · rintro ⟨s₂, ⟨s₁, h₁, h₂⟩, h⟩
      exact ⟨s₁, h₁, s₂, h₂, h⟩

theorem Reads.unique {s s₁ s₂ : Scan} {n : Nat} {lines : List (List Char)}
    (h₁ : s.Reads n lines s₁) (h₂ : s.Reads n lines s₂) : s₁ = s₂ := by
  have h₁ : (steps s n #[] lines).2 = .ok s₁ := steps_eq_ok_iff.mpr h₁
  have h₂ : (steps s n #[] lines).2 = .ok s₂ := steps_eq_ok_iff.mpr h₂
  exact Except.ok.inj (h₁.symm.trans h₂)

section Complete

variable {s : Scan}

theorem reads_inner {g : OpenGlyph} {lines : List (List Char)} (hm : s.mode = .inGlyph g)
    (hp : ∀ line ∈ lines, partsGlyphs line = false) (hh : ∀ line ∈ lines, HeaderNumbers line)
    (hx : ∀ line ∈ lines, MetricNumbers line) (n : Nat) :
    s.Reads n lines { s.heed lines with mode := .inGlyph (g.heed lines) } := by
  induction lines generalizing s g n with
  | nil => simp [Reads, ← hm]
  | cons line lines ih =>
    rw [List.forall_mem_cons] at hp hh hx
    let next : Scan := { s.heed [line] with mode := .inGlyph (g.heed [line]) }
    have htake : s.Takes n line next := (takes_inGlyph hm hp.1).mpr ⟨⟨hh.1, hx.1⟩, rfl⟩
    have hrest := ih (rfl : next.mode = _) hp.2 hh.2 hx.2 (n + 1)
    rw [← List.singleton_append, heed_append, OpenGlyph.heed_append]
    exact ⟨next, htake, hrest⟩

theorem reads_rows {g : RowGlyph} {rows : List (List Char)} (hm : s.mode = .inRows g)
    (hr : ∀ row ∈ rows, IsRow g.box.width row) (n : Nat) :
    s.Reads n rows { s with
      mode := .inRows { g with rows := g.rows ++ (rows.map (pixels g.box.width)).toArray } } := by
  induction rows generalizing s g n with
  | nil => simp [Reads, ← hm]
  | cons row rows ih =>
    rw [List.forall_mem_cons] at hr
    let next : Scan :=
      { s with mode := .inRows { g with rows := g.rows.push (pixels g.box.width row) } }
    have htake : s.Takes n row next :=
      (takes_inRows hm (hr.1.names_eq_false .endChar)).mpr ⟨hr.1, rfl⟩
    have hrest := ih (rfl : next.mode = _) hr.2 (n + 1)
    refine ⟨next, htake, ?_⟩
    simpa [next] using hrest

theorem reads_rows_stop {g : RowGlyph} {rows : List (List Char)} {stop : List Char}
    (hm : s.mode = .inRows g) (hr : ∀ row ∈ rows, IsRow g.box.width row)
    (hc : g.rows.size + rows.length = g.box.height.toNat) (hs : names .endChar stop = true)
    (n : Nat) :
    s.Reads n (rows ++ [stop]) { s with
      glyphs := s.glyphs.push
        ⟨g.code, g.advance, g.box, g.rows.toList ++ rows.map (pixels g.box.width)⟩
      mode := .outside } := by
  refine reads_append.mpr ⟨_, reads_rows hm hr n, _, (takes_inRows_stop rfl hs).mpr ⟨?_, rfl⟩, ?_⟩
  · simpa using hc
  · simp [Reads]

theorem reads_block {b : Block} (hm : s.mode = .outside) (hb : b.WellFormed)
    (hh : ∀ line ∈ b.inner, HeaderNumbers line) :
    ∃ g, b.Gives g ∧
      ∀ n, s.Reads n b.lines { s.heed b.inner with glyphs := s.glyphs.push g } := by
  obtain ⟨code, hcode⟩ := Option.isSome_iff_exists.mp hb.code
  obtain ⟨advance, hadvance⟩ : ∃ a, b.advance? = some a :=
    exists_latest? hb.hasAdvance fun line hl => hb.metrics line hl .dWidth (by decide)
  obtain ⟨box, hbox⟩ : ∃ x, b.box? = some x :=
    exists_latest? hb.hasBox fun line hl => hb.metrics line hl .bbx (by decide)
  obtain ⟨hcount, hrows⟩ := hb.rows box hbox
  refine ⟨⟨code, advance, box, b.rows.map (pixels box.width)⟩, ⟨hcode, hadvance, hbox, rfl⟩,
    fun n => ?_⟩
  let g : OpenGlyph := { code, line := n }
  let started : Scan := { s with mode := .inGlyph g }
  let heeded : Scan := { s.heed b.inner with mode := .inGlyph (g.heed b.inner) }
  let announced : Scan := { s.heed b.inner with mode := .inRows { code, line := n, advance, box } }
  have hstart : s.Takes n b.start started :=
    (takes_outside_parts hm (partsGlyphs_of_names hb.start)).mpr ⟨hb.start, code, hcode, rfl⟩
  have hinner : started.Reads (n + 1) b.inner heeded := reads_inner rfl hb.inner hh hb.metrics _
  have hbitmap (m : Nat) : heeded.Takes m b.bitmap announced :=
    (takes_inGlyph_parts rfl (partsGlyphs_of_names hb.bitmap)).mpr
      ⟨hb.bitmap, box, advance, newest_none.trans hbox, newest_none.trans hadvance, rfl⟩
  have hrest (m : Nat) : announced.Reads m (b.rows ++ [b.stop]) { s.heed b.inner with
      glyphs := s.glyphs.push ⟨code, advance, box, b.rows.map (pixels box.width)⟩ } := by
    have h := reads_rows_stop (rfl : announced.mode = _) hrows (by simpa using hcount) hb.stop m
    simpa [announced, heed, hm] using h
  exact ⟨started, hstart, reads_append.mpr ⟨heeded, hinner, announced, hbitmap _, hrest _⟩⟩

theorem reads_parts {ps : Parts} (hm : s.mode = .outside) (hp : ∀ p ∈ ps, p.Sound)
    (hh : ∀ line ∈ ps.unrowed, HeaderNumbers line) :
    ∃ gs, List.Forall₂ Block.Gives ps.blocks gs ∧
      ∀ n, s.Reads n ps.lines { s.heed ps.unrowed with glyphs := s.glyphs ++ gs.toArray } := by
  induction ps generalizing s with
  | nil => exact ⟨[], .nil, fun n => by simp [Parts.lines, Parts.unrowed, Reads]⟩
  | cons p ps ih =>
    rw [List.forall_mem_cons] at hp
    rw [Parts.unrowed_cons, List.forall_mem_append] at hh
    cases p with
    | outside line =>
      obtain ⟨gs, hgs, hread⟩ := ih (s := s.heed [line]) hm hp.2 hh.2
      refine ⟨gs, hgs, fun n => ⟨s.heed [line], ?_, ?_⟩⟩
      · exact (takes_outside hm hp.1).mpr ⟨hh.1 line List.mem_cons_self, rfl⟩
      · rw [Parts.unrowed_cons, heed_append]
        exact hread (n + 1)
    | glyph b =>
      obtain ⟨g, hg, hblock⟩ := reads_block hm hp.1 hh.1
      let next : Scan := { s.heed b.inner with glyphs := s.glyphs.push g }
      obtain ⟨gs, hgs, hread⟩ := ih (s := next) hm hp.2 hh.2
      refine ⟨g :: gs, .cons hg hgs, fun n => ?_⟩
      have hglyphs : s.glyphs ++ (g :: gs).toArray = next.glyphs ++ gs.toArray := by simp [next]
      rw [Parts.lines_cons, Parts.unrowed_cons, heed_append, hglyphs]
      exact reads_append.mpr ⟨next, hblock n, hread _⟩

end Complete

def Parted (lines : List (List Char)) : Prop :=
  ∃ ps : Parts, lines = ps.lines ∧ (∀ p ∈ ps, p.Sound) ∧ ∀ line ∈ ps.unrowed, HeaderNumbers line

/-- What may follow once some rows of a glyph have been read: the other ones, the end of the glyph,
and what may follow that. -/
def RowsThenParted (box : Box) (found : Nat) (lines : List (List Char)) : Prop :=
  ∃ rows stop rest, lines = rows ++ stop :: rest ∧
    (found + rows.length = box.height.toNat ∧ ∀ row ∈ rows, IsRow box.width row) ∧
    names .endChar stop = true ∧ Parted rest

end Scan

open Scan

/-- What may follow in this mode, for the lines to end outside the glyphs. -/
def Mode.Rest : Mode → List (List Char) → Prop
  | .outside, lines => Parted lines
  | .inGlyph g, lines => ∃ inner bitmap box advance rest, lines = inner ++ bitmap :: rest ∧
      (∀ line ∈ inner, partsGlyphs line = false ∧ HeaderNumbers line ∧ MetricNumbers line) ∧
      names .bitmap bitmap = true ∧ (g.heed inner).box = some box ∧
      (g.heed inner).advance = some advance ∧ RowsThenParted box 0 rest
  | .inRows g, lines => RowsThenParted g.box g.rows.size lines

namespace Scan

variable {s s' : Scan} {n : Nat} {line : List Char} {lines : List (List Char)}

theorem rest_outside (hm : s.mode = .outside) (h : s.Takes n line s')
    (hr : s'.mode.Rest lines) : Parted (line :: lines) := by
  cases hl : partsGlyphs line with
  | false =>
    obtain ⟨hh, rfl⟩ := (takes_outside hm hl).mp h
    rw [show (s.heed [line]).mode = .outside from hm] at hr
    obtain ⟨ps, rfl, hp, hhs⟩ := hr
    refine ⟨.outside line :: ps, rfl, List.forall_mem_cons.mpr ⟨hl, hp⟩, ?_⟩
    exact List.forall_mem_cons.mpr ⟨hh, hhs⟩
  | true =>
    obtain ⟨hstart, code, hcode, rfl⟩ := (takes_outside_parts hm hl).mp h
    obtain ⟨inner, bitmap, box, advance, rest, rfl, hinner, hbitmap, hbox, hadvance,
      rows, stop, rest, rfl, ⟨hcount, hrows⟩, hstop, ps, rfl, hp, hhs⟩ := hr
    have hbox : (latest? .bbx inner).bind box? = some box := newest_none.symm.trans hbox
    have hadvance : (latest? .dWidth inner).bind advance? = some advance :=
      newest_none.symm.trans hadvance
    let b : Block := ⟨line, inner, bitmap, rows, stop⟩
    have hb : b.WellFormed :=
      { start := hstart
        code := Option.isSome_of_eq_some hcode
        inner := fun l hl => (hinner l hl).1
        metrics := fun l hl => (hinner l hl).2.2
        hasAdvance := exists_of_latest? hadvance
        hasBox := exists_of_latest? hbox
        bitmap := hbitmap
        rows := fun box' hbox' => by
          obtain rfl := Option.some.inj (hbox.symm.trans hbox')
          exact ⟨(Nat.zero_add _).symm.trans hcount, hrows⟩
        stop := hstop }
    refine ⟨.glyph b :: ps, ?_, List.forall_mem_cons.mpr ⟨hb, hp⟩, ?_⟩
    · simp [Parts.lines_cons, Part.lines, Block.lines, b]
    · exact List.forall_mem_append.mpr ⟨fun l hl => (hinner l hl).2.1, hhs⟩

theorem rest_inGlyph {g : OpenGlyph} (hm : s.mode = .inGlyph g) (h : s.Takes n line s')
    (hr : s'.mode.Rest lines) : (Mode.inGlyph g).Rest (line :: lines) := by
  cases hl : partsGlyphs line with
  | false =>
    obtain ⟨⟨hh, hx⟩, rfl⟩ := (takes_inGlyph hm hl).mp h
    obtain ⟨inner, bitmap, box, advance, rest, rfl, hinner, hbitmap, hbox, hadvance, hrest⟩ := hr
    rw [← OpenGlyph.heed_append] at hbox hadvance
    exact ⟨line :: inner, bitmap, box, advance, rest, rfl,
      List.forall_mem_cons.mpr ⟨⟨hl, hh, hx⟩, hinner⟩, hbitmap, hbox, hadvance, hrest⟩
  | true =>
    obtain ⟨hbitmap, box, advance, hbox, hadvance, rfl⟩ := (takes_inGlyph_parts hm hl).mp h
    exact ⟨[], line, box, advance, lines, rfl, by simp, hbitmap, hbox, hadvance, hr⟩

theorem rest_inRows {g : RowGlyph} (hm : s.mode = .inRows g) (h : s.Takes n line s')
    (hr : s'.mode.Rest lines) : RowsThenParted g.box g.rows.size (line :: lines) := by
  cases hl : names .endChar line with
  | false =>
    obtain ⟨hrow, rfl⟩ := (takes_inRows hm hl).mp h
    obtain ⟨rows, stop, rest, rfl, ⟨hcount, hrows⟩, hstop, hrest⟩ := hr
    have hcount : g.rows.size + 1 + rows.length = g.box.height.toNat := by simpa using hcount
    refine ⟨line :: rows, stop, rest, rfl, ⟨?_, ?_⟩, hstop, hrest⟩
    · rw [List.length_cons]
      omega
    · exact List.forall_mem_cons.mpr ⟨hrow, hrows⟩
  | true =>
    obtain ⟨hcount, rfl⟩ := (takes_inRows_stop hm hl).mp h
    exact ⟨[], line, lines, rfl, ⟨by simpa using hcount, by simp⟩, hl, hr⟩

theorem rest_of_takes (h : s.Takes n line s') (hr : s'.mode.Rest lines) :
    s.mode.Rest (line :: lines) := by
  cases hm : s.mode with
  | outside => exact rest_outside hm h hr
  | inGlyph g => exact rest_inGlyph hm h hr
  | inRows g => exact rest_inRows hm h hr

theorem rest_of_reads (h : s.Reads n lines s') (hm : s'.mode = .outside) : s.mode.Rest lines := by
  induction lines generalizing s n with
  | nil =>
    obtain rfl := h
    rw [hm]
    exact ⟨[], rfl, by simp, by simp [Parts.unrowed]⟩
  | cons line lines ih =>
    obtain ⟨next, htake, hread⟩ := h
    exact rest_of_takes htake (ih hread)

end Scan
end PixelFont.Bdf
