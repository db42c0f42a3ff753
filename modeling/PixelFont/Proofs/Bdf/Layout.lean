import PixelFont.Proofs.Bdf.Printed
import PixelFont.Proofs.Source

set_option autoImplicit false

namespace PixelFont

namespace Text

theorem isWord_toDigits (n : Nat) : IsWord (Nat.toDigits 10 n) := by
  refine ⟨(isDecimal_toDigits n).ne_nil, fun c hc => Bdf.isBlank_of_digit ?_⟩
  rw [digit?_of_isDigit (by decide) ((isDecimal_toDigits n).digits c hc)]
  rfl

theorem isWord_integer (v : Int) : IsWord (integer v) := by
  have hword := isWord_toDigits v.natAbs
  rw [integer]
  split
  · exact ⟨List.cons_ne_nil _ _, List.forall_mem_cons.mpr ⟨by decide, hword.2⟩⟩
  · exact hword

theorem IsWord.lineFeed_notMem {cs : List Char} (h : IsWord cs) : '\n' ∉ cs := fun hc =>
  Bool.false_ne_true ((h.2 _ hc).symm.trans (by decide))

end Text

namespace Bdf

theorem Keyword.isWord_text (k : Keyword) : Text.IsWord k.text.toList := by
  cases k <;> decide

def Keyword.line (k : Keyword) (args : List (List Char)) : List Char :=
  k.text.toList ++ args.flatMap (' ' :: ·)

section Line

variable {k : Keyword} {args : List (List Char)}

theorem isBlank_of_head? {c : Char} (h : (args.flatMap (' ' :: ·)).head? = some c) :
    Text.isBlank c = true := by
  cases args with
  | nil => cases h
  | cons arg args =>
    obtain rfl := Option.some.inj h
    decide

theorem words_line (k : Keyword) (args : List (List Char)) :
    Text.words (k.line args) = k.text.toList :: Text.words (args.flatMap (' ' :: ·)) :=
  Text.words_append k.isWord_text fun _ => isBlank_of_head?

theorem names_line (k : Keyword) (args : List (List Char)) (k' : Keyword) :
    names k' (k.line args) = decide (k' = k) := by
  refine names_eq_decide ?_ k'
  rw [names, wordAt, words_line]
  exact beq_self_eq_true _

theorem words_flatMap (h : ∀ arg ∈ args, Text.IsWord arg) :
    Text.words (args.flatMap (' ' :: ·)) = args := by
  induction args with
  | nil => rfl
  | cons arg args ih =>
    rw [List.forall_mem_cons] at h
    rw [List.flatMap_cons, List.cons_append, Text.words_cons_blank (by decide),
      Text.words_append h.1 fun _ => isBlank_of_head?, ih h.2]

theorem wordAt_line (h : ∀ arg ∈ args, Text.IsWord arg) (i : Nat) :
    wordAt (k.line args) (i + 1) = args.getD i [] := by
  rw [wordAt, words_line, words_flatMap h, List.getD_cons_succ]

theorem lineFeed_notMem_line (h : ∀ arg ∈ args, '\n' ∉ arg) : '\n' ∉ k.line args := by
  rw [Keyword.line, List.mem_append, List.mem_flatMap]
  rintro (hk | ⟨arg, harg, hc⟩)
  · exact k.isWord_text.lineFeed_notMem hk
  · exact h arg harg ((List.mem_cons.mp hc).resolve_left (by decide))

theorem lineFeed_notMem_words (h : ∀ arg ∈ args, Text.IsWord arg) : '\n' ∉ k.line args :=
  lineFeed_notMem_line fun arg harg => (h arg harg).lineFeed_notMem

theorem partsGlyphs_line :
    partsGlyphs (k.line args) = decide (k ∈ [Keyword.startChar, .bitmap, .endChar]) :=
  partsGlyphs_of_names (by rw [names_line, decide_eq_true rfl])

end Line

def numberArgs (v : UInt32) : List (List Char) := [Nat.toDigits 10 v.toNat]

def boxArgs (b : Box) : List (List Char) :=
  [Nat.toDigits 10 b.width.toNat, Nat.toDigits 10 b.height.toNat, Text.integer b.xOffset.toInt,
   Text.integer b.yOffset.toInt]

def advanceArgs (a : Advance) : List (List Char) :=
  [Nat.toDigits 10 a.x.toNat, Nat.toDigits 10 a.y.toNat]

def noticeArgs (notice : String) : List (List Char) := ['"' :: (notice.toList ++ ['"'])]

theorem isWord_numberArgs (v : UInt32) : ∀ arg ∈ numberArgs v, Text.IsWord arg := by
  simp [numberArgs, Text.isWord_toDigits]

theorem isWord_boxArgs (b : Box) : ∀ arg ∈ boxArgs b, Text.IsWord arg := by
  simp [boxArgs, Text.isWord_toDigits, Text.isWord_integer]

theorem isWord_advanceArgs (a : Advance) : ∀ arg ∈ advanceArgs a, Text.IsWord arg := by
  simp [advanceArgs, Text.isWord_toDigits]

theorem writesNumber_line (k : Keyword) (v : UInt32) : WritesNumber v (k.line (numberArgs v)) := by
  rw [WritesNumber, wordAt_line (isWord_numberArgs v)]
  exact Text.isDecimal_toDigits _

theorem writesBox_line (k : Keyword) (b : Box) : WritesBox b (k.line (boxArgs b)) := by
  rw [writesBox_iff]
  simp only [wordAt_line (isWord_boxArgs b)]
  exact ⟨Text.isDecimal_toDigits _, Text.isDecimal_toDigits _, Text.isInteger_integer _,
    Text.isInteger_integer _⟩

theorem writesAdvance_line (k : Keyword) (a : Advance) :
    WritesAdvance a (k.line (advanceArgs a)) := by
  rw [writesAdvance_iff]
  simp only [wordAt_line (isWord_advanceArgs a)]
  exact ⟨Text.isDecimal_toDigits _, Text.isDecimal_toDigits _⟩

theorem writesNotice_line (k : Keyword) (notice : String) :
    WritesNotice notice (k.line (noticeArgs notice)) :=
  ⟨[], k.text.toList, [' '], [], by simp [Keyword.line, noticeArgs], k.isWord_text, by simp,
    by decide, by decide, by decide⟩

/-- The digit of the four pixels that a row starts with; those that are not there count as unset. -/
def nibble (row : List Bool) : Nat :=
  8 * (row.getD 0 false).toNat + 4 * (row.getD 1 false).toNat + 2 * (row.getD 2 false).toNat +
    (row.getD 3 false).toNat

def rowLine (row : List Bool) : List Char :=
  (List.range ((row.length + 3) / 4)).map fun i => Nat.digitChar (nibble (row.drop (4 * i)))

theorem nibble_lt (row : List Bool) : nibble row < 16 := by
  have hbit (i : Nat) := Bool.toNat_lt (row.getD i false)
  have h0 := hbit 0
  have h1 := hbit 1
  have h2 := hbit 2
  have h3 := hbit 3
  rw [nibble]
  omega

theorem testBit_nibble (row : List Bool) {j : Nat} (hj : j < 4) :
    (nibble row).testBit (3 - j) = row.getD j false := by
  have hall : ∀ a b c d : Bool, ∀ j < 4,
      (8 * a.toNat + 4 * b.toNat + 2 * c.toNat + d.toNat).testBit (3 - j) =
        [a, b, c, d].getD j false := by decide
  rw [nibble, hall _ _ _ _ j hj]
  match j, hj with
  | 0, _ | 1, _ | 2, _ | 3, _ => rfl

theorem pixelAt_rowLine {row : List Bool} {x : Nat} (hx : x < row.length) :
    pixelAt (rowLine row) x = row[x] := by
  have hdigit : x / 4 < (row.length + 3) / 4 := by omega
  have hbit : x % 4 < 4 := Nat.mod_lt x (by decide)
  have hget : (rowLine row)[x / 4]? = some (Nat.digitChar (nibble (row.drop (4 * (x / 4))))) := by
    simp [rowLine, hdigit]
  rw [pixelAt, hget, Option.bind_some, Text.digit?_digitChar (nibble_lt _), Option.getD_some,
    testBit_nibble _ hbit]
  simp [List.getD_eq_getElem?_getD, Nat.div_add_mod, hx]

theorem digit?_of_mem_rowLine {row : List Bool} {c : Char} (h : c ∈ rowLine row) :
    (Text.digit? 16 c).isSome = true := by
  obtain ⟨i, -, rfl⟩ := List.mem_map.mp h
  rw [Text.digit?_digitChar (nibble_lt _)]
  rfl

theorem writesRow_rowLine (row : List Bool) : WritesRow row (rowLine row) where
  digits _ := digit?_of_mem_rowLine
  enough := by
    rw [rowLine, List.length_map, List.length_range]
    omega
  row_eq := by
    refine List.ext_getElem (by simp) fun x hx _ => ?_
    rw [List.getElem_map, List.getElem_range, pixelAt_rowLine hx]

def glyphBlock (g : Glyph) : Block where
  start := Keyword.startChar.line [g.code.text.toList]
  inner := [Keyword.dWidth.line (advanceArgs g.advance), Keyword.bbx.line (boxArgs g.box)]
  bitmap := Keyword.bitmap.line []
  rows := g.rows.map rowLine
  stop := Keyword.endChar.line []

def headerLines (b : Bdf) : List (List Char) :=
  [Keyword.size.line (numberArgs b.header.size),
   Keyword.fontBoundingBox.line (boxArgs b.header.box),
   Keyword.fontAscent.line (numberArgs b.header.ascent),
   Keyword.fontDescent.line (numberArgs b.header.descent),
   Keyword.copyright.line (noticeArgs b.copyright),
   Keyword.chars.line (numberArgs b.header.characters)]

def layout (b : Bdf) : Parts :=
  b.headerLines.map .outside ++ b.glyphs.map fun g => .glyph (glyphBlock g)

-- Ended by two characters, a line is given back as it is even if its last one is a carriage return.
def source (b : Bdf) : String :=
  String.ofList (b.layout.lines.flatMap (· ++ ['\r', '\n']))

theorem isWord_code (c : CharCode) : Text.IsWord c.text.toList := by
  have hdigits := (Text.natural?_isSome_iff.mp (Option.isSome_of_eq_some c.natural?_text))
  exact ⟨hdigits.1, fun d hd => isBlank_of_digit (hdigits.2 d hd)⟩

theorem writesGlyph_glyphBlock (g : Glyph) : WritesGlyph g (glyphBlock g) where
  start := by rw [glyphBlock, names_line, decide_eq_true rfl]
  code := wordAt_line (by simpa using isWord_code g.code) 0
  advance := ⟨_, by simp [glyphBlock, names_line], writesAdvance_line .dWidth _⟩
  box := ⟨_, by simp [glyphBlock, names_line], writesBox_line .bbx _⟩
  bitmap := by rw [glyphBlock, names_line, decide_eq_true rfl]
  rows := by
    rw [glyphBlock, List.forall₂_map_right_iff, List.forall₂_same]
    exact fun row _ => writesRow_rowLine row
  stop := by rw [glyphBlock, names_line, decide_eq_true rfl]

theorem unrowed_layout (b : Bdf) : b.layout.unrowed =
    b.headerLines ++ b.glyphs.flatMap fun g => (glyphBlock g).inner := by
  simp [layout, Parts.unrowed, Part.unrowed, List.flatMap_map]

theorem filter_unrowed_layout (b : Bdf) {k : Keyword} (hk : k ≠ .dWidth ∧ k ≠ .bbx) :
    b.layout.unrowed.filter (names k) = b.headerLines.filter (names k) := by
  have hglyphs : (b.glyphs.flatMap fun g => (glyphBlock g).inner).filter (names k) = [] := by
    simp [List.filter_flatMap, glyphBlock, names_line, hk]
  rw [unrowed_layout, List.filter_append, hglyphs, List.append_nil]

theorem once_layout {b : Bdf} {k : Keyword} {p : List Char → Prop} {line : List Char}
    (hk : k ≠ .dWidth ∧ k ≠ .bbx) (hl : b.headerLines.filter (names k) = [line]) (hp : p line) :
    Once k p b.layout.unrowed :=
  ⟨line, (filter_unrowed_layout b hk).trans hl, hp⟩

theorem blocks_layout (b : Bdf) : b.layout.blocks = b.glyphs.map glyphBlock := by
  simp [layout, Parts.blocks, Part.block?, List.filterMap_map, Function.comp_def]

theorem writes_layout (b : Bdf) : Writes b b.layout where
  unrowed line hl := by
    rw [unrowed_layout, List.mem_append, List.mem_flatMap] at hl
    rcases hl with hl | ⟨g, -, hl⟩ <;>
      simp only [headerLines, glyphBlock, List.mem_cons, List.not_mem_nil, or_false] at hl
    · rcases hl with rfl | rfl | rfl | rfl | rfl | rfl <;> exact partsGlyphs_line
    · rcases hl with rfl | rfl <;> exact partsGlyphs_line
  size := once_layout (by decide) (by simp [headerLines, names_line])
    (writesNumber_line .size _)
  box := once_layout (by decide) (by simp [headerLines, names_line])
    (writesBox_line .fontBoundingBox _)
  ascent := once_layout (by decide) (by simp [headerLines, names_line])
    (writesNumber_line .fontAscent _)
  descent := once_layout (by decide) (by simp [headerLines, names_line])
    (writesNumber_line .fontDescent _)
  characters := once_layout (by decide) (by simp [headerLines, names_line])
    (writesNumber_line .chars _)
  copyright := once_layout (by decide) (by simp [headerLines, names_line])
    (writesNotice_line .copyright _)
  glyphs := by
    rw [blocks_layout, List.forall₂_map_right_iff, List.forall₂_same]
    exact fun g _ => writesGlyph_glyphBlock g

theorem lineFeed_notMem_glyphBlock (g : Glyph) : ∀ line ∈ (glyphBlock g).lines, '\n' ∉ line := by
  have hrow (row : List Bool) : '\n' ∉ rowLine row := fun h =>
    absurd (isBlank_of_digit (digit?_of_mem_rowLine h)) (by decide)
  simp only [Block.lines, glyphBlock, List.forall_mem_cons, List.forall_mem_append,
    List.forall_mem_map]
  exact ⟨lineFeed_notMem_words (by simpa using isWord_code g.code),
    ⟨lineFeed_notMem_words (isWord_advanceArgs _), lineFeed_notMem_words (isWord_boxArgs _),
      by simp⟩,
    lineFeed_notMem_words (by simp), fun row _ => hrow row, lineFeed_notMem_words (by simp),
    by simp⟩

theorem lineFeed_notMem_headerLines {b : Bdf} (h : '\n' ∉ b.copyright.toList) :
    ∀ line ∈ b.headerLines, '\n' ∉ line := by
  have hnumber (k : Keyword) (v : UInt32) : '\n' ∉ k.line (numberArgs v) :=
    lineFeed_notMem_words (isWord_numberArgs v)
  have hbox (k : Keyword) (box : Box) : '\n' ∉ k.line (boxArgs box) :=
    lineFeed_notMem_words (isWord_boxArgs box)
  -- The notice may have blanks in it, so it is no word.
  have hnotice : '\n' ∉ Keyword.copyright.line (noticeArgs b.copyright) :=
    lineFeed_notMem_line (by simpa [noticeArgs] using h)
  simp [headerLines, hnumber, hbox, hnotice]

/-- A value whose glyphs have the shapes of their boxes and whose notice is one line is read off its
own source. -/
theorem parse_source {b : Bdf}
    (hs : ∀ g ∈ b.glyphs, g.rows.HasShape g.box.width.toNat g.box.height.toNat)
    (hn : '\n' ∉ b.copyright.toList) : parse b.source = .ok b := by
  have hlines : ∀ line ∈ b.layout.lines, '\n' ∉ line := by
    intro line hl
    rw [layout, Parts.lines, List.flatMap_append, List.mem_append] at hl
    rcases hl with hl | hl
    · exact lineFeed_notMem_headerLines hn line (by simpa [Part.lines, List.flatMap_map] using hl)
    · rw [List.flatMap_map, List.mem_flatMap] at hl
      obtain ⟨g, -, hg⟩ := hl
      exact lineFeed_notMem_glyphBlock g line hg
  refine (writes_layout b).parse hs ?_
  rw [source, String.toList_ofList, (Text.ended_flatMap hlines).lines]

theorem mem_of_mem_notice {line : List Char} {c : Char}
    (h : c ∈ (Line.ofText line).notice.toList) : c ∈ line := by
  have hopen (cs : List Char) : (if cs.head? = some '"' then cs.tail else cs).Sublist cs := by
    split
    · exact List.tail_sublist cs
    · exact .refl cs
  have hclose (cs : List Char) :
      (if cs.getLast? = some '"' then cs.dropLast else cs).Sublist cs := by
    split
    · exact List.dropLast_sublist cs
    · exact .refl cs
  rw [Line.notice, String.toList_ofList] at h
  have hrest : c ∈ (Line.ofText line).rest := (hopen _).mem ((hclose _).mem h)
  simp only [Line.ofText, List.span_eq_takeWhile_dropWhile] at hrest
  have hstart := (List.dropWhile_sublist _).mem (Text.mem_of_mem_trim hrest)
  exact (List.dropWhile_sublist _).mem hstart

theorem lineFeed_notMem_of_parse {text : String} {b : Bdf} (h : parse text = .ok b) :
    '\n' ∉ b.copyright.toList := by
  obtain ⟨ps, hl, -, hb⟩ := exists_parts_of_parse h
  rw [hb.copyright]
  cases hlast : latest? .copyright ps.unrowed with
  | none => simp
  | some line =>
    have hmem : line ∈ ps.unrowed := (List.mem_filter.mp (List.mem_of_getLast? hlast)).1
    obtain ⟨p, hp, hline⟩ := List.mem_flatMap.mp hmem
    have hpart : line ∈ p.lines := by
      cases p with
      | outside line => exact hline
      | glyph block => exact List.mem_cons_of_mem _ (List.mem_append_left _ hline)
    have hlines : line ∈ Text.lines text.toList := hl ▸ List.mem_flatMap.mpr ⟨p, hp, hpart⟩
    intro hc
    exact (Text.ended_lines _).lineFeed_notMem line hlines (mem_of_mem_notice hc)

theorem exists_parse_iff {b : Bdf} : (∃ text, parse text = .ok b) ↔
    (∀ g ∈ b.glyphs, g.rows.HasShape g.box.width.toNat g.box.height.toNat) ∧
      '\n' ∉ b.copyright.toList := by
  constructor
  · rintro ⟨text, h⟩
    exact ⟨hasShape_of_parse h, lineFeed_notMem_of_parse h⟩
  · rintro ⟨hs, hn⟩
    exact ⟨b.source, parse_source hs hn⟩

end Bdf
end PixelFont
