import PixelFont.Proofs.Bdf.Acceptance
import PixelFont.Proofs.Bitmap
import PixelFont.Proofs.Text.Lines

set_option autoImplicit false

namespace PixelFont

namespace CharCode

theorem natural?_text (c : CharCode) : Text.natural? 16 c.text.toList = some c.value.toNat := by
  have hc := c.value.toNat_lt
  have hfirst := Text.digit?_digitChar (by omega : c.value.toNat / 4096 < 16)
  have hdigit (n : Nat) := Text.digit?_digitChar (Nat.mod_lt n (by decide : 0 < 16))
  simp [text, Text.natural?, hfirst, hdigit]
  omega

end CharCode

namespace Bdf

/-- Just one of these lines has the keyword, and this holds of it. -/
def Once (k : Keyword) (p : List Char → Prop) (lines : List (List Char)) : Prop :=
  ∃ line, lines.filter (names k) = [line] ∧ p line

/-- The number stands after the keyword of the line, as do the values below. -/
def WritesNumber (v : UInt32) (line : List Char) : Prop := Text.IsDecimal v.toNat (wordAt line 1)

@[mk_iff] structure WritesBox (b : Box) (line : List Char) : Prop where
  width : Text.IsDecimal b.width.toNat (wordAt line 1)
  height : Text.IsDecimal b.height.toNat (wordAt line 2)
  xOffset : Text.IsInteger b.xOffset.toInt (wordAt line 3)
  yOffset : Text.IsInteger b.yOffset.toInt (wordAt line 4)

@[mk_iff] structure WritesAdvance (a : Advance) (line : List Char) : Prop where
  x : Text.IsDecimal a.x.toNat (wordAt line 1)
  y : Text.IsDecimal a.y.toNat (wordAt line 2)

/-- The notice stands in quotes after the keyword, whatever is in it. -/
def WritesNotice (notice : String) (line : List Char) : Prop :=
  ∃ indent word gap after : List Char,
    line = indent ++ (word ++ (gap ++ ('"' :: (notice.toList ++ ['"']) ++ after))) ∧
      Text.IsWord word ∧ gap ≠ [] ∧ Text.Blanks indent ∧ Text.Blanks gap ∧ Text.Blanks after

/-- Hexadecimal digits that start with the pixels of the row. There may be more of them than the
row takes, and what pixels come after it does not matter. -/
@[mk_iff] structure WritesRow (row : List Bool) (line : List Char) : Prop where
  digits : ∀ c ∈ line, (Text.digit? 16 c).isSome = true
  enough : row.length ≤ 4 * line.length
  row_eq : row = (List.range row.length).map (pixelAt line)

/-- The lines of a glyph. Lines of the header, and lines without a known keyword, may stand among
those before its rows. -/
@[mk_iff] structure WritesGlyph (g : Glyph) (block : Block) : Prop where
  start : names .startChar block.start = true
  code : wordAt block.start 1 = g.code.text.toList
  advance : Once .dWidth (WritesAdvance g.advance) block.inner
  box : Once .bbx (WritesBox g.box) block.inner
  bitmap : names .bitmap block.bitmap = true
  rows : List.Forall₂ WritesRow g.rows block.rows
  stop : names .endChar block.stop = true

/-- A whole source: each line of the header once, in any order, and each glyph in its turn. -/
structure Writes (b : Bdf) (ps : Parts) : Prop where
  unrowed : ∀ line ∈ ps.unrowed, partsGlyphs line = false
  size : Once .size (WritesNumber b.header.size) ps.unrowed
  box : Once .fontBoundingBox (WritesBox b.header.box) ps.unrowed
  ascent : Once .fontAscent (WritesNumber b.header.ascent) ps.unrowed
  descent : Once .fontDescent (WritesNumber b.header.descent) ps.unrowed
  characters : Once .chars (WritesNumber b.header.characters) ps.unrowed
  copyright : Once .copyright (WritesNotice b.copyright) ps.unrowed
  glyphs : List.Forall₂ WritesGlyph b.glyphs ps.blocks

section Decidable

variable (k : Keyword) (line : List Char) (lines : List (List Char))

instance (p : List Char → Prop) [DecidablePred p] : Decidable (Once k p lines) :=
  match h : lines.filter (names k) with
  | [line] => decidable_of_iff (p line) (by simp [Once, h])
  | [] | _ :: _ :: _ => isFalse (by simp [Once, h])

instance (v : UInt32) : Decidable (WritesNumber v line) :=
  inferInstanceAs (Decidable (Text.IsDecimal _ _))

instance (b : Box) : Decidable (WritesBox b line) := decidable_of_iff _ (writesBox_iff b line).symm

instance (a : Advance) : Decidable (WritesAdvance a line) :=
  decidable_of_iff _ (writesAdvance_iff a line).symm

instance (row : List Bool) : Decidable (WritesRow row line) :=
  decidable_of_iff (line.all (fun c => (Text.digit? 16 c).isSome) = true ∧
    row.length ≤ 4 * line.length ∧ row = (List.range row.length).map (pixelAt line))
    (by rw [writesRow_iff, List.all_eq_true])

instance (g : Glyph) (block : Block) : Decidable (WritesGlyph g block) :=
  decidable_of_iff _ (writesGlyph_iff g block).symm

end Decidable

namespace Once

variable {k : Keyword} {p : List Char → Prop} {lines : List (List Char)}

theorem of_names (h : Once k p lines) {line : List Char} (hl : line ∈ lines)
    (hn : names k line = true) : p line := by
  obtain ⟨found, hf, hp⟩ := h
  have hmem : line ∈ lines.filter (names k) := List.mem_filter.mpr ⟨hl, hn⟩
  rw [hf, List.mem_singleton] at hmem
  exact hmem ▸ hp

theorem latest? (h : Once k p lines) : ∃ line, Bdf.latest? k lines = some line ∧ p line := by
  obtain ⟨line, hf, hp⟩ := h
  exact ⟨line, by rw [Bdf.latest?, hf]; rfl, hp⟩

theorem bind_latest? (h : Once k p lines) {α : Type} {f : List Char → Option α} {v : α}
    (hf : ∀ line, p line → f line = some v) : (Bdf.latest? k lines).bind f = some v := by
  obtain ⟨line, hl, hp⟩ := h.latest?
  rw [hl, Option.bind_some, hf line hp]

theorem exists_mem (h : Once k p lines) : ∃ line ∈ lines, names k line = true := by
  obtain ⟨line, hf, -⟩ := h
  have hmem : line ∈ lines.filter (names k) := by simp [hf]
  exact ⟨line, List.mem_filter.mp hmem⟩

end Once

section Lines

variable {line : List Char}

theorem number?_of_isDecimal {v : UInt32} {i : Nat}
    (h : Text.IsDecimal v.toNat (wordAt line i)) : number? line i = some v := by
  rw [number?, h.unsigned?, Option.bind_some, toUInt32?_eq_some_iff]

theorem offset?_of_isInteger {v : Int32} {i : Nat}
    (h : Text.IsInteger v.toInt (wordAt line i)) : offset? line i = some v := by
  rw [offset?, h.signed?, Option.bind_some, toInt32?_eq_some_iff]

theorem WritesNumber.number? {v : UInt32} (h : WritesNumber v line) :
    Bdf.number? line 1 = some v := number?_of_isDecimal h

theorem WritesBox.box? {b : Box} (h : WritesBox b line) : Bdf.box? line = some b := by
  simp [Bdf.box?, number?_of_isDecimal h.width, number?_of_isDecimal h.height,
    offset?_of_isInteger h.xOffset, offset?_of_isInteger h.yOffset]

theorem WritesAdvance.advance? {a : Advance} (h : WritesAdvance a line) :
    Bdf.advance? line = some a := by
  simp [Bdf.advance?, number?_of_isDecimal h.x, number?_of_isDecimal h.y]

theorem code?_text {c : CharCode} (h : wordAt line 1 = c.text.toList) : code? line = some c := by
  have hl : c.text.toList.length = 4 := by simp [CharCode.text]
  rw [code?, h, if_pos hl, c.natural?_text, Option.bind_some, toUInt16?_eq_some_iff.mpr rfl]
  rfl

theorem WritesNotice.notice {notice : String} (h : WritesNotice notice line) :
    (Line.ofText line).notice = notice := by
  obtain ⟨indent, word, gap, after, rfl, ⟨hne, hword⟩, hgap, hindent, hblank, hafter⟩ := h
  have hquote : Text.isBlank '"' = false := by decide
  have hstart (rest : List Char) : Text.trimStart (indent ++ (word ++ rest)) = word ++ rest := by
    refine Text.trimStart_append hindent fun c hc => ?_
    rw [List.head?_append_of_ne_nil _ hne] at hc
    exact hword c (List.mem_of_mem_head? hc)
  have hspan (rest : List Char) : (word ++ (gap ++ rest)).span (fun c => !Text.isBlank c) =
      (word, gap ++ rest) := by
    have hpos : ∀ c ∈ word, (!Text.isBlank c) = true := by simpa using hword
    obtain ⟨c, more, rfl⟩ := List.exists_cons_of_ne_nil hgap
    rw [List.span_eq_takeWhile_dropWhile, List.takeWhile_append_of_pos hpos,
      List.dropWhile_append_of_pos hpos]
    simp [hblank c List.mem_cons_self]
  have hhead (c : Char) (hc : ('"' :: (notice.toList ++ ['"'])).head? = some c) :
      Text.isBlank c = false := by
    obtain rfl := Option.some.inj hc
    exact hquote
  have hlast (c : Char) (hc : ('"' :: (notice.toList ++ ['"'])).getLast? = some c) :
      Text.isBlank c = false := by
    rw [← List.cons_append, List.getLast?_concat] at hc
    obtain rfl := Option.some.inj hc
    exact hquote
  have hrest : (Line.ofText (indent ++ (word ++ (gap ++
      ('"' :: (notice.toList ++ ['"']) ++ after))))).rest = '"' :: (notice.toList ++ ['"']) := by
    rw [Line.ofText, hstart, hspan]
    exact Text.trim_append hblank hafter hhead hlast
  rw [Line.notice, hrest]
  simp

theorem isBlank_of_digit {c : Char} (h : (Text.digit? 16 c).isSome = true) :
    Text.isBlank c = false :=
  of_digit (p := fun c => Text.isBlank c = false) (by decide) h

theorem WritesRow.isRow {row : List Bool} (h : WritesRow row line) {width : UInt32}
    (hl : row.length = width.toNat) : IsRow width line ∧ row = pixels width line := by
  have hblank : ∀ c ∈ line, Text.isBlank c = false := fun c hc => isBlank_of_digit (h.digits c hc)
  have htrim : Text.trim line = line := by
    have h := @Text.trim_append [] line [] (by simp [Text.Blanks]) (by simp [Text.Blanks])
      (fun c hc => hblank c (List.mem_of_mem_head? hc))
      (fun c hc => hblank c (List.mem_of_getLast? hc))
    rwa [List.nil_append, List.append_nil] at h
  rw [IsRow, pixels, htrim, ← hl]
  exact ⟨⟨h.digits, h.enough⟩, h.row_eq⟩

end Lines

theorem exists_mem_left {α β : Type} {r : α → β → Prop} {as : List α} {bs : List β}
    (h : List.Forall₂ r as bs) : ∀ b ∈ bs, ∃ a, r a b := by
  induction h with
  | nil => simp
  | cons hab _ ih => exact List.forall_mem_cons.mpr ⟨⟨_, hab⟩, ih⟩

namespace WritesGlyph

variable {g : Glyph} {block : Block}

theorem rows_eq (h : WritesGlyph g block)
    (hs : g.rows.HasShape g.box.width.toNat g.box.height.toNat) :
    (∀ line ∈ block.rows, IsRow g.box.width line) ∧
      g.rows = block.rows.map (pixels g.box.width) := by
  have hrows : List.Forall₂ (fun row line => row = pixels g.box.width line ∧ IsRow g.box.width line)
      g.rows block.rows :=
    ((List.forall₂_and_left _ _).mpr ⟨hs.2, h.rows⟩).imp fun _ _ hw => (hw.2.isRow hw.1).symm
  refine ⟨fun line hl => ?_, ?_⟩
  · obtain ⟨row, -, hrow⟩ := exists_mem_left hrows line hl
    exact hrow
  · rw [← List.forall₂_eq_eq_eq, List.forall₂_map_right_iff]
    exact hrows.imp fun _ _ hr => hr.1

theorem gives (h : WritesGlyph g block)
    (hs : g.rows.HasShape g.box.width.toNat g.box.height.toNat) : block.Gives g where
  code := code?_text h.code
  advance := h.advance.bind_latest? fun _ => WritesAdvance.advance?
  box := h.box.bind_latest? fun _ => WritesBox.box?
  rows := (h.rows_eq hs).2

theorem wellFormed (h : WritesGlyph g block) (hi : ∀ line ∈ block.inner, partsGlyphs line = false)
    (hs : g.rows.HasShape g.box.width.toNat g.box.height.toNat) : block.WellFormed where
  start := h.start
  code := Option.isSome_of_eq_some (code?_text h.code)
  inner := hi
  metrics line hl := by
    simp only [MetricNumbers, List.forall_mem_cons]
    exact ⟨fun hn => Option.isSome_of_eq_some (h.advance.of_names hl hn).advance?,
      fun hn => Option.isSome_of_eq_some (h.box.of_names hl hn).box?, by simp⟩
  hasAdvance := h.advance.exists_mem
  hasBox := h.box.exists_mem
  bitmap := h.bitmap
  rows box hb := by
    obtain rfl := Option.some.inj ((h.gives hs).box.symm.trans hb)
    exact ⟨h.rows.length_eq.symm.trans hs.1, (h.rows_eq hs).1⟩
  stop := h.stop

end WritesGlyph

namespace Writes

variable {b : Bdf} {ps : Parts}
  (hs : ∀ g ∈ b.glyphs, g.rows.HasShape g.box.width.toNat g.box.height.toNat)
include hs

theorem wellFormed (h : Writes b ps) : ps.WellFormed where
  sound p hp := by
    have hunrowed (line : List Char) (hl : line ∈ p.unrowed) : partsGlyphs line = false :=
      h.unrowed line (List.mem_flatMap.mpr ⟨p, hp, hl⟩)
    cases p with
    | outside line => exact hunrowed line List.mem_cons_self
    | glyph block =>
      have hblock : block ∈ ps.blocks := List.mem_filterMap.mpr ⟨_, hp, rfl⟩
      obtain ⟨g, hshape, hg⟩ := exists_mem_left
        ((List.forall₂_and_left _ _).mpr ⟨hs, h.glyphs⟩) block hblock
      exact hg.wellFormed hunrowed hshape
  header line hl := by
    simp only [HeaderNumbers, Keyword.required, List.forall_mem_cons]
    exact ⟨fun hn => Option.isSome_of_eq_some (h.size.of_names hl hn).number?,
      fun hn => Option.isSome_of_eq_some (h.box.of_names hl hn).box?,
      fun hn => Option.isSome_of_eq_some (h.ascent.of_names hl hn).number?,
      fun hn => Option.isSome_of_eq_some (h.descent.of_names hl hn).number?,
      fun hn => Option.isSome_of_eq_some (h.characters.of_names hl hn).number?, by simp⟩
  required := by
    simp only [Keyword.required, List.forall_mem_cons]
    exact ⟨h.size.exists_mem, h.box.exists_mem, h.ascent.exists_mem, h.descent.exists_mem,
      h.characters.exists_mem, by simp⟩

theorem says_parts (h : Writes b ps) : ps.Says b where
  size := h.size.bind_latest? fun _ => WritesNumber.number?
  box := h.box.bind_latest? fun _ => WritesBox.box?
  ascent := h.ascent.bind_latest? fun _ => WritesNumber.number?
  descent := h.descent.bind_latest? fun _ => WritesNumber.number?
  characters := h.characters.bind_latest? fun _ => WritesNumber.number?
  copyright := by
    obtain ⟨line, hl, hw⟩ := h.copyright.latest?
    rw [hl, Option.map_some, hw.notice, Option.getD_some]
  glyphs := List.Forall₂.flip (((List.forall₂_and_left _ _).mpr ⟨hs, h.glyphs⟩).imp fun _ _ hg =>
    hg.2.gives hg.1)

end Writes

theorem Block.Gives.unique {block : Block} {g g' : Glyph} (h : block.Gives g)
    (h' : block.Gives g') : g = g' := by
  have hbox := Option.some.inj (h.box.symm.trans h'.box)
  have hrows : g.rows = g'.rows := by rw [h.rows, h'.rows, hbox]
  cases g
  cases g'
  obtain rfl := Option.some.inj (h.code.symm.trans h'.code)
  obtain rfl := Option.some.inj (h.advance.symm.trans h'.advance)
  obtain rfl := hbox
  obtain rfl := hrows
  rfl

theorem Parts.Says.unique {ps : Parts} {b b' : Bdf} (h : ps.Says b) (h' : ps.Says b') : b = b' := by
  have hunique : Relator.RightUnique Block.Gives := fun _ _ _ hg hg' => hg.unique hg'
  have hglyphs := List.right_unique_forall₂' hunique h.glyphs h'.glyphs
  obtain ⟨⟨size, characters, box, ascent, descent⟩, copyright, glyphs⟩ := b
  obtain ⟨⟨size', characters', box', ascent', descent'⟩, copyright', glyphs'⟩ := b'
  obtain rfl := Option.some.inj (h.size.symm.trans h'.size)
  obtain rfl := Option.some.inj (h.box.symm.trans h'.box)
  obtain rfl := Option.some.inj (h.ascent.symm.trans h'.ascent)
  obtain rfl := Option.some.inj (h.descent.symm.trans h'.descent)
  obtain rfl := Option.some.inj (h.characters.symm.trans h'.characters)
  obtain rfl := h.copyright.trans h'.copyright.symm
  obtain rfl := hglyphs
  rfl

theorem Writes.parse {b : Bdf} {ps : Parts} (hw : Writes b ps)
    (hs : ∀ g ∈ b.glyphs, g.rows.HasShape g.box.width.toNat g.box.height.toNat) {text : String}
    (hl : Text.lines text.toList = ps.lines) : Bdf.parse text = .ok b := by
  obtain ⟨b', hp, hsays⟩ := (hw.wellFormed hs).exists_parse hl
  rw [hp, hsays.unique (hw.says_parts hs)]

/-- A source that writes out a value is read as that value, wherever the lines of its header stand,
whatever unknown lines are between them, and however its lines are ended. -/
theorem parse_printed (b : Bdf)
    (hs : ∀ g ∈ b.glyphs, g.rows.HasShape g.box.width.toNat g.box.height.toNat) (ps : Parts)
    (hw : Writes b ps) (text : String) (ht : Text.Ended ps.lines text.toList) :
    parse text = .ok b := hw.parse hs ht.lines

/-- Keywords in either case, a header line in a glyph, a notice with quotes and blanks at its ends,
and a glyph of no width whose rows are an empty line and one of needless digits. -/
theorem parse_printed_mixed :
    let b : Bdf :=
      { header := { size := 16, characters := 2, box := ⟨5, 9, 0, -2⟩, ascent := 9, descent := 2 }
        copyright := " \"\"a\" "
        glyphs := [⟨⟨0xe9⟩, ⟨4, 0⟩, ⟨5, 1, -1, 0⟩, [[true, true, true, true, true]]⟩,
          ⟨⟨0⟩, ⟨0, 0⟩, ⟨0, 2, 0, 0⟩, [[], []]⟩] }
    let text := "  size 016 75 75\nCHARS 2\r\nSTARTCHAR 00e9\nDWIDTH 4 0\n" ++
      "FONTBOUNDINGBOX 5 9 0 -02\r\nbbx 5 1 -1 0\nENCODING 233\nBITMAP\nfB\nENDCHAR\n" ++
      "COPYRIGHT \" \"\"a\" \"\r\nFONT_ASCENT 9\n\nFONT_DESCENT 2\nSTARTCHAR 0000\n" ++
      "BBX 0 2 0 0\nDWIDTH 0 0\nBITMAP\n\nA\r\nEndChar"
    parse text = .ok b := by
  intro b text
  let first : Block :=
    { start := "STARTCHAR 00e9".toList
      inner := ["DWIDTH 4 0".toList, "FONTBOUNDINGBOX 5 9 0 -02".toList, "bbx 5 1 -1 0".toList,
        "ENCODING 233".toList]
      bitmap := "BITMAP".toList
      rows := ["fB".toList]
      stop := "ENDCHAR".toList }
  let second : Block :=
    { start := "STARTCHAR 0000".toList
      inner := ["BBX 0 2 0 0".toList, "DWIDTH 0 0".toList]
      bitmap := "BITMAP".toList
      rows := ["".toList, "A".toList]
      stop := "EndChar".toList }
  let ps : Parts := [.outside "  size 016 75 75".toList, .outside "CHARS 2".toList, .glyph first,
    .outside "COPYRIGHT \" \"\"a\" \"".toList,
    .outside "FONT_ASCENT 9".toList, .outside [], .outside "FONT_DESCENT 2".toList, .glyph second]
  have hshape : ∀ g ∈ b.glyphs, g.rows.HasShape g.box.width.toNat g.box.height.toNat := by
    simp only [b, List.forall_mem_cons, Bitmap.HasShape]
    decide
  have hnotice : WritesNotice b.copyright "COPYRIGHT \" \"\"a\" \"".toList :=
    ⟨[], "COPYRIGHT".toList, [' '], [], by decide +kernel⟩
  have hw : Writes b ps :=
    { unrowed := by decide +kernel
      size := by decide +kernel
      box := by decide +kernel
      ascent := by decide +kernel
      descent := by decide +kernel
      characters := by decide +kernel
      copyright := ⟨_, by decide +kernel, hnotice⟩
      glyphs := by decide +kernel }
  have ht : Text.Ended ps.lines text.toList := by
    rw [String.toList_append, String.toList_append, String.toList_append]
    decide +kernel
  clear_value b text ps
  exact parse_printed b hshape ps hw text ht

end Bdf
end PixelFont
