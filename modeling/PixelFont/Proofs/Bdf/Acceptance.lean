import PixelFont.Proofs.Bdf.Run

set_option autoImplicit false

namespace PixelFont.Bdf

structure Scan.Ends (s : Scan) (b : Bdf) : Prop where
  mode : s.mode = .outside
  size : s.size = some b.header.size
  box : s.box = some b.header.box
  ascent : s.ascent = some b.header.ascent
  descent : s.descent = some b.header.descent
  characters : s.characters = some b.header.characters
  copyright : b.copyright = s.copyright.getD ""
  glyphs : b.glyphs = s.glyphs.toList

theorem required_eq_ok_iff {α : Type} {last : Nat} {k : Keyword} {o : Option α} {a : α} :
    Scan.required last k o = .ok a ↔ o = some a := by
  cases o <;> simp [Scan.required]

theorem contents_eq_ok_iff {s : Scan} {last : Nat} {b : Bdf} :
    s.contents last = .ok b ↔ s.Ends b := by
  rw [Scan.contents]
  cases hm : s.mode with
  | outside =>
    simp only [bind_eq_ok_iff, required_eq_ok_iff]
    constructor
    · rintro ⟨size, hsize, box, hbox, ascent, hascent, descent, hdescent, characters, hcharacters,
        h⟩
      cases h
      exact ⟨hm, hsize, hbox, hascent, hdescent, hcharacters, rfl, rfl⟩
    · rintro ⟨-, hsize, hbox, hascent, hdescent, hcharacters, hcopyright, hglyphs⟩
      refine ⟨_, hsize, _, hbox, _, hascent, _, hdescent, _, hcharacters, ?_⟩
      rw [← hcopyright, ← hglyphs]
      rfl
  | inGlyph g =>
    constructor
    · intro h
      cases h
    · intro h
      cases hm.symm.trans h.mode
  | inRows g =>
    constructor
    · intro h
      cases h
    · intro h
      cases hm.symm.trans h.mode

theorem parse_eq_ok_iff {text : String} {b : Bdf} :
    parse text = .ok b ↔ ∃ s, Scan.Reads {} 1 (Text.lines text.toList) s ∧ s.Ends b := by
  have hsteps (s : Scan) : (Scan.steps {} 1 #[] (Text.lines text.toList)).2 = .ok s ↔
      Scan.Reads {} 1 (Text.lines text.toList) s := Scan.steps_eq_ok_iff
  simp only [parse, read, ← hsteps]
  rcases Scan.steps {} 1 #[] (Text.lines text.toList) with ⟨events, e | s⟩
  · simp
  · have hends := @contents_eq_ok_iff s (max 1 (Text.lines text.toList).length) b
    simp only [Except.ok.injEq, exists_eq_left', ← hends]
    cases s.contents (max 1 (Text.lines text.toList).length) <;> simp

namespace Parts

variable {ps : Parts} {gs : List Glyph} {b : Bdf}

def scan (ps : Parts) (gs : List Glyph) : Scan :=
  { ({} : Scan).heed ps.unrowed with glyphs := gs.toArray }

theorem reads_scan (hp : ∀ p ∈ ps, p.Sound) (hh : ∀ line ∈ ps.unrowed, HeaderNumbers line) :
    ∃ gs, List.Forall₂ Block.Gives ps.blocks gs ∧ Scan.Reads {} 1 ps.lines (ps.scan gs) := by
  obtain ⟨gs, hgs, hread⟩ := Scan.reads_parts (rfl : ({} : Scan).mode = .outside) hp hh
  have hglyphs : #[] ++ gs.toArray = gs.toArray := by simp
  exact ⟨gs, hgs, by rw [scan, ← hglyphs]; exact hread 1⟩

theorem says_of_ends (hgs : List.Forall₂ Block.Gives ps.blocks gs) (h : (ps.scan gs).Ends b) :
    ps.Says b where
  size := newest_none.symm.trans h.size
  box := newest_none.symm.trans h.box
  ascent := newest_none.symm.trans h.ascent
  descent := newest_none.symm.trans h.descent
  characters := newest_none.symm.trans h.characters
  copyright := by
    rw [h.copyright, Option.map_eq_bind]
    exact congrArg (Option.getD · "") newest_none
  glyphs := by rwa [h.glyphs]

theorem WellFormed.exists_ends (h : ps.WellFormed) (gs : List Glyph) :
    ∃ b, (ps.scan gs).Ends b := by
  have hlatest {α : Type} {f : List Char → Option α} (k : Keyword) (hk : k ∈ Keyword.required)
      (hf : ∀ line, hasNumbers line k = (f line).isSome) :
      ∃ v, newest k f ps.unrowed none = some v := by
    obtain ⟨v, hv⟩ := exists_latest? (h.required k hk) fun line hl hn =>
      (hf line).symm.trans (h.header line hl k hk hn)
    exact ⟨v, newest_none.trans hv⟩
  obtain ⟨size, hsize⟩ := hlatest .size (by decide) fun _ => rfl
  obtain ⟨box, hbox⟩ := hlatest .fontBoundingBox (by decide) fun _ => rfl
  obtain ⟨ascent, hascent⟩ := hlatest .fontAscent (by decide) fun _ => rfl
  obtain ⟨descent, hdescent⟩ := hlatest .fontDescent (by decide) fun _ => rfl
  obtain ⟨characters, hcharacters⟩ := hlatest .chars (by decide) fun _ => rfl
  exact ⟨⟨⟨size, characters, box, ascent, descent⟩, (ps.scan gs).copyright.getD "", gs⟩,
    rfl, hsize, hbox, hascent, hdescent, hcharacters, rfl, rfl⟩

theorem WellFormed.exists_parse (h : ps.WellFormed) {text : String}
    (hl : Text.lines text.toList = ps.lines) : ∃ b, parse text = .ok b ∧ ps.Says b := by
  obtain ⟨gs, hgs, hread⟩ := reads_scan h.sound h.header
  obtain ⟨b, hb⟩ := h.exists_ends gs
  exact ⟨b, parse_eq_ok_iff.mpr ⟨ps.scan gs, hl ▸ hread, hb⟩, says_of_ends hgs hb⟩

end Parts

theorem exists_parts_of_parse {text : String} {b : Bdf} (h : parse text = .ok b) :
    ∃ ps : Parts, Text.lines text.toList = ps.lines ∧ ps.WellFormed ∧ ps.Says b := by
  obtain ⟨s, hread, hends⟩ := parse_eq_ok_iff.mp h
  obtain ⟨ps, hl, hp, hh⟩ : Scan.Parted (Text.lines text.toList) :=
    Scan.rest_of_reads hread hends.mode
  obtain ⟨gs, hgs, hscan⟩ := Parts.reads_scan hp hh
  rw [hl] at hread
  obtain rfl := hread.unique hscan
  have hsays := Parts.says_of_ends hgs hends
  refine ⟨ps, hl, ⟨hp, hh, ?_⟩, hsays⟩
  simp only [Keyword.required, List.forall_mem_cons]
  exact ⟨exists_of_latest? hsays.size, exists_of_latest? hsays.box, exists_of_latest? hsays.ascent,
    exists_of_latest? hsays.descent, exists_of_latest? hsays.characters, by simp⟩

/-- A text is accepted if and only if its lines part into lines outside glyphs and the blocks of
glyphs, and then says what they say, however they are parted. -/
theorem parse_ok_iff_parts (text : String) :
    ((∃ b, parse text = .ok b) ↔
      ∃ ps : Parts, Text.lines text.toList = ps.lines ∧ ps.WellFormed) ∧
    ∀ b, parse text = .ok b → ∀ ps : Parts, Text.lines text.toList = ps.lines → ps.WellFormed →
      ps.Says b := by
  refine ⟨⟨?_, ?_⟩, ?_⟩
  · rintro ⟨b, h⟩
    obtain ⟨ps, hl, hw, -⟩ := exists_parts_of_parse h
    exact ⟨ps, hl, hw⟩
  · rintro ⟨ps, hl, hw⟩
    obtain ⟨b, h, -⟩ := hw.exists_parse hl
    exact ⟨b, h⟩
  · intro b h ps hl hw
    obtain ⟨b', h', hsays⟩ := hw.exists_parse hl
    rw [h] at h'
    obtain rfl := Except.ok.inj h'
    exact hsays

/-- Keywords may be in lowercase, a header line that comes again in a glyph counts, and an advance
outside the glyphs does not. -/
theorem parse_ok_iff_parts_repeated :
    let text := "size 9\nFONTBOUNDINGBOX 1 2 0 -1\nFONT_ASCENT 1\nFONT_DESCENT 0\nCHARS 3\n" ++
      "DWIDTH x\nSTARTCHAR 00e9\nDWIDTH 4 0\nBBX 5 1 0 0\nSIZE 8\nBITMAP\n F8 \nENDCHAR"
    let b : Bdf := { header := { size := 8, characters := 3, box := ⟨1, 2, 0, -1⟩, ascent := 1 }
                     copyright := ""
                     glyphs := [⟨⟨0xe9⟩, ⟨4, 0⟩, ⟨5, 1, 0, 0⟩, [[true, true, true, true, true]]⟩] }
    parse text = .ok b ∧
      (∃ ps : Parts, Text.lines text.toList = ps.lines ∧ ps.WellFormed) ∧
      ∀ ps : Parts, Text.lines text.toList = ps.lines → ps.WellFormed → ps.Says b := by
  intro text b
  have h : parse text = .ok b := by decide +kernel
  clear_value text b
  exact ⟨h, (parse_ok_iff_parts text).1.mp ⟨b, h⟩, (parse_ok_iff_parts text).2 b h⟩

end PixelFont.Bdf
