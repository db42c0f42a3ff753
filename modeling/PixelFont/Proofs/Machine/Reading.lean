import PixelFont.Proofs.FontView
import PixelFont.Proofs.Machine.Glyph

set_option autoImplicit false

namespace PixelFont

/-- Where the walk stands still, the record has no bytes and so no code either. -/
theorem View.read_ne_ok_of_empty {v : View} (h : v.bytes = []) (offset : Nat) (f : IntFormat)
    (n : Int) : v.read offset f ≠ .ok n := by
  rw [ne_eq, read_eq_ok_iff, h, List.drop_nil, List.take_nil]
  rintro ⟨hf, hspell⟩
  have hlength := congrArg List.length hspell
  have hwidth := (IntFormat.supported_iff.mp hf.1).1
  rw [IntFormat.length_spell, List.length_nil] at hlength
  omega

theorem GlyphView.code_ne_ok_of_empty {g : GlyphView} (h : g.view.bytes = []) (c : CharCode) :
    g.code ≠ .ok c := by
  rw [ne_eq, code_eq_ok_iff, View.field]
  split
  · simp
  · simp
  · exact View.read_ne_ok_of_empty h _ _ _

namespace Machine

namespace GlyphWalk

def next? (w : GlyphWalk) : Checked (Option (Except ReadFault GlyphView × GlyphWalk)) :=
  if w.failed || w.rest.bytes.isEmpty then .ok none
  else do
    match ← (GlyphView.ofHead w.rest w.table).run with
    | .ok g => return some (.ok g, { w with rest := (after? w.rest g.length).getD {} })
    | .error e => return some (.error e, { w with failed := true })

def take : Nat → GlyphWalk → Checked (List (Except ReadFault GlyphView) × GlyphWalk)
  | 0, w => .ok ([], w)
  | n + 1, w => do
    match ← next? w with
    | none => return ([], w)
    | some (item, w) =>
      let (items, w) ← take n w
      return (item :: items, w)

def find (code : CharCode) :
    Nat → GlyphWalk → Checked (Option (Except ReadFault (Option GlyphView)))
  | 0, _ => .ok none
  | n + 1, w => do
    match ← next? w with
    | none => return some (.ok none)
    | some (.error e, _) => return some (.error e)
    | some (.ok g, after) =>
      match ← (GlyphView.code g).run with
      | .error e => return some (.error e)
      | .ok c => if c = code then return some (.ok (some g)) else find code n after

end GlyphWalk

namespace FontView

def ofBytes (bytes : List UInt8) (t : OffsetTable) : Run ReadFault FontView := do
  let firstGlyph ← Run.of (t.markAt FontField.firstGlyph)
  if bytes.length < firstGlyph then throw .outOfBounds
  else return ⟨{ bytes }, t, firstGlyph⟩

def size (f : FontView) : Run ReadFault UInt32 := unsigned f.view f.table FontField.size

def characters (f : FontView) : Run ReadFault UInt32 :=
  unsigned f.view f.table FontField.characters

def box (f : FontView) : Run ReadFault Box :=
  Machine.box f.view f.table FontField.boxWidth FontField.boxHeight
    FontField.boxXOffset FontField.boxYOffset

def ascent (f : FontView) : Run ReadFault UInt32 := unsigned f.view f.table FontField.ascent

def descent (f : FontView) : Run ReadFault UInt32 := unsigned f.view f.table FontField.descent

def walk (f : FontView) : GlyphWalk :=
  { rest := (after? f.view f.firstGlyph).getD {}, table := f.table }

def glyph? (rounds : Nat) (f : FontView) (code : CharCode) :
    Checked (Option (Except ReadFault (Option GlyphView))) :=
  GlyphWalk.find code rounds (walk f)

def glyphOrFirst (rounds : Nat) (f : FontView) (code : CharCode) :
    Checked (Option (Except ReadFault GlyphView)) := do
  match ← glyph? rounds f code with
  | none => return none
  | some (.error e) => return some (.error e)
  | some (.ok (some g)) => return some (.ok g)
  | some (.ok none) =>
    match ← GlyphWalk.next? (walk f) with
    | some (item, _) => return some item
    | none => return some (.error .noGlyphs)

end FontView

namespace GlyphWalk

section Step

variable {w after : GlyphWalk} {item : Except ReadFault GlyphView} {g : GlyphView}

theorem items_cons (hn : w.next? = some (.ok g, after)) :
    w.items = .ok g :: if after.rest.length < w.rest.length then after.items else [] := by
  rw [PixelFont.GlyphWalk.items]
  simp only [hn]
  split <;> rfl

theorem bytes_eq_nil_of_next? (hn : w.next? = some (.ok g, after))
    (hle : ¬ after.rest.length < w.rest.length) : g.view.bytes = [] := by
  rw [PixelFont.GlyphWalk.next?] at hn
  split at hn
  · cases hn
  split at hn
  · next g hg =>
    cases hn
    obtain ⟨n, hn, hview⟩ := GlyphView.exists_take_of_ofHead hg
    have hlength : g.length = n := by
      rw [PixelFont.GlyphView.length, View.length, hview]
      exact List.length_take_of_le hn
    rw [hlength, View.after?_eq, if_pos hn, Option.getD_some] at hle
    simp only [View.length, List.length_drop] at hle hn
    rw [hview, List.take_eq_nil_iff, ← List.length_eq_zero_iff]
    omega
  · cases hn

theorem head?_items (w : GlyphWalk) : w.items.head? = w.next?.map Prod.fst := by
  cases hn : w.next? with
  | none => rw [PixelFont.GlyphWalk.items_of_none hn]; rfl
  | some step =>
    obtain ⟨item, after⟩ := step
    cases item with
    | error e => rw [PixelFont.GlyphWalk.items_of_fault hn]; rfl
    | ok g => rw [items_cons hn]; rfl

variable (h : Small w.rest)
include h

theorem next?_eq : next? w = .ok w.next? := by
  rw [next?, PixelFont.GlyphWalk.next?]
  split
  · rfl
  · rw [GlyphView.ofHead_eq h]
    cases PixelFont.GlyphView.ofHead w.rest w.table with
    | error e => rfl
    | ok g =>
      simp only [after?_eq h]
      rfl

theorem small_of_next? (hn : w.next? = some (item, after)) :
    Small after.rest ∧ ∀ g, item = .ok g → Small g.view := by
  rw [PixelFont.GlyphWalk.next?] at hn
  split at hn
  · cases hn
  split at hn
  · next g hg =>
    cases hn
    refine ⟨?_, ?_⟩
    · cases hafter : w.rest.after? g.length with
      | none => exact small_empty
      | some v => exact h.part? hafter
    · rintro _ ⟨⟩
      exact GlyphView.small_of_ofHead h hg
  · cases hn
    exact ⟨h, by simp⟩

end Step

theorem take_eq (n : Nat) {w : GlyphWalk} (h : Small w.rest) : take n w = .ok (w.take n) := by
  induction n generalizing w with
  | zero => rfl
  | succ n ih =>
    rw [take, next?_eq h, PixelFont.GlyphWalk.take]
    cases hn : w.next? with
    | none => rfl
    | some step =>
      obtain ⟨item, after⟩ := step
      simp only [ok_bind, ih (small_of_next? h hn).1]
      rfl

theorem small_of_mem_take {n : Nat} {w : GlyphWalk} (h : Small w.rest) {g : GlyphView}
    (hg : .ok g ∈ (w.take n).1) : Small g.view := by
  induction n generalizing w with
  | zero => cases hg
  | succ n ih =>
    rw [PixelFont.GlyphWalk.take] at hg
    cases hn : w.next? with
    | none =>
      rw [hn] at hg
      cases hg
    | some step =>
      obtain ⟨item, after⟩ := step
      obtain ⟨hafter, hitem⟩ := small_of_next? h hn
      simp only [hn] at hg
      rcases List.mem_cons.mp hg with hg | hg
      · exact hitem g hg.symm
      · exact ih hafter hg

theorem find_eq (code : CharCode) {n : Nat} {w : GlyphWalk} (h : Small w.rest)
    (hn : w.rest.length < n) :
    find code n w = .ok (some (PixelFont.FontView.find code w.items)) := by
  induction n generalizing w with
  | zero => omega
  | succ n ih =>
    rw [find, next?_eq h, ok_bind]
    cases hnext : w.next? with
    | none =>
      rw [PixelFont.GlyphWalk.items_of_none hnext]
      rfl
    | some step =>
      obtain ⟨item, after⟩ := step
      obtain ⟨hafter, hitem⟩ := small_of_next? h hnext
      cases item with
      | error e =>
        rw [PixelFont.GlyphWalk.items_of_fault hnext]
        rfl
      | ok g =>
        have hcode := GlyphView.code_eq (hitem g rfl)
        rw [items_cons hnext, PixelFont.FontView.find]
        simp only [hcode]
        cases hc : g.code with
        | error e => rfl
        | ok c =>
          have hlt : after.rest.length < w.rest.length := by
            refine Decidable.byContradiction fun hle => ?_
            exact GlyphView.code_ne_ok_of_empty (bytes_eq_nil_of_next? hnext hle) c hc
          have hih := ih hafter (Nat.lt_of_lt_of_le hlt (Nat.le_of_lt_succ hn))
          show (if c = code then _ else _) = _
          by_cases he : c = code
          · simp only [if_pos he]
            rfl
          · simp only [if_neg he, if_pos hlt, hih]

end GlyphWalk

namespace FontView

/-- Nothing that is asked of the font traps. A look-up ends after one round for each byte at most,
even if the walk over the glyphs stands still. -/
structure Safe (f : FontView) : Prop where
  size : size f = .of f.size
  characters : characters f = .of f.characters
  box : box f = .of f.box
  ascent : ascent f = .of f.ascent
  descent : descent f = .of f.descent
  walk : ∀ n, GlyphWalk.take n (walk f) = .ok (f.walk.take n)
  records : ∀ n g, .ok g ∈ (f.walk.take n).1 → GlyphView.Safe g
  glyph? : ∀ code n, f.view.length < n → glyph? n f code = .ok (some (f.glyph? code))
  glyphOrFirst : ∀ code n, f.view.length < n →
    glyphOrFirst n f code = .ok (some (f.glyphOrFirst code))

theorem ofBytes_eq (bytes : List UInt8) (t : OffsetTable) :
    ofBytes bytes t = .of (PixelFont.FontView.ofBytes bytes t) := by
  rw [ofBytes, PixelFont.FontView.ofBytes]
  refine Run.bind_of fun first _ => ?_
  split <;> rfl

theorem length_walk_le (f : FontView) : f.walk.rest.length ≤ f.view.length := by
  show ((f.view.after? f.firstGlyph).getD {}).length ≤ f.view.length
  rw [View.after?_eq]
  split
  · simp [View.length]
  · exact Nat.zero_le _

section Accessors

variable {f : FontView} (h : Small f.view)
include h

theorem walk_eq : walk f = f.walk := by
  rw [walk, after?_eq h]
  rfl

theorem small_walk : Small f.walk.rest := by
  show Small ((f.view.after? f.firstGlyph).getD {})
  cases hv : f.view.after? f.firstGlyph with
  | none => exact small_empty
  | some v => exact h.part? hv

theorem glyph?_eq (code : CharCode) {n : Nat} (hn : f.view.length < n) :
    glyph? n f code = .ok (some (f.glyph? code)) := by
  rw [glyph?, walk_eq h]
  exact GlyphWalk.find_eq code (small_walk h) (Nat.lt_of_le_of_lt (length_walk_le f) hn)

theorem glyphOrFirst_eq (code : CharCode) {n : Nat} (hn : f.view.length < n) :
    glyphOrFirst n f code = .ok (some (f.glyphOrFirst code)) := by
  rw [glyphOrFirst, glyph?_eq h code hn, PixelFont.FontView.glyphOrFirst, ok_bind,
    PixelFont.FontView.glyphs, GlyphWalk.head?_items]
  cases f.glyph? code with
  | error e => rfl
  | ok found =>
    cases found with
    | some g => rfl
    | none =>
      show (GlyphWalk.next? (walk f) >>= _) = _
      rw [walk_eq h, GlyphWalk.next?_eq (small_walk h)]
      cases f.walk.next? <;> rfl

theorem safe : Safe f where
  size := unsigned_eq h _ _
  characters := unsigned_eq h _ _
  box := box_eq h _ _ _ _ _
  ascent := unsigned_eq h _ _
  descent := unsigned_eq h _ _
  walk n := by rw [walk_eq h, GlyphWalk.take_eq n (small_walk h)]
  records _ _ hg := GlyphView.safe (GlyphWalk.small_of_mem_take (small_walk h) hg)
  glyph? code _ hn := glyph?_eq h code hn
  glyphOrFirst code _ hn := glyphOrFirst_eq h code hn

end Accessors

end FontView

/-- Whatever the data, if it is not too long for any machine, and whatever the offset table, to read
never traps: it comes to the value or the error that it is defined to come to. -/
theorem reading_meets_no_trap (data : List UInt8) (hd : data.length < 2 ^ 61) (t : OffsetTable) :
    FontView.ofBytes data t = .of (PixelFont.FontView.ofBytes data t) ∧
      (∀ f, PixelFont.FontView.ofBytes data t = .ok f → FontView.Safe f) ∧
      ∀ v : View, v.position + v.length ≤ data.length →
        GlyphView.ofHead v t = .of (PixelFont.GlyphView.ofHead v t) ∧
          ∀ g, PixelFont.GlyphView.ofHead v t = .ok g → GlyphView.Safe g := by
  refine ⟨FontView.ofBytes_eq data t, fun f hf => FontView.safe ?_, fun v hv => ?_⟩
  · obtain ⟨first, -, -, rfl⟩ := PixelFont.FontView.ofBytes_eq_ok_iff_mark.mp hf
    show 0 + data.length < 2 ^ 61
    omega
  · have h : Small v := Nat.lt_of_le_of_lt hv hd
    exact ⟨GlyphView.ofHead_eq h t, fun g hg => GlyphView.safe (GlyphView.small_of_ofHead h hg)⟩

theorem reading_meets_no_trap_far :
    let word : Option IntFormat := some ⟨4, true⟩
    let t := OffsetTable.ofEntries [(FontField.size, ⟨2 ^ 64 - 1, some .u8⟩),
      (FontField.characters, ⟨0, some ⟨0, false⟩⟩), (FontField.ascent, ⟨1, word⟩),
      (FontField.descent, ⟨3, none⟩), (FontField.firstGlyph, ⟨0, none⟩),
      (GlyphField.code, ⟨0, some ⟨255, true⟩⟩), (GlyphField.bytes, ⟨0, some .u8⟩),
      (GlyphField.boxWidth, ⟨1, some ⟨4, false⟩⟩), (GlyphField.boxHeight, ⟨1, some ⟨4, false⟩⟩),
      (GlyphField.boxXOffset, ⟨1, word⟩), (GlyphField.boxYOffset, ⟨1, word⟩),
      (GlyphField.bitmap, ⟨1, none⟩)]
    let data : List UInt8 := [5, 255, 255, 255, 255]
    let f : PixelFont.FontView := ⟨⟨0, data⟩, t, 0⟩
    let g : PixelFont.GlyphView := ⟨⟨0, data⟩, t⟩
    FontView.ofBytes data t = pure f ∧ FontView.size f = throw .outOfBounds ∧
      FontView.characters f = throw (.scalar (.unsupportedWidth 0)) ∧
      FontView.ascent f = throw (.badValue FontField.ascent (-1)) ∧
      FontView.descent f = throw (.untypedField FontField.descent) ∧
      GlyphView.ofHead ⟨0, data⟩ t = pure g ∧ GlyphView.code g = throw .outOfBounds ∧
      GlyphView.box g = pure ⟨4294967295, 4294967295, -1, -1⟩ ∧
      GlyphView.rows g = throw .outOfBounds := by
  intro word t data f g
  have hf : PixelFont.FontView.ofBytes data t = .ok f := by decide +kernel
  have hg : PixelFont.GlyphView.ofHead ⟨0, data⟩ t = .ok g := by decide +kernel
  obtain ⟨hopen, hsafe, hhead⟩ := reading_meets_no_trap data (by decide) t
  obtain ⟨hrecord, hglyph⟩ := hhead ⟨0, data⟩ (Nat.le_refl 5)
  have hfont := hsafe f hf
  have hglyph := hglyph g hg
  rw [hopen, hfont.size, hfont.characters, hfont.ascent, hfont.descent, hrecord, hglyph.code,
    hglyph.box, hglyph.rows, hf, hg]
  have hvalues : f.size = .error .outOfBounds ∧
      f.characters = .error (.scalar (.unsupportedWidth 0)) ∧
      f.ascent = .error (.badValue FontField.ascent (-1)) ∧
      f.descent = .error (.untypedField FontField.descent) ∧ g.code = .error .outOfBounds ∧
      g.box = .ok ⟨4294967295, 4294967295, -1, -1⟩ ∧ g.rows = .error .outOfBounds := by
    decide +kernel
  obtain ⟨hsize, hcharacters, hascent, hdescent, hcode, hbox, hrows⟩ := hvalues
  rw [hsize, hcharacters, hascent, hdescent, hcode, hbox, hrows]
  exact ⟨rfl, rfl, rfl, rfl, rfl, rfl, rfl, rfl, rfl⟩

end Machine
end PixelFont
