import PixelFont.Font
import PixelFont.Proofs.Glyph

/-!
Which fonts can be compiled, and into what. A font that fits gives its header's fields and then the
records of its glyphs, and no step of writing it can fail; any other font is refused before anything
is written.
-/

set_option autoImplicit false

namespace PixelFont

open FieldValue

structure FontHeader.Fits (h : FontHeader) : Prop where
  size : h.size.toNat ≤ 255
  characters : h.characters.toNat ≤ 65535
  box : h.box.Fits
  ascent : h.ascent.toNat ≤ 255
  descent : h.descent.toNat ≤ 255

structure Font.Fits (f : Font) : Prop where
  header : f.header.Fits
  glyphs : ∀ g ∈ f.glyphs, g.Fits

namespace FontHeader

theorem fits_iff (h : FontHeader) :
    h.Fits ↔ IntFormat.u8.Holds h.size.toNat ∧ IntFormat.u16.Holds h.characters.toNat ∧
      h.box.Fits ∧ IntFormat.u8.Holds h.ascent.toNat ∧ IntFormat.u8.Holds h.descent.toNat := by
  rw [IntFormat.holds_natCast .u16 rfl rfl]
  simp only [IntFormat.holds_natCast .u8 rfl rfl]
  constructor
  · rintro ⟨hs, hc, hb, ha, hd⟩
    exact ⟨hs, hc, hb, ha, hd⟩
  · rintro ⟨hs, hc, hb, ha, hd⟩
    exact ⟨hs, hc, hb, ha, hd⟩

theorem passes_check (h : FontHeader) : h.check.Passes ↔ h.Fits := by
  rw [check, Check.passes_table, fits_iff]
  simp only [List.forall_mem_cons, Check.passes_field, Check.passes_range .u8 rfl,
    Check.passes_range .u16 rfl, Box.passes_check, List.not_mem_nil, false_imp_iff, implies_true,
    and_true]

def fields (h : FontHeader) : List FieldValue :=
  [⟨FontField.size, .u8, h.size.toNat⟩, ⟨FontField.characters, .u16, h.characters.toNat⟩,
   ⟨FontField.boxWidth, .u8, h.box.width.toNat⟩, ⟨FontField.boxHeight, .u8, h.box.height.toNat⟩,
   ⟨FontField.boxXOffset, .i8, h.box.xOffset.toInt⟩,
   ⟨FontField.boxYOffset, .i8, h.box.yOffset.toInt⟩,
   ⟨FontField.ascent, .u8, h.ascent.toNat⟩, ⟨FontField.descent, .u8, h.descent.toNat⟩]

def length : Nat := 9

def notes : List Note := noted 0 (fields {}) ++ [⟨FontField.firstGlyph, length, none⟩]

theorem width_fields (h : FontHeader) : width h.fields = length := rfl

theorem length_spelled (h : FontHeader) : (spell h.fields).length = length := by
  rw [length_spell, width_fields]

theorem noted_fields (h : FontHeader) : noted 0 h.fields = noted 0 (fields {}) := rfl

theorem mark_fields (h : FontHeader) :
    (({} : Buffer).fields h.fields).mark FontField.firstGlyph =
      ⟨(spell h.fields).toArray, 0, notes.toArray⟩ := by
  have hl : (spell h.fields).toArray.size - 0 = length := by
    rw [List.size_toArray, length_spelled, Nat.sub_zero]
  rw [Buffer.fields_empty, Buffer.mark, Buffer.note, Buffer.position, hl, noted_fields]
  rfl

theorem fit_fields (h : FontHeader) : Fit h.fields ↔ h.Fits := by
  simp only [Fit, fields, List.forall_mem_cons, fits_iff, Box.fits_iff]
  constructor
  · rintro ⟨hs, hc, hw, hh, hx, hy, ha, hd, -⟩
    exact ⟨hs, hc, ⟨hw, hh, hx, hy⟩, ha, hd⟩
  · rintro ⟨hs, hc, ⟨hw, hh, hx, hy⟩, ha, hd⟩
    exact ⟨hs, hc, hw, hh, hx, hy, ha, hd, List.forall_mem_nil _⟩

end FontHeader

theorem standard_eq :
    OffsetTable.standard = OffsetTable.empty.recordAll (FontHeader.notes ++ Glyph.notes) := rfl

theorem standard_size : OffsetTable.standard.size = 18 := rfl

theorem standard_has {n : Note} (h : n ∈ FontHeader.notes ++ Glyph.notes) :
    OffsetTable.standard.Has n := by
  revert n
  unfold OffsetTable.Has
  decide

namespace Font

theorem passes_check (f : Font) : f.check.Passes ↔ f.Fits := by
  rw [check, Check.passes_table]
  simp only [List.forall_mem_cons, Check.passes_field, FontHeader.passes_check,
    Check.passes_items, List.forall_mem_map, Glyph.passes_check]
  constructor
  · rintro ⟨hh, hg, -⟩
    exact ⟨hh, hg⟩
  · rintro ⟨hh, hg⟩
    exact ⟨hh, hg, List.forall_mem_nil _⟩

theorem make_eq_ok_iff {name copyright : String} {h : FontHeader} {gs : List Glyph} {f : Font} :
    make name h copyright gs = .ok f ↔
      h.Fits ∧ f = ⟨name, h, copyright, .placeholder h.size :: gs⟩ := by
  rw [← FontHeader.passes_check, ← Check.findings_eq_nil_iff, make]
  split
  · next hc => simp [hc, eq_comm]
  · next hc => simpa using fun he => absurd he hc

def records (gs : List Glyph) : List UInt8 := gs.flatMap Glyph.record

/-- The data that the font is compiled into. -/
def payload (f : Font) : List UInt8 := spell f.header.fields ++ records f.glyphs

theorem length_payload (f : Font) :
    f.payload.length = FontHeader.length + (records f.glyphs).length := by
  rw [payload, List.length_append, FontHeader.length_spelled]

def recordNotes (gs : List Glyph) : List Note := gs.flatMap fun _ => Glyph.notes

def notes (f : Font) : List Note := FontHeader.notes ++ recordNotes f.glyphs

def afterRecords (b : Buffer) (gs : List Glyph) : Buffer :=
  { b with bytes := b.bytes ++ records gs, notes := b.notes ++ recordNotes gs }

theorem afterRecords_cons (b : Buffer) (g : Glyph) (gs : List Glyph) :
    afterRecords ((b.onto ⟨g.record.toArray, 0, Glyph.notes.toArray⟩).leave b) gs =
      afterRecords b (g :: gs) := by
  simp only [afterRecords, Buffer.onto, Buffer.leave, records, recordNotes, List.flatMap_cons,
    Buffer.mk.injEq, true_and]
  constructor <;> (apply Array.ext'; simp)

theorem run_records {gs : List Glyph} (h : ∀ g ∈ gs, g.Fits) (b : Buffer) :
    (Plan.records (gs.map Glyph.plan)).run #v[] b = (.ok (), afterRecords b gs) := by
  induction gs generalizing b with
  | nil => simp [Plan.records, Plan.run, afterRecords, records, recordNotes]
  | cons g gs ih =>
    have hw : b.record (g.plan.run #v[]) =
        (.ok g.writtenLength, (b.onto ⟨g.record.toArray, 0, Glyph.notes.toArray⟩).leave b) := by
      have he := Plan.write_eq g.plan b
      rwa [Glyph.write_plan (h g (by simp)).fit_fields] at he
    show (Plan.thenRecord g.plan (Plan.records (gs.map Glyph.plan))).run #v[] b = _
    rw [Plan.thenRecord, Plan.run, hw]
    show (Plan.records (gs.map Glyph.plan)).run #v[] _ = _
    rw [ih fun g hg => h g (List.mem_cons_of_mem _ hg), afterRecords_cons]

theorem write_plan {f : Font} (h : f.Fits) :
    ∃ n, f.plan.write {} = (.ok n, ⟨f.payload.toArray, 0, f.notes.toArray⟩) := by
  have hr : f.plan.run #v[] {} = (.ok (), ⟨f.payload.toArray, 0, f.notes.toArray⟩) := by
    show (Plan.fields f.header.fields (.mark FontField.firstGlyph
      (.records (f.glyphs.map Glyph.plan)))).run #v[] {} = _
    rw [Plan.run_fields ((FontHeader.fit_fields _).mpr h.header) _ _ (Nat.zero_le _), Plan.run,
      FontHeader.mark_fields, run_records h.glyphs]
    simp [afterRecords, payload, notes]
  refine ⟨f.payload.length, ?_⟩
  show ((f.plan.run #v[] {}).1.map fun _ => (f.plan.run #v[] {}).2.position,
    (f.plan.run #v[] {}).2.leave {}) = _
  rw [hr]
  simp [Except.map, Buffer.position, Buffer.leave]

theorem compile_of_fits {f : Font} (h : f.Fits) (t : OffsetTable) :
    f.compile t = ⟨.ok f.payload, t.recordAll f.notes, t.changes f.notes⟩ := by
  obtain ⟨n, hw⟩ := write_plan h
  have hc : f.check.findings = [] := (Check.findings_eq_nil_iff _).mpr ((passes_check f).mpr h)
  rw [compile, Plan.compileChecked, hc]
  simp only [Plan.compile, hw]

theorem compile_of_not_fits {f : Font} (h : ¬ f.Fits) (t : OffsetTable) :
    f.check.findings ≠ [] ∧ f.compile t = ⟨.error (.invalid f.check.findings), t, []⟩ := by
  have hc : f.check.findings ≠ [] := fun he =>
    h ((passes_check f).mp ((Check.findings_eq_nil_iff _).mp he))
  refine ⟨hc, ?_⟩
  unfold compile Plan.compileChecked
  split
  · next he => exact absurd he hc
  · rfl

theorem standard_of_mem_notes {f : Font} {n : Note} (h : n ∈ f.notes) :
    n ∈ FontHeader.notes ++ Glyph.notes := by
  rcases List.mem_append.mp h with hn | hn
  · exact List.mem_append_left _ hn
  · obtain ⟨g, -, hg⟩ := List.mem_flatMap.mp hn
    exact List.mem_append_right _ hg

theorem notes_has {f : Font} : ∀ n ∈ f.notes, OffsetTable.standard.Has n :=
  fun _ hn => standard_has (standard_of_mem_notes hn)

theorem mem_notes_of_header {f : Font} {n : Note} (h : n ∈ FontHeader.notes) : n ∈ f.notes :=
  List.mem_append_left _ h

theorem mem_notes_of_glyph {f : Font} (hf : f.glyphs ≠ []) {n : Note} (h : n ∈ Glyph.notes) :
    n ∈ f.notes := by
  obtain ⟨g, hg⟩ := List.exists_mem_of_ne_nil _ hf
  exact List.mem_append_right _ (List.mem_flatMap.mpr ⟨g, hg, h⟩)

theorem recordAll_notes {f : Font} (hf : f.glyphs ≠ []) (t : OffsetTable) :
    t.recordAll f.notes = t.recordAll (FontHeader.notes ++ Glyph.notes) := by
  obtain ⟨g, gs, hg⟩ := List.exists_cons_of_ne_nil hf
  have hn : f.notes = (FontHeader.notes ++ Glyph.notes) ++ recordNotes gs := by
    rw [notes, hg, List.append_assoc]
    rfl
  have hsub : recordNotes gs ⊆ FontHeader.notes ++ Glyph.notes := fun n h =>
    standard_of_mem_notes (f := f) (by rw [hn]; exact List.mem_append_right _ h)
  rw [hn, OffsetTable.recordAll_append,
    OffsetTable.recordAll_recordAll (fun _ h => standard_has h) t hsub]

/-- The first font with glyphs leaves the standard layout, and all others leave it as it is. -/
theorem recordAll_empty_notes {f : Font} (hf : f.glyphs ≠ []) :
    OffsetTable.empty.recordAll f.notes = OffsetTable.standard := by
  rw [recordAll_notes hf, standard_eq]

theorem fits_of_compile {f : Font} {t : OffsetTable} {bytes : List UInt8}
    (h : (f.compile t).result = .ok bytes) : f.Fits ∧ bytes = f.payload := by
  by_cases hf : f.Fits
  · rw [compile_of_fits hf] at h
    exact ⟨hf, (Except.ok.inj h).symm⟩
  · rw [(compile_of_not_fits hf t).2] at h
    cases h

theorem table_compile_has {f : Font} (hf : f.Fits) (t : OffsetTable) :
    ∀ n ∈ f.notes, (f.compile t).table.Has n := by
  rw [compile_of_fits hf]
  exact fun n hn => OffsetTable.recordAll_has notes_has t hn

theorem table_compile_empty {f : Font} (hf : f.Fits) (hg : f.glyphs ≠ []) :
    (f.compile .empty).table = OffsetTable.standard := by
  rw [compile_of_fits hf]
  exact recordAll_empty_notes hg

/-- A font compiles if and only if it fits. One that does not is refused with what its check finds,
and the offset table stays as it was. -/
theorem compile_ok_or_untouched (f : Font) (t : OffsetTable) :
    ((∃ bytes, (f.compile t).result = .ok bytes) ↔ f.Fits) ∧
      (f.Fits ∨ ∃ fs, fs ≠ [] ∧ f.compile t = ⟨.error (.invalid fs), t, []⟩) := by
  by_cases hf : f.Fits
  · have hc : (f.compile t).result = .ok f.payload := by rw [compile_of_fits hf]
    exact ⟨⟨fun _ => hf, fun _ => ⟨f.payload, hc⟩⟩, .inl hf⟩
  · obtain ⟨hne, hc⟩ := compile_of_not_fits hf t
    refine ⟨⟨?_, fun h => absurd h hf⟩, .inr ⟨f.check.findings, hne, hc⟩⟩
    rintro ⟨bytes, h⟩
    exact (fits_of_compile h).1

end Font
end PixelFont
