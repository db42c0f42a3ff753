import PixelFont.Proofs.SharedTable

/-!
Fonts compiled one after another, with an offset table that may hold anything at first. Main
statement: `compile_interchange`. Each font that fits records the same notes up to its header or up
to its glyphs, so of two fonts one records no more than the other, whichever comes first.
-/

set_option autoImplicit false

namespace PixelFont

namespace OffsetTable

variable {layout : OffsetTable} {ms ns : List Note}

theorem recordAll_of_isPrefix (h : ∀ n ∈ ns, layout.Has n) (t : OffsetTable) (hm : ms <+: ns) :
    (t.recordAll ms).recordAll ns = t.recordAll ns := by
  obtain ⟨rest, rfl⟩ := hm
  have hms : ∀ n ∈ ms, layout.Has n := fun n hn => h n (List.mem_append_left _ hn)
  rw [recordAll_append, recordAll_append, recordAll_recordAll hms t (List.Subset.refl ms)]

theorem recordAll_comm (h : ∀ n ∈ ns, layout.Has n) (t : OffsetTable) (hm : ms <+: ns) :
    (t.recordAll ms).recordAll ns = (t.recordAll ns).recordAll ms := by
  rw [recordAll_of_isPrefix h t hm, recordAll_recordAll h t hm.subset]

end OffsetTable

namespace Font

theorem has_of_isPrefix {ns : List Note} (h : ns <+: FontHeader.notes ++ Glyph.notes) :
    ∀ n ∈ ns, OffsetTable.standard.Has n := fun _ hn => standard_has (h.subset hn)

/-- A compilation records a beginning of the standard layout: nothing, the header, or all. -/
theorem exists_table_compile (f : Font) :
    ∃ ns, ns <+: FontHeader.notes ++ Glyph.notes ∧ ∀ t, (f.compile t).table = t.recordAll ns := by
  by_cases hf : f.Fits
  · by_cases hg : f.glyphs = []
    · refine ⟨FontHeader.notes, List.prefix_append _ _, fun t => ?_⟩
      simp [compile_of_fits hf, notes, hg, recordNotes]
    · refine ⟨FontHeader.notes ++ Glyph.notes, List.prefix_rfl, fun t => ?_⟩
      rw [compile_of_fits hf]
      exact recordAll_notes hg t
  · exact ⟨[], List.nil_prefix, fun t => by rw [(compile_of_not_fits hf t).2]; rfl⟩

theorem table_compile_comm (a b : Font) (t : OffsetTable) :
    (b.compile (a.compile t).table).table = (a.compile (b.compile t).table).table := by
  obtain ⟨ms, hms, ha⟩ := a.exists_table_compile
  obtain ⟨ns, hns, hb⟩ := b.exists_table_compile
  simp only [ha, hb]
  rcases List.prefix_or_prefix_of_prefix hms hns with h | h
  · exact OffsetTable.recordAll_comm (has_of_isPrefix hns) t h
  · exact (OffsetTable.recordAll_comm (has_of_isPrefix hms) t h).symm

theorem table_compile_again (f : Font) (t : OffsetTable) :
    (f.compile (f.compile t).table).table = (f.compile t).table := by
  obtain ⟨ns, hns, hf⟩ := f.exists_table_compile
  simp only [hf]
  exact OffsetTable.recordAll_recordAll (has_of_isPrefix hns) t (List.Subset.refl ns)

theorem get?_table_compile (f : Font) (t : OffsetTable) {name : String}
    (h : OffsetTable.standard.get? name = none) : (f.compile t).table.get? name = t.get? name := by
  obtain ⟨ns, hns, hf⟩ := f.exists_table_compile
  have hname : name ∉ ns.map Note.name := by
    intro hmem
    obtain ⟨n, hn, rfl⟩ := List.mem_map.mp hmem
    have hs : OffsetTable.standard.get? n.name = some n.slot := has_of_isPrefix hns n hn
    rw [h] at hs
    cases hs
  rw [hf, OffsetTable.get?_recordAll (has_of_isPrefix hns), if_neg hname]

theorem names_table_compile (f : Font) (t : OffsetTable) :
    t.names <+: (f.compile t).table.names := by
  obtain ⟨ns, -, hf⟩ := f.exists_table_compile
  rw [hf]
  exact t.names_recordAll ns

/-- In either order each of two fonts has its own result, whether it fits or not, and the tables
left are the same, in the same order; a font compiled twice leaves what it leaves once. The names
that were in the table before keep their order, and those that no font has keep their slots. -/
theorem compile_interchange (a b : Font) (t : OffsetTable) :
    let ab := b.compile (a.compile t).table
    let ba := a.compile (b.compile t).table
    (ba.result = (a.compile t).result ∧ ab.result = (b.compile t).result) ∧
      ab.table = ba.table ∧
      (a.compile (a.compile t).table).table = (a.compile t).table ∧
      (∀ name, OffsetTable.standard.get? name = none →
        (a.compile t).table.get? name = t.get? name ∧ ab.table.get? name = t.get? name) ∧
      t.names <+: (a.compile t).table.names ∧ t.names <+: ab.table.names := by
  intro ab ba
  refine ⟨⟨result_compile a _ _, result_compile b _ _⟩, table_compile_comm a b t,
    table_compile_again a t, fun name h => ?_, names_table_compile a t, ?_⟩
  · have ha := get?_table_compile a t h
    exact ⟨ha, (get?_table_compile b _ h).trans ha⟩
  · exact (names_table_compile a t).trans (names_table_compile b _)

end Font
end PixelFont
