import PixelFont.Proofs.RoundTrip

/-!
One offset table for many fonts. Main statement: `compile_shared`. Compilations that share a table
leave it empty up to the first font that fits, and with the standard layout from this one on.
-/

set_option autoImplicit false

namespace PixelFont

/-- What a table holds in which only fonts with glyphs have been recorded. -/
def OffsetTable.Shared (t : OffsetTable) : Prop := t = .empty ∨ t = .standard

theorem OffsetTable.Shared.within {t : OffsetTable} (h : t.Shared) : t.Within .standard := by
  cases h with
  | inl he =>
    rw [he]
    exact empty_within _
  | inr hs =>
    rw [hs]
    exact fun _ _ hg => hg

namespace Font

def tableAfter (t : OffsetTable) (fs : List Font) : OffsetTable :=
  fs.foldl (fun t f => (f.compile t).table) t

theorem tableAfter_append (t : OffsetTable) (before after : List Font) :
    tableAfter t (before ++ after) = tableAfter (tableAfter t before) after :=
  List.foldl_append

theorem result_compile (f : Font) (t u : OffsetTable) :
    (f.compile t).result = (f.compile u).result := by
  by_cases hf : f.Fits
  · rw [compile_of_fits hf, compile_of_fits hf]
  · rw [(compile_of_not_fits hf t).2, (compile_of_not_fits hf u).2]

theorem table_compile_of_fits {f : Font} (hf : f.Fits) (hg : f.glyphs ≠ []) {t : OffsetTable}
    (ht : t.Shared) : (f.compile t).table = .standard := by
  cases ht with
  | inl he =>
    rw [he]
    exact table_compile_empty hf hg
  | inr hs =>
    rw [hs, compile_of_fits hf]
    exact OffsetTable.recordAll_of_has notes_has

theorem shared_compile {f : Font} (hg : f.glyphs ≠ []) {t : OffsetTable} (ht : t.Shared) :
    (f.compile t).table.Shared := by
  by_cases hf : f.Fits
  · exact .inr (table_compile_of_fits hf hg ht)
  · rw [(compile_of_not_fits hf t).2]
    exact ht

theorem standard_compile (f : Font) : (f.compile .standard).table = .standard := by
  by_cases hf : f.Fits
  · rw [compile_of_fits hf]
    exact OffsetTable.recordAll_of_has notes_has
  · rw [(compile_of_not_fits hf .standard).2]

theorem changes_compile (f : Font) {t : OffsetTable} (ht : t.Shared) :
    (f.compile t).changes = [] := by
  by_cases hf : f.Fits
  · rw [compile_of_fits hf]
    exact OffsetTable.changes_of_within ht.within notes_has
  · rw [(compile_of_not_fits hf t).2]

theorem compileLog_no_warning (f : Font) {c : Compilation} (h : c.changes = []) :
    ∀ line ∈ f.compileLog c, line.level ≠ .warning := by
  intro line hl
  rw [compileLog, Compilation.log, h, List.map_nil, List.nil_append] at hl
  cases hr : c.result with
  | error e => simp [hr] at hl
  | ok bytes =>
    simp [hr] at hl
    simp [hl]

theorem shared_tableAfter {fs : List Font} (hg : ∀ f ∈ fs, f.glyphs ≠ []) {t : OffsetTable}
    (ht : t.Shared) : (tableAfter t fs).Shared := by
  induction fs generalizing t with
  | nil => exact ht
  | cons f fs ih =>
    have hs := shared_compile (hg f List.mem_cons_self) ht
    exact ih (fun f hf => hg f (List.mem_cons_of_mem _ hf)) hs

theorem standard_tableAfter (fs : List Font) : tableAfter .standard fs = .standard := by
  induction fs with
  | nil => rfl
  | cons f fs ih =>
    show tableAfter (f.compile .standard).table fs = .standard
    rw [standard_compile]
    exact ih

/-- Wherever in the order a font with glyphs is compiled, among others with glyphs that may fail, it
is compiled as if alone, and what it is compiled into can be read by the table that is left last. -/
theorem compile_shared {before after : List Font} {f : Font}
    (hg : ∀ g ∈ before ++ f :: after, g.glyphs ≠ []) :
    let c := f.compile (tableAfter .empty before)
    c.result = (f.compile .empty).result ∧
      (∀ line ∈ f.compileLog c, line.level ≠ .warning) ∧
      ∀ bytes, c.result = .ok bytes →
        c.table = .standard ∧ c.table.size = 18 ∧
        (∀ next rest, after = next ++ rest →
          tableAfter .empty (before ++ f :: next) = .standard) ∧
        ∃ v, FontView.ofBytes bytes (tableAfter .empty (before ++ f :: after)) = .ok v ∧
          v.decode f.name f.copyright = .ok f := by
  intro c
  have hb : (tableAfter .empty before).Shared :=
    shared_tableAfter (fun g h => hg g (List.mem_append_left _ h)) (.inl rfl)
  refine ⟨result_compile f _ _, compileLog_no_warning f (changes_compile f hb), fun bytes h => ?_⟩
  obtain ⟨hf, rfl⟩ := fits_of_compile h
  have hc : c.table = .standard := table_compile_of_fits hf (hg f (by simp)) hb
  have hnext : ∀ next, tableAfter .empty (before ++ f :: next) = .standard := by
    intro next
    rw [tableAfter_append]
    show tableAfter c.table next = .standard
    rw [hc]
    exact standard_tableAfter next
  refine ⟨hc, ?_, fun next _ _ => hnext next, ?_⟩
  · rw [hc]
    exact standard_size
  · rw [hnext after]
    exact decode_payload hf notes_has

theorem compile_shared_between :
    let f : Font := { name := "a", header := { size := 3 }, copyright := "b", glyphs := [{}] }
    let tooLarge : Font := { f with header := { size := 256 } }
    let other : Font := { f with header := { ascent := 5 }, glyphs := [{}, {}] }
    let c := f.compile (tableAfter .empty [tooLarge])
    let bytes : List UInt8 := [3, 0, 0, 0, 0, 0, 0, 0, 0, 0, 0, 0, 10, 0, 0, 0, 0, 0, 0]
    (∀ g ∈ [tooLarge] ++ f :: [other], g.glyphs ≠ []) ∧ c.result = .ok bytes ∧
      (f.compile .empty).result = .ok bytes ∧ (∀ line ∈ f.compileLog c, line.level ≠ .warning) ∧
      tableAfter .empty ([tooLarge] ++ f :: [other]) = .standard ∧
      ∃ v, FontView.ofBytes bytes (tableAfter .empty ([tooLarge] ++ f :: [other])) = .ok v ∧
        v.decode "a" "b" = .ok f := by
  intro f tooLarge other c bytes
  have hg : ∀ g ∈ [tooLarge] ++ f :: [other], g.glyphs ≠ [] := by decide
  have hc : c.result = .ok bytes := by decide +kernel
  obtain ⟨hr, hlog, hok⟩ := compile_shared hg
  obtain ⟨-, -, hnext, hread⟩ := hok bytes hc
  exact ⟨hg, hc, hr.symm.trans hc, hlog, hnext [other] [] rfl, hread⟩

end Font
end PixelFont
