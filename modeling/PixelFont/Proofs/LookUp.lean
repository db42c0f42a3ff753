import PixelFont.Proofs.RoundTrip

set_option autoImplicit false

namespace PixelFont

theorem GlyphView.code_of_decode {r : GlyphView} {g : Glyph} (h : r.decode = .ok g) :
    r.code = .ok g.code := (decode_eq_ok_iff_parts.mp h).1

namespace FontView

theorem exists_find {records : List GlyphView} {gs : List Glyph}
    (h : List.Forall₂ (fun r g => r.decode = .ok g) records gs) (code : CharCode) :
    ∃ found, find code (records.map .ok) = .ok found ∧
      Option.Rel (fun r g => r.decode = .ok g) found (gs.find? fun g => g.code = code) := by
  induction h with
  | nil => exact ⟨none, rfl, .none⟩
  | @cons r g records gs hr _ ih =>
    have hcode := GlyphView.code_of_decode hr
    by_cases hc : g.code = code
    · exact ⟨some r, by simp [find, hcode, hc], by simpa [hc] using Option.Rel.some hr⟩
    · simpa [find, hcode, hc] using ih

variable {v : FontView} {name copyright : String} {f : Font}

theorem exists_glyphs_of_decode (h : v.decode name copyright = .ok f) :
    ∃ records : List GlyphView, v.glyphs = records.map .ok ∧
      List.Forall₂ (fun r g => r.decode = .ok g) records f.glyphs :=
  GlyphWalk.exists_of_mapM_bind (decode_eq_ok_iff.mp h).2.2

theorem exists_glyph?_of_decode (h : v.decode name copyright = .ok f) (code : CharCode) :
    ∃ found, v.glyph? code = .ok found ∧
      Option.Rel (fun r g => r.decode = .ok g) found (f.glyphs.find? fun g => g.code = code) := by
  obtain ⟨records, hrecords, hdecode⟩ := exists_glyphs_of_decode h
  rw [glyph?, hrecords]
  exact exists_find hdecode code

theorem exists_head_of_decode (h : v.decode name copyright = .ok f) :
    ∃ first : Option GlyphView, v.glyphs.head? = first.map .ok ∧
      Option.Rel (fun r g => r.decode = .ok g) first f.glyphs.head? := by
  obtain ⟨records, hrecords, hdecode⟩ := exists_glyphs_of_decode h
  refine ⟨records.head?, by simp [hrecords], ?_⟩
  generalize f.glyphs = gs at hdecode
  cases hdecode with
  | nil => exact .none
  | cons hr _ => exact .some hr

theorem glyph?_of_find? (h : v.decode name copyright = .ok f) {code : CharCode} {g : Glyph}
    (hg : f.glyphs.find? (fun g => g.code = code) = some g) :
    ∃ r, v.glyph? code = .ok (some r) ∧ r.decode = .ok g := by
  obtain ⟨found, hfound, hrel⟩ := exists_glyph?_of_decode h code
  rw [hg] at hrel
  cases hrel with
  | some hr => exact ⟨_, hfound, hr⟩

theorem glyph?_eq_none_iff (h : v.decode name copyright = .ok f) (code : CharCode) :
    v.glyph? code = .ok none ↔ ∀ g ∈ f.glyphs, g.code ≠ code := by
  have hnone : f.glyphs.find? (fun g => g.code = code) = none ↔ ∀ g ∈ f.glyphs, g.code ≠ code := by
    simp
  obtain ⟨found, hfound, hrel⟩ := exists_glyph?_of_decode h code
  rw [← hnone, hfound]
  generalize f.glyphs.find? (fun g => g.code = code) = g at hrel
  cases hrel <;> simp

theorem glyphOrFirst_of_glyph? {code : CharCode} {r : GlyphView}
    (h : v.glyph? code = .ok (some r)) : v.glyphOrFirst code = .ok r := by
  simp [glyphOrFirst, h, bind, Except.bind]

theorem glyphOrFirst_of_none {code : CharCode} (h : v.glyph? code = .ok none) :
    v.glyphOrFirst code = v.glyphs.head?.getD (.error .noGlyphs) := by
  simp [glyphOrFirst, h, bind, Except.bind]

end FontView

namespace Font

/-- In compiled data the first glyph with a code is found, or else the first of all is taken. As the
placeholder is put first, it is what is found by its own code, even if the source uses it too. -/
theorem glyph?_compile {f : Font} (hg : f.glyphs ≠ []) {t : OffsetTable} {bytes : List UInt8}
    (h : (f.compile t).result = .ok bytes) :
    ∃ v, FontView.ofBytes bytes (f.compile t).table = .ok v ∧
      (∀ code, (v.glyph? code = .ok none ↔ ∀ g ∈ f.glyphs, g.code ≠ code) ∧
        (∀ g, f.glyphs.find? (fun g => g.code = code) = some g →
          ∃ r, v.glyph? code = .ok (some r) ∧ r.decode = .ok g ∧ v.glyphOrFirst code = .ok r) ∧
        ((∀ g ∈ f.glyphs, g.code ≠ code) →
          ∃ r, v.glyphOrFirst code = .ok r ∧ r.decode = .ok (f.glyphs.head hg))) ∧
      ∀ name header copyright glyphs, make name header copyright glyphs = .ok f →
        ∃ r, v.glyph? .missing = .ok (some r) ∧ r.decode = .ok (.placeholder header.size) ∧
          v.glyphOrFirst .missing = .ok r := by
  obtain ⟨hf, rfl⟩ := fits_of_compile h
  obtain ⟨v, hv, hd⟩ := decode_payload hf (table_compile_has hf t)
  have hfound : ∀ {code : CharCode} {g : Glyph},
      f.glyphs.find? (fun g => g.code = code) = some g →
        ∃ r, v.glyph? code = .ok (some r) ∧ r.decode = .ok g ∧ v.glyphOrFirst code = .ok r := by
    intro code g hfind
    obtain ⟨r, hr, hdecode⟩ := FontView.glyph?_of_find? hd hfind
    exact ⟨r, hr, hdecode, FontView.glyphOrFirst_of_glyph? hr⟩
  refine ⟨v, hv, fun code => ⟨FontView.glyph?_eq_none_iff hd code, fun g => hfound, ?_⟩, ?_⟩
  · intro hnone
    have hglyph := (FontView.glyph?_eq_none_iff hd code).mpr hnone
    obtain ⟨first, hfirst, hrel⟩ := FontView.exists_head_of_decode hd
    rw [List.head?_eq_some_head hg] at hrel
    cases hrel with
    | some hr => exact ⟨_, by simp [FontView.glyphOrFirst_of_none hglyph, hfirst], hr⟩
  · intro name header copyright glyphs hmake
    obtain ⟨-, rfl⟩ := make_eq_ok_iff.mp hmake
    exact hfound rfl

theorem glyph?_compile_repeated :
    let a : Glyph := { code := ⟨65⟩, advance := ⟨1, 0⟩ }
    let glyphs : List Glyph := [{ advance := ⟨5, 0⟩ }, a, { a with advance := ⟨2, 0⟩ }]
    let f : Font := { header := { size := 2 }, glyphs := .placeholder 2 :: glyphs }
    let c := f.compile .empty
    ∃ bytes, make "" { size := 2 } "" glyphs = .ok f ∧ f.glyphs ≠ [] ∧ c.result = .ok bytes ∧
      ∃ v, FontView.ofBytes bytes c.table = .ok v ∧
        (∃ r, v.glyph? ⟨65⟩ = .ok (some r) ∧ r.decode = .ok a) ∧
        (∃ r, v.glyph? .missing = .ok (some r) ∧ r.decode = .ok (.placeholder 2)) ∧
        ∃ r, v.glyphOrFirst ⟨66⟩ = .ok r ∧ r.decode = .ok (.placeholder 2) := by
  intro a glyphs f c
  have hmake : make "" { size := 2 } "" glyphs = .ok f := by decide +kernel
  have hg : f.glyphs ≠ [] := List.cons_ne_nil _ _
  have h : c.result = .ok [2, 0, 0, 0, 0, 0, 0, 0, 0, 0, 0, 0, 11, 2, 2, 1, 2, 0, 0, 192,
      0, 0, 0, 10, 5, 0, 0, 0, 0, 0, 0, 65, 0, 10, 1, 0, 0, 0, 0, 0,
      0, 65, 0, 10, 2, 0, 0, 0, 0, 0] := by
    decide +kernel
  obtain ⟨v, hv, hcodes, hmissing⟩ := glyph?_compile hg h
  obtain ⟨r, hr, hdecode, -⟩ := (hcodes ⟨65⟩).2.1 a (by decide +kernel)
  obtain ⟨m, hm, hplaceholder, -⟩ := hmissing _ _ _ _ hmake
  exact ⟨_, hmake, hg, h, v, hv, ⟨r, hr, hdecode⟩, ⟨m, hm, hplaceholder⟩,
    (hcodes ⟨66⟩).2.2 (by decide +kernel)⟩

end Font
end PixelFont
