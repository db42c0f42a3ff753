import PixelFont.Proofs.JsonForm
import PixelFont.Proofs.LookUp
import PixelFont.Proofs.Source

set_option autoImplicit false

namespace PixelFont

def Font.firstCode? (f : Font) : Option CharCode := f.glyphs.head?.map Glyph.code

theorem head?_of_mapM {α β : Type} {f : α → Option β} {as : List α} {bs : List β}
    (h : as.mapM f = some bs) : bs.head? = as.head?.bind f := by
  cases as with
  | nil =>
    cases h
    rfl
  | cons a as =>
    simp only [List.mapM_cons, Option.bind_eq_bind, Option.bind_eq_some_iff] at h
    obtain ⟨b, hb, bs', -, he⟩ := h
    cases he
    simp [hb]

namespace FontView

variable {v : FontView} {name copyright : String} {f : Font}

theorem firstCode?_of_decode (h : v.decode name copyright = .ok f) :
    v.glyphs.head?.map (fun item => item.bind GlyphView.code) = f.firstCode?.map .ok := by
  obtain ⟨first, hfirst, hrel⟩ := exists_head_of_decode h
  rw [hfirst, Font.firstCode?]
  generalize f.glyphs.head? = g at hrel
  cases hrel with
  | none => rfl
  | some hr => simp [Except.bind, GlyphView.code_of_decode hr]

theorem glyphOrFirst_eq_noGlyphs_iff (h : v.decode name copyright = .ok f) (code : CharCode) :
    v.glyphOrFirst code = .error .noGlyphs ↔ f.firstCode? = none := by
  cases hfind : f.glyphs.find? (fun g => g.code = code) with
  | some g =>
    obtain ⟨r, hr, -⟩ := glyph?_of_find? h hfind
    have hne : f.glyphs ≠ [] := List.ne_nil_of_mem (List.mem_of_find?_eq_some hfind)
    simp [glyphOrFirst_of_glyph? hr, Font.firstCode?, hne]
  | none =>
    obtain ⟨first, hfirst, hrel⟩ := exists_head_of_decode h
    have hnone := (glyph?_eq_none_iff h code).mpr (by simpa using hfind)
    rw [glyphOrFirst_of_none hnone, hfirst, Font.firstCode?]
    generalize f.glyphs.head? = g at hrel
    cases hrel <;> simp

end FontView

namespace Font

theorem firstCode?_of_json {v : JsonValue} {f : Font} (h : ofJson? v = some f) :
    ∃ name header copyright items,
      v.fields? ["name", "metrics", "copyright", "glyphs"] =
        some [name, header, copyright, some (.list items)] ∧
      (items.head?.bind Glyph.ofJson?).map Glyph.code = f.firstCode? := by
  obtain ⟨name, header, copyright, items, hfields, -, -, -, hglyphs⟩ := ofJson?_eq_some_iff.mp h
  refine ⟨_, _, _, items, hfields, ?_⟩
  rw [firstCode?, head?_of_mapM hglyphs]

/-- Only what makes a font puts the placeholder first. Decoding gives every font that can be
compiled and JSON every font at all, with the glyphs that are found there. A search in a compiled
font has nothing to fall back on if and only if the font has no first glyph. -/
theorem firstCode?_of_origin (f : Font) :
    (∀ name header copyright glyphs, make name header copyright glyphs = .ok f →
      f.firstCode? = some .missing) ∧
    (∀ name b, ofBdf name b = .ok f → f.firstCode? = some .missing) ∧
    (∀ v name copyright, FontView.decode v name copyright = .ok f →
      v.glyphs.head?.map (fun item => item.bind GlyphView.code) = f.firstCode?.map .ok) ∧
    (∀ v, ofJson? v = some f → ∃ name header copyright items,
      v.fields? ["name", "metrics", "copyright", "glyphs"] =
        some [name, header, copyright, some (.list items)] ∧
      (items.head?.bind Glyph.ofJson?).map Glyph.code = f.firstCode?) ∧
    (f.Fits → ∃ bytes t v, FontView.ofBytes bytes t = .ok v ∧
      v.decode f.name f.copyright = .ok f) ∧
    ofJson? f.toJson = some f ∧
    ∀ t bytes, (f.compile t).result = .ok bytes →
      ∃ v, FontView.ofBytes bytes (f.compile t).table = .ok v ∧
        ∀ code, v.glyphOrFirst code = .error .noGlyphs ↔ f.firstCode? = none := by
  have hmake : ∀ name header copyright glyphs, make name header copyright glyphs = .ok f →
      f.firstCode? = some .missing := by
    intro name header copyright glyphs h
    obtain ⟨-, rfl⟩ := make_eq_ok_iff.mp h
    rfl
  refine ⟨hmake, fun name b h => hmake _ _ _ _ h,
    fun v name copyright => FontView.firstCode?_of_decode, fun v => firstCode?_of_json, ?_,
    f.ofJson?_toJson, ?_⟩
  · intro hf
    obtain ⟨v, hv, hd⟩ := decode_payload hf (table_compile_has hf .empty)
    exact ⟨_, _, v, hv, hd⟩
  · intro t bytes h
    obtain ⟨hf, rfl⟩ := fits_of_compile h
    obtain ⟨v, hv, hd⟩ := decode_payload hf (table_compile_has hf t)
    exact ⟨v, hv, FontView.glyphOrFirst_eq_noGlyphs_iff hd⟩

/-- A header alone is decoded to a font without glyphs, and a text may list none. -/
theorem firstCode?_of_nothing :
    let f : Font := {}
    let c := f.compile .standard
    let bytes : List UInt8 := [0, 0, 0, 0, 0, 0, 0, 0, 0]
    let text := "\x7b\"name\":\"\",\"metrics\":\x7b\"size\":0,\"declared_char_count\":0," ++
      "\"bounding_box\":\x7b\"width\":0,\"height\":0,\"x_offset\":0,\"y_offset\":0\x7d," ++
      "\"ascent\":0,\"descent\":0\x7d,\"copyright\":\"\",\"glyphs\":[]\x7d"
    (JsonValue.ofText? text).bind ofJson? = some f ∧ c.result = .ok bytes ∧ f.firstCode? = none ∧
      ∃ v, FontView.ofBytes bytes c.table = .ok v ∧ v.decode "" "" = .ok f ∧
        v.glyphOrFirst .missing = .error .noGlyphs := by
  intro f c bytes text
  have h : c.result = .ok bytes := by decide +kernel
  obtain ⟨hf, hbytes⟩ := fits_of_compile h
  obtain ⟨v, hv, hd⟩ := decode_payload hf (table_compile_has hf .standard)
  rw [← hbytes] at hv
  exact ⟨by decide +kernel, h, rfl, v, hv, hd, (FontView.glyphOrFirst_eq_noGlyphs_iff hd _).mpr rfl⟩

end Font
end PixelFont
