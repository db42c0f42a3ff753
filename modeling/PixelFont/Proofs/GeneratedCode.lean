import PixelFont.Proofs.GeneratedCode.Frame

set_option autoImplicit false

namespace PixelFont

namespace GeneratedCode

open Cpp

section Fonts

variable {fonts : List CompiledFont}
  (hlines : ∀ f ∈ fonts, '\n' ∉ f.font.name.toList ∧ '\n' ∉ f.font.copyright.toList)

include hlines

theorem parses_declarations :
    Parses (String.join (fonts.map CompiledFont.declaration)).toList
      (fonts.map fun f => f.defined.head) := by
  rw [String.toList_join, List.flatMap_map, List.map_eq_flatMap]
  exact .flatMap fun f hf => f.parses_declaration (hlines f hf).1 (hlines f hf).2

theorem parses_definitions (hbytes : ∀ f ∈ fonts, f.bytes ≠ []) :
    Parses (String.join (fonts.map definition)).toList (fonts.map CompiledFont.defined) := by
  rw [String.toList_join, List.flatMap_map, List.map_eq_flatMap]
  exact .flatMap fun f hf => f.parses_definition (hlines f hf).1 (hlines f hf).2 (hbytes f hf)

end Fonts

theorem declarations?_of_parses {text : String} {ds : List Declaration}
    (h : Parses text.toList ds) : declarations? text = some ds := by
  simpa using h.declarations? .nil rfl

theorem declarations?_between {opening text : String} {ds : List Declaration}
    (hopening : Parses opening.toList []) (h : Parses text.toList ds) (c : Catalogue)
    (hscope : ∀ ch ∈ c.scope.toList, isWordChar ch = true ∨ ch = ':') :
    declarations? (opening ++ text ++ unlines (closingLines c)) = some ds := by
  obtain ⟨texts, hclosing⟩ := lexes_closing c hscope
  have hread : Reader.run { done := ds } (.mark '\x7d' :: texts.map .comment) =
      some ⟨ds, [] ++ texts.flatten, []⟩ := Reader.run_comments ds [] texts
  have hall := (hopening.append h).declarations? hclosing hread
  simpa only [← String.toList_append, String.ofList_toList, List.nil_append] using hall

/-- The generated code declares these arrays and defines them, in the part of it that is made for
the fonts, and as a whole if its names can be names. -/
structure Declares (c : Catalogue) (t : OffsetTable) (header : String) (fonts : List CompiledFont)
    (ds : List Declaration) : Prop where
  headerText_eq : headerText c t fonts = headerOpening c t ++
    String.join (fonts.map CompiledFont.declaration) ++ unlines (closingLines c)
  sourceText_eq : sourceText c header fonts = sourceOpening c header ++
    String.join (fonts.map definition) ++ unlines (closingLines c)
  declarations : declarations? (String.join (fonts.map CompiledFont.declaration)) =
    some (ds.map Declaration.head)
  definitions : declarations? (String.join (fonts.map definition)) = some ds
  whole_header : Nameable c t header →
    declarations? (headerText c t fonts) = some (ds.map Declaration.head)
  whole_source : Nameable c t header → declarations? (sourceText c header fonts) = some ds

theorem declares_defined (c : Catalogue) (t : OffsetTable) (header : String)
    {fonts : List CompiledFont} (hbytes : ∀ f ∈ fonts, f.bytes ≠ [])
    (hlines : ∀ f ∈ fonts, '\n' ∉ f.font.name.toList ∧ '\n' ∉ f.font.copyright.toList) :
    Declares c t header fonts (fonts.map CompiledFont.defined) := by
  have hheader := parses_declarations hlines
  have hsource := parses_definitions hlines hbytes
  have hheads : (fonts.map CompiledFont.defined).map Declaration.head =
      fonts.map fun f => f.defined.head := List.map_map
  refine ⟨rfl, rfl, ?_, declarations?_of_parses hsource, fun h => ?_, fun h => ?_⟩
  · rw [hheads]
    exact declarations?_of_parses hheader
  · rw [hheads]
    exact declarations?_between h.parses_headerOpening hheader c h.scope
  · exact declarations?_between h.parses_sourceOpening hsource c h.scope

/-- The header and the source agree on the arrays, of which there is one for each font, with its
bytes. -/
theorem exists_declares (c : Catalogue) (t : OffsetTable) (header : String)
    (fonts : List CompiledFont) (hbytes : ∀ f ∈ fonts, f.bytes ≠ [])
    (hlines : ∀ f ∈ fonts, '\n' ∉ f.font.name.toList ∧ '\n' ∉ f.font.copyright.toList) :
    ∃ ds, Declares c t header fonts ds ∧ List.Forall₂ CompiledFont.DefinedAs fonts ds :=
  ⟨fonts.map CompiledFont.defined, declares_defined c t header hbytes hlines,
    List.forall₂_map_right_iff.mpr <|
      List.forall₂_same.mpr fun f hf => f.definedAs_defined (hbytes f hf)⟩

/-- A font of twenty-five bytes, with a copyright that ends in a backslash. -/
theorem exists_declares_backslash :
    let f : CompiledFont :=
      ⟨{ name := "a-b", header := { size := 7 }, copyright := "c\\" }, List.replicate 25 0xab⟩
    (f.bytes ≠ [] ∧ '\n' ∉ f.font.name.toList ∧ '\n' ∉ f.font.copyright.toList ∧
      Nameable {} .standard "fonts.h") ∧
    ∃ d, declarations? (headerText {} .standard [f]) = some [d.head] ∧
      declarations? (sourceText {} "fonts.h" [f]) = some [d] ∧
      f.DefinedAs d ∧ d.name = "a_b_7_pt" ∧ d.size = 26 := by
  intro f
  have hf : f.bytes ≠ [] ∧ '\n' ∉ f.font.name.toList ∧ '\n' ∉ f.font.copyright.toList := by decide
  have hnameable : Nameable {} .standard "fonts.h" := by decide
  have hname : f.arrayName = "a_b_7_pt" ∧ f.arraySize = 26 := by decide
  clear_value f
  obtain ⟨ds, hds, hfonts⟩ := exists_declares {} .standard "fonts.h" [f] (by simpa using hf.1)
    (by simpa using hf.2)
  obtain ⟨d, rest, hd, hrest, rfl⟩ := List.forall₂_cons_left_iff.mp hfonts
  obtain rfl := List.forall₂_nil_left_iff.mp hrest
  exact ⟨⟨hf.1, hf.2.1, hf.2.2, hnameable⟩, d, hds.whole_header hnameable,
    hds.whole_source hnameable, hd, hd.name.trans hname.1, hd.size.trans hname.2⟩

end GeneratedCode

end PixelFont
