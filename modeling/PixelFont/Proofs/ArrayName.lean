import PixelFont.Proofs.Batch
import PixelFont.Proofs.Bdf.Layout
import PixelFont.Proofs.GeneratedCode

set_option autoImplicit false

namespace PixelFont

namespace CompiledFont

theorem arrayName_eq_iff {f g : CompiledFont} :
    f.arrayName = g.arrayName ↔
      identifier f.font.name = identifier g.font.name ∧
        f.font.header.size = g.font.header.size := by
  rw [← String.toList_inj, toList_arrayName, toList_arrayName, List.append_left_inj,
    Text.append_cons_inj_of_notMem Nat.underscore_not_in_toDigits Nat.underscore_not_in_toDigits,
    String.toList_inj, Text.toDigits_inj, UInt32.toNat_inj]

theorem identifier_eq_map (name : String) :
    identifier name = name.map fun c => if c.isAlphanum then c else '_' := by
  rw [← String.toList_inj, identifier, String.toList_ofList, String.toList_map]
  rfl

theorem identifier_of_isWordChar {name : String}
    (h : ∀ c ∈ name.toList, Cpp.isWordChar c = true) : identifier name = name := by
  have hkept : ∀ c ∈ name.toList, identifierChar c = id c := by
    intro c hc
    have hword := h c hc
    simp only [Cpp.isWordChar, Bool.or_eq_true, decide_eq_true_eq] at hword
    rcases hword with halnum | rfl
    · simp [identifierChar, halnum]
    · rfl
  rw [identifier, List.map_congr_left hkept, List.map_id, String.ofList_toList]

/-- Arrays have one name if and only if their fonts have one size and names that become one when
an underscore replaces every character that is neither a letter nor a digit of ASCII. So a name that
is a word is not taken for another one, with whatever sizes. -/
theorem arrayName_eq_iff_replaced (f g : CompiledFont) :
    (f.arrayName = g.arrayName ↔
      f.font.header.size = g.font.header.size ∧
        (f.font.name.map fun c => if c.isAlphanum then c else '_') =
          g.font.name.map fun c => if c.isAlphanum then c else '_') ∧
    ((∀ c ∈ f.font.name.toList, Cpp.isWordChar c = true) →
      (∀ c ∈ g.font.name.toList, Cpp.isWordChar c = true) →
      (f.arrayName = g.arrayName ↔
        f.font.header.size = g.font.header.size ∧ f.font.name = g.font.name)) := by
  constructor
  · rw [arrayName_eq_iff, identifier_eq_map, identifier_eq_map, and_comm]
  · intro hf hg
    rw [arrayName_eq_iff, identifier_of_isWordChar hf, identifier_of_isWordChar hg, and_comm]

/-- Two words with sizes that make up the same digits, and two names without a letter. -/
theorem arrayName_eq_iff_replaced_digits :
    let font (name : String) (size : UInt32) : CompiledFont :=
      ⟨{ name := name, header := { size := size } }, []⟩
    (∀ c ∈ "a_1_pt".toList, Cpp.isWordChar c = true) ∧
      (font "a_1_pt_1" 2).arrayName ≠ (font "a_1_pt" 12).arrayName ∧
      (font "é_8" 8).arrayName = (font "-.8" 8).arrayName := by
  intro font
  have hshort : ∀ c ∈ "a_1_pt".toList, Cpp.isWordChar c = true :=
    List.all_eq_true.mp (by decide)
  have hlong : ∀ c ∈ "a_1_pt_1".toList, Cpp.isWordChar c = true :=
    List.all_eq_true.mp (by decide)
  have hwords := (arrayName_eq_iff_replaced (font "a_1_pt_1" 2) (font "a_1_pt" 12)).2 hlong hshort
  refine ⟨hshort, ?_, (arrayName_eq_iff_replaced _ _).1.mpr ⟨rfl, by decide +kernel⟩⟩
  rw [Ne, hwords]
  decide

end CompiledFont

/-- The size that the source of a listing declares. -/
def Listing.declaredSize? (read : String → Except FileFault String) (l : Listing) :
    Option UInt32 :=
  match read l.path with
  | .error _ => none
  | .ok text => (Bdf.parse text).toOption.map (·.header.size)

theorem Listing.exists_source_of_compile {read : String → Except FileFault String} {l : Listing}
    {f : CompiledFont} (h : l.compile read = .ok f) :
    ∃ text b, read l.path = .ok text ∧ Bdf.parse text = .ok b ∧
      f = ⟨b.font l.name, (b.font l.name).payload⟩ := by
  rw [Listing.compile] at h
  cases hread : read l.path with
  | error e =>
    rw [hread] at h
    cases h
  | ok text =>
    rw [hread] at h
    obtain ⟨b, hp, hb⟩ := SourceResult.exists_fits_of_ofText h
    have hresult : (SourceResult.ofText l.name l.path text .empty).result = _ :=
      (SourceResult.ofText_of_fits hp hb).1
    exact ⟨text, b, rfl, hp, Except.ok.inj (h.symm.trans hresult)⟩

namespace Catalogue

variable {c : Catalogue} {read : String → Except FileFault String} {b : Batch}

theorem map_identifier_of_compile (h : (c.compile read).2 = .ok b) :
    b.fonts.map (fun f => (CompiledFont.identifier f.font.name, some f.font.header.size)) =
      c.listings.map fun l => (CompiledFont.identifier l.name, l.declaredSize? read) := by
  rw [eq_comm, ← List.forall₂_eq_eq_eq, List.forall₂_map_left_iff, List.forall₂_map_right_iff]
  refine (compile_eq_ok_iff.mp h).1.imp fun l f hf => ?_
  obtain ⟨text, p, hread, hp, rfl⟩ := Listing.exists_source_of_compile hf
  simp [Listing.declaredSize?, hread, hp, Bdf.font, Except.toOption]

theorem exists_mem_listings_of_mem_fonts (h : (c.compile read).2 = .ok b) {f : CompiledFont}
    (hf : f ∈ b.fonts) : ∃ l ∈ c.listings, Listing.compile read l = .ok f := by
  obtain ⟨i, hi, rfl⟩ := List.getElem_of_mem hf
  have hfonts := (compile_eq_ok_iff.mp h).1
  have hl : i < c.listings.length := hfonts.length_eq ▸ hi
  exact ⟨c.listings[i], List.getElem_mem hl, List.Forall₂.get hfonts hl hi⟩

/-- The table of compiled fonts is empty or the standard one, so its fields have names. -/
theorem nameable_of_compile (h : (c.compile read).2 = .ok b) {header : String}
    (hframe : GeneratedCode.Frameable c header) : GeneratedCode.Nameable c b.table header where
  toFrameable := hframe
  fields := by
    have hstandard : (OffsetTable.standard.entries.all
        fun e => e.1.toList.all Cpp.isWordChar) = true := by decide
    rw [(compile_eq_ok_iff.mp h).2]
    split
    · exact List.forall_mem_nil _
    · simpa using hstandard

theorem declares_of_compile (h : (c.compile read).2 = .ok b)
    (hlines : ∀ l ∈ c.listings, '\n' ∉ l.name.toList) (header : String) :
    GeneratedCode.Declares c b.table header b.fonts (b.fonts.map CompiledFont.defined) := by
  refine GeneratedCode.declares_defined c b.table header (fun f hf => ?_) fun f hf => ?_
  · obtain ⟨l, -, hl⟩ := exists_mem_listings_of_mem_fonts h hf
    obtain ⟨text, p, -, -, rfl⟩ := Listing.exists_source_of_compile hl
    refine List.ne_nil_of_length_pos ?_
    rw [Font.length_payload]
    exact Nat.add_pos_left (by decide) _
  · obtain ⟨l, hl, hcompile⟩ := exists_mem_listings_of_mem_fonts h hf
    obtain ⟨text, p, -, hp, rfl⟩ := Listing.exists_source_of_compile hcompile
    exact ⟨hlines l hl, Bdf.lineFeed_notMem_of_parse hp⟩

/-- The arrays of a catalogue have different names if and only if no two of its sources have the
same identifier and declare the same size. The generated code declares and defines arrays of these
names only, also as a whole if its namespace and its includes can be read. -/
theorem nodup_arrayName_iff (h : (c.compile read).2 = .ok b) :
    ((b.fonts.map CompiledFont.arrayName).Nodup ↔
      (c.listings.map fun l => (CompiledFont.identifier l.name, l.declaredSize? read)).Nodup) ∧
    ((∀ l ∈ c.listings, l.declaredSize? read = some l.size) →
      ((b.fonts.map CompiledFont.arrayName).Nodup ↔
        (c.listings.map fun l => (CompiledFont.identifier l.name, l.size)).Nodup)) ∧
    ((∀ l ∈ c.listings, '\n' ∉ l.name.toList) → ∀ header, ∃ ds,
      GeneratedCode.Declares c b.table header b.fonts ds ∧
        ds.map Cpp.Declaration.name = b.fonts.map CompiledFont.arrayName ∧
        (GeneratedCode.Frameable c header →
          Cpp.declarations? (GeneratedCode.headerText c b.table b.fonts) =
              some (ds.map Cpp.Declaration.head) ∧
            Cpp.declarations? (GeneratedCode.sourceText c header b.fonts) = some ds)) := by
  have hnames : (b.fonts.map CompiledFont.arrayName).Nodup ↔
      (c.listings.map fun l => (CompiledFont.identifier l.name, l.declaredSize? read)).Nodup := by
    rw [← map_identifier_of_compile h, List.Nodup, List.Nodup, List.pairwise_map,
      List.pairwise_map]
    simp [CompiledFont.arrayName_eq_iff]
  refine ⟨hnames, fun hsizes => ?_, fun hlines header => ?_⟩
  · rw [hnames, List.Nodup, List.Nodup, List.pairwise_map, List.pairwise_map]
    refine List.Pairwise.iff_of_mem fun {l l'} hl hl' => ?_
    simp [hsizes l hl, hsizes l' hl']
  · have hdeclares := declares_of_compile h hlines header
    refine ⟨b.fonts.map CompiledFont.defined, hdeclares, List.map_map, fun hframe => ?_⟩
    have hnames := nameable_of_compile h hframe
    exact ⟨hdeclares.whole_header hnames, hdeclares.whole_source hnames⟩

theorem nodup_arrayName_iff_sizes :
    let source (size : Nat) := s!"SIZE {size}\nFONTBOUNDINGBOX 0 0 0 0\nFONT_ASCENT 0\n" ++
      "FONT_DESCENT 0\nCHARS 0"
    let c : Catalogue := { sourceDir := "d", families := [⟨"a", [1, 2]⟩] }
    let read : String → Except FileFault String := fun path =>
      .ok (source (if path = "d/a/a.1.bdf" then 1 else 2))
    (∀ l ∈ c.listings, l.declaredSize? read = some l.size) ∧
      (c.listings.map fun l => (CompiledFont.identifier l.name, l.size)).Nodup ∧
      GeneratedCode.Frameable c "fonts.h" ∧
      ∃ b, (c.compile read).2 = .ok b ∧ (b.fonts.map CompiledFont.arrayName).Nodup ∧
        b.fonts.map CompiledFont.arrayName = ["a_1_pt", "a_2_pt"] ∧
        ∃ ds, GeneratedCode.Declares c b.table "fonts.h" b.fonts ds ∧
          ds.map Cpp.Declaration.name = ["a_1_pt", "a_2_pt"] ∧
          Cpp.declarations? (GeneratedCode.headerText c b.table b.fonts) =
            some (ds.map Cpp.Declaration.head) ∧
          Cpp.declarations? (GeneratedCode.sourceText c "fonts.h" b.fonts) = some ds := by
  intro source c read
  have hsizes : ∀ l ∈ c.listings, l.declaredSize? read = some l.size := by decide +kernel
  have hnodup : (c.listings.map fun l => (CompiledFont.identifier l.name, l.size)).Nodup := by
    decide +kernel
  have hlines : ∀ l ∈ c.listings, '\n' ∉ l.name.toList := by decide +kernel
  have hframe : GeneratedCode.Frameable c "fonts.h" := by decide +kernel
  have hnames : (c.compile read).2.toOption.map (fun b => b.fonts.map CompiledFont.arrayName) =
      some ["a_1_pt", "a_2_pt"] := by decide +kernel
  cases hb : (c.compile read).2 with
  | error e => simp [hb, Except.toOption] at hnames
  | ok b =>
    have harrays : b.fonts.map CompiledFont.arrayName = ["a_1_pt", "a_2_pt"] := by
      simpa [hb, Except.toOption] using hnames
    obtain ⟨-, hiff, hdeclares⟩ := nodup_arrayName_iff hb
    obtain ⟨ds, hds, hname, hwhole⟩ := hdeclares hlines "fonts.h"
    exact ⟨hsizes, hnodup, hframe, b, rfl, (hiff hsizes).mpr hnodup, harrays, ds, hds,
      hname.trans harrays, hwhole hframe⟩

/-- Three fonts whose arrays have one name, although no two are listed with the same name and size:
the two names are made into one identifier, and one source declares another size than is listed. -/
theorem arrayName_collision :
    let c : Catalogue := { sourceDir := "d", families := [⟨"a-b", [1]⟩, ⟨"a_b", [1, 2]⟩] }
    let read : String → Except FileFault String := fun _ =>
      .ok "SIZE 1\nFONTBOUNDINGBOX 0 0 0 0\nFONT_ASCENT 0\nFONT_DESCENT 0\nCHARS 0"
    (c.listings.map fun l => (l.name, l.size)).Nodup ∧
      ∃ b, (c.compile read).2 = .ok b ∧
        b.fonts.map CompiledFont.arrayName = ["a_b_1_pt", "a_b_1_pt", "a_b_1_pt"] ∧
        ¬ (b.fonts.map CompiledFont.arrayName).Nodup := by
  intro c read
  refine ⟨by decide +kernel, ?_⟩
  have hnames : (c.compile read).2.toOption.map (fun b => b.fonts.map CompiledFont.arrayName) =
      some ["a_b_1_pt", "a_b_1_pt", "a_b_1_pt"] := by decide +kernel
  cases h : (c.compile read).2 with
  | error e => simp [h, Except.toOption] at hnames
  | ok b =>
    have hb : b.fonts.map CompiledFont.arrayName = ["a_b_1_pt", "a_b_1_pt", "a_b_1_pt"] := by
      simpa [h, Except.toOption] using hnames
    exact ⟨b, rfl, hb, by rw [hb]; decide⟩

end Catalogue

end PixelFont
