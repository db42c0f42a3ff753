import PixelFont.Command
import PixelFont.Proofs.SharedTable
import PixelFont.Proofs.Source

set_option autoImplicit false

namespace PixelFont

namespace SourceResult

variable {name path text : String} {t : OffsetTable}

theorem result_ofText (name path text : String) (t u : OffsetTable) :
    (ofText name path text t).result = (ofText name path text u).result := by
  obtain ⟨events, hread⟩ : ∃ events, Bdf.read text = (events, Bdf.parse text) := ⟨_, rfl⟩
  cases hp : Bdf.parse text with
  | error e => simp [ofText, hread, hp]
  | ok b =>
    cases hmake : Font.ofBdf name b with
    | error e => simp [ofText, hread, hp, hmake]
    | ok f => simp [ofText, hread, hp, hmake, Font.result_compile f t u]

theorem exists_fits_of_ofText {f : CompiledFont} (h : (ofText name path text t).result = .ok f) :
    ∃ b, Bdf.parse text = .ok b ∧ b.Fits := by
  by_contra hno
  have herror : (∃ e, (ofText name path text t).result = .error e) ∧ _ :=
    ofText_of_not_fits fun b hp hb => hno ⟨b, hp, hb⟩
  obtain ⟨⟨e, he⟩, -⟩ := herror
  rw [h] at he
  cases he

theorem table_ofText (ht : t.Shared) {f : CompiledFont}
    (h : (ofText name path text t).result = .ok f) :
    (ofText name path text t).table = .standard := by
  obtain ⟨b, hp, hb⟩ := exists_fits_of_ofText h
  have hfits : (b.font name).Fits := (Bdf.fits_font_iff hp name).mpr hb
  have htable := Font.table_compile_of_fits hfits (List.cons_ne_nil _ _) ht
  simp only [Font.compile_of_fits hfits] at htable
  rw [(ofText_of_fits hp hb).2, htable]

end SourceResult

/-- What becomes of a listed source if it is compiled by itself. -/
def Listing.compile (read : String → Except FileFault String) (l : Listing) :
    Except Failure CompiledFont :=
  match read l.path with
  | .error e => .error (.unreadable l.path e)
  | .ok text => (SourceResult.ofText l.name l.path text .empty).result

namespace Batch

variable {read : String → Except FileFault String} {l : Listing} {ls : List Listing} {b : Batch}

/-- The first of the sources to be added, if it compiles by itself, leaves the others to be added to
a batch with its font and the standard layout. -/
theorem addAll_of_ok {f : CompiledFont} (hb : b.table.Shared) (h : l.compile read = .ok f)
    (ls : List Listing) (log : List LogLine) :
    ∃ log', addAll read (l :: ls) b log = addAll read ls ⟨b.fonts ++ [f], .standard⟩ log' := by
  rw [Listing.compile] at h
  cases hread : read l.path with
  | error e =>
    rw [hread] at h
    cases h
  | ok text =>
    rw [hread] at h
    have hresult := (SourceResult.result_ofText l.name l.path text b.table .empty).trans h
    exact ⟨_, by simp [addAll, hread, hresult, SourceResult.table_ofText hb hresult]; rfl⟩

theorem addAll_of_error {e : Failure} (h : l.compile read = .error e) (log : List LogLine) :
    (addAll read (l :: ls) b log).2 = .error e := by
  rw [Listing.compile] at h
  cases hread : read l.path with
  | error e' =>
    rw [hread] at h
    cases h
    simp [addAll, hread]
  | ok text =>
    rw [hread] at h
    have hresult := (SourceResult.result_ofText l.name l.path text b.table .empty).trans h
    simp [addAll, hread, hresult]

theorem addAll_eq (hb : b.table.Shared) (log : List LogLine) :
    (addAll read ls b log).2 = (ls.mapM (Listing.compile read)).map fun fs =>
      ⟨b.fonts ++ fs, if ls = [] then b.table else .standard⟩ := by
  induction ls generalizing b log with
  | nil => simp [addAll, Except.map, pure, Except.pure]
  | cons l ls ih =>
    rw [List.mapM_cons]
    cases h : l.compile read with
    | error e => exact addAll_of_error h log
    | ok f =>
      obtain ⟨log', hadd⟩ := addAll_of_ok hb h ls log
      rw [hadd, ih (.inr rfl)]
      cases ls.mapM (Listing.compile read) <;>
        simp [Except.map, bind, Except.bind, pure, Except.pure]

end Batch

theorem CommandRun.ofArguments_of_error {args : List String} {tree : FileTree} {o : Options}
    {c : Catalogue} {e : Failure} (ho : Options.ofArguments args = .ok o)
    (hc : Catalogue.load o.catalogue (tree.readText o.catalogue) = .ok c)
    (h : (c.compile tree.readText).2 = .error e) :
    ofArguments args tree = { printed := "", complaint := some e.message, tree } := by
  simp [ofArguments, ho, hc, h, bind, Except.bind]

namespace Catalogue

theorem compile_eq (c : Catalogue) (read : String → Except FileFault String) :
    (c.compile read).2 = (c.listings.mapM (Listing.compile read)).map fun fs =>
      ⟨fs, if c.listings = [] then .empty else .standard⟩ :=
  Batch.addAll_eq (.inl rfl) []

theorem compile_eq_ok_iff {c : Catalogue} {read : String → Except FileFault String} {b : Batch} :
    (c.compile read).2 = .ok b ↔
      List.Forall₂ (fun l f => Listing.compile read l = .ok f) c.listings b.fonts ∧
        b.table = if c.listings = [] then .empty else .standard := by
  obtain ⟨fonts, table⟩ := b
  rw [compile_eq, ← mapM_eq_ok_iff]
  cases c.listings.mapM (Listing.compile read) <;> simp [Except.map, eq_comm (a := table)]

/-- A catalogue is compiled if and only if each source that it lists is compiled by itself. The
fonts are then those of the sources in their order, with the standard layout unless none is listed;
or else the failure is that of the first source that fails, and a run of the command has no
output. -/
theorem compile_separately (c : Catalogue) (read : String → Except FileFault String) :
    ((∃ b, (c.compile read).2 = .ok b) ↔ ∀ l ∈ c.listings, ∃ f, l.compile read = .ok f) ∧
    (∀ b, (c.compile read).2 = .ok b →
      List.Forall₂ (fun l f => Listing.compile read l = .ok f) c.listings b.fonts ∧
        b.table = if c.listings = [] then .empty else .standard) ∧
    (∀ e, (c.compile read).2 = .error e → ∃ before l after, c.listings = before ++ l :: after ∧
      (∀ l' ∈ before, ∃ f, Listing.compile read l' = .ok f) ∧ l.compile read = .error e) ∧
    ∀ args tree o e, Options.ofArguments args = .ok o →
      load o.catalogue (tree.readText o.catalogue) = .ok c →
      (c.compile tree.readText).2 = .error e →
      CommandRun.ofArguments args tree = { printed := "", complaint := some e.message, tree } := by
  refine ⟨?_, fun b => compile_eq_ok_iff.mp, ?_, fun _ _ _ _ => CommandRun.ofArguments_of_error⟩
  · rw [compile_eq, ← exists_mapM_iff]
    cases c.listings.mapM (Listing.compile read) <;> simp [Except.map]
  · intro e he
    rw [compile_eq] at he
    cases h : c.listings.mapM (Listing.compile read) with
    | error e' =>
      rw [h] at he
      obtain rfl := Except.error.inj he
      exact exists_of_mapM_error h
    | ok fs =>
      rw [h] at he
      cases he

/-- The same source at two sizes, then with the second one missing, and a run in which both are. -/
theorem compile_separately_missing :
    let text := "SIZE 1\nFONTBOUNDINGBOX 0 0 0 0\nFONT_ASCENT 0\nFONT_DESCENT 0\nCHARS 0"
    let c : Catalogue := { sourceDir := "d", families := [⟨"a", [1, 2]⟩] }
    let first : Listing := ⟨"a", 1, "d/a/a.1.bdf"⟩
    let second : Listing := ⟨"a", 2, "d/a/a.2.bdf"⟩
    let both : String → Except FileFault String := fun _ => .ok text
    let one : String → Except FileFault String := fun path =>
      if path = first.path then .ok text else .error .notFound
    let f : CompiledFont := ⟨⟨"a", { size := 1 }, "", [.placeholder 1]⟩,
      [1, 0, 0, 0, 0, 0, 0, 0, 0, 0, 0, 0, 10, 1, 1, 0, 1, 0, 0]⟩
    let file := "source_dir = \"d\"\nfonts = [[\"a\", [1, 2]]]"
    let tree : FileTree := { files := [(["c"], file.toUTF8.toList)] }
    c.listings = [first, second] ∧ first.compile both = .ok f ∧ second.compile both = .ok f ∧
      (∃ b, (c.compile both).2 = .ok b ∧ b.table = .standard ∧
        List.Forall₂ (fun l f => Listing.compile both l = .ok f) c.listings b.fonts) ∧
      (c.compile one).2 = .error (.unreadable second.path .notFound) ∧
      (∃ before l after, c.listings = before ++ l :: after ∧
        (∀ l' ∈ before, ∃ f, Listing.compile one l' = .ok f) ∧
        l.compile one = .error (.unreadable second.path .notFound)) ∧
      CommandRun.ofArguments ["c"] tree =
        { complaint := some (Failure.unreadable first.path .notFound).message, tree } := by
  intro text c first second both one f file tree
  have hlistings : c.listings = [first, second] := by decide +kernel
  have hfirst : first.compile both = .ok f := by decide +kernel
  have hsecond : second.compile both = .ok f := by decide +kernel
  have hone : (c.compile one).2 = .error (.unreadable second.path .notFound) := by decide +kernel
  have hargs : Options.ofArguments ["c"] = .ok { catalogue := "c" } := by decide +kernel
  have hload : load "c" (tree.readText "c") = .ok c := by decide +kernel
  have htree : (c.compile tree.readText).2 = .error (.unreadable first.path .notFound) := by
    decide +kernel
  clear_value text c f tree
  obtain ⟨hok, hfonts, -, hrun⟩ := compile_separately c both
  obtain ⟨b, hb⟩ := hok.mpr (by simp [hlistings, hfirst, hsecond])
  obtain ⟨hforall, htable⟩ := hfonts b hb
  obtain ⟨-, -, herror, -⟩ := compile_separately c one
  exact ⟨hlistings, hfirst, hsecond, ⟨b, hb, by simpa [hlistings] using htable, hforall⟩, hone,
    herror _ hone, hrun _ _ _ _ hargs hload htree⟩

end Catalogue
end PixelFont
