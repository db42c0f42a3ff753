import PixelFont.Proofs.GeneratedCode.Frame
import PixelFont.Proofs.OffsetTable

/-!
The offset table as the generated header defines it. Main statement: `entries_eq_of_headerText`.
An entry has one line or two, and nothing ends it; the value that a line ends with tells whether an
entry starts there, whatever the names are.
-/

set_option autoImplicit false

namespace PixelFont.GeneratedCode

open Cpp

theorem cName_injective : Function.Injective IntFormat.cName := by
  rintro ⟨width, signed⟩ ⟨width', signed'⟩ h
  rw [← String.toList_inj, toList_cName, toList_cName] at h
  have hsigned : signed = signed' := by
    cases signed <;> cases signed' <;> simp_all
  subst hsigned
  rw [List.append_right_inj, List.append_left_inj, Text.toDigits_inj] at h
  simp only [IntFormat.bits, IntFormat.bytes] at h
  rw [UInt8.toNat_inj.mp (by omega : width.toNat = width'.toNat)]

def tableLines (es : List (String × Slot)) : List String :=
  es.flatMap fun e => defineLines e.1 e.2

theorem tableLines_cons (e : String × Slot) (es : List (String × Slot)) :
    tableLines (e :: es) = defineLines e.1 e.2 ++ tableLines es := rfl

theorem defineLine_inj {name name' value value' : String} (h : IsWord value.toList)
    (h' : IsWord value'.toList) :
    defineLine name value = defineLine name' value' ↔ name = name' ∧ value = value' := by
  have hblank : isWordChar ' ' = false := by decide
  rw [← String.toList_inj, toList_defineLine, toList_defineLine,
    Text.append_cons_inj_of_notMem (h.notMem hblank) (h'.notMem hblank), List.append_right_inj,
    String.toList_inj, String.toList_inj]

theorem toString_ne_cName (n : Nat) (f : IntFormat) : toString n ≠ f.cName := by
  intro h
  rw [← String.toList_inj, toList_natural, toList_cName] at h
  exact Nat.underscore_not_in_toDigits (by rw [h]; simp)

/-- A line with a type does not start an entry. -/
theorem typeLine_cons_ne (name : String) (f : IntFormat) (ls : List String)
    (es : List (String × Slot)) : defineLine name f.cName :: ls ≠ tableLines es := by
  intro h
  cases es with
  | nil => cases h
  | cons e es =>
    rw [tableLines_cons, defineLines_eq] at h
    obtain ⟨-, hvalue⟩ := (defineLine_inj (isWord_cName f) (isWord_toString _)).mp
      (List.cons.inj h).1
    exact toString_ne_cName _ f hvalue.symm

/-- The lines of an entry end where those of the next one start. -/
theorem defineLines_append_inj {name name' : String} {s s' : Slot} {es es' : List (String × Slot)}
    (h : defineLines name s ++ tableLines es = defineLines name' s' ++ tableLines es') :
    (name, s) = (name', s') ∧ tableLines es = tableLines es' := by
  obtain ⟨offset, format⟩ := s
  obtain ⟨offset', format'⟩ := s'
  rw [defineLines_eq, defineLines_eq] at h
  obtain ⟨hline, hrest⟩ := List.cons.inj h
  obtain ⟨rfl, hoffset⟩ := (defineLine_inj (isWord_toString _) (isWord_toString _)).mp hline
  rw [← String.toList_inj, toList_natural, toList_natural, Text.toDigits_inj] at hoffset
  obtain rfl : offset = offset' := hoffset
  cases format with
  | none =>
    cases format' with
    | none => exact ⟨rfl, hrest⟩
    | some f' => exact absurd hrest.symm (typeLine_cons_ne _ f' _ es)
  | some f =>
    cases format' with
    | none => exact absurd hrest (typeLine_cons_ne _ f _ es')
    | some f' =>
      obtain ⟨htype, htail⟩ := List.cons.inj hrest
      obtain ⟨-, hname⟩ := (defineLine_inj (isWord_cName f) (isWord_cName f')).mp htype
      obtain rfl : f = f' := cName_injective hname
      exact ⟨rfl, htail⟩

theorem tableLines_injective : Function.Injective tableLines := by
  intro es es' h
  induction es generalizing es' with
  | nil =>
    cases es' with
    | nil => rfl
    | cons e' es' =>
      rw [tableLines_cons, defineLines_eq] at h
      cases h
  | cons e es ih =>
    cases es' with
    | nil =>
      rw [tableLines_cons, defineLines_eq] at h
      cases h
    | cons e' es' =>
      obtain ⟨hentry, hrest⟩ := defineLines_append_inj h
      exact congrArg₂ List.cons hentry (ih hrest)

theorem eq_of_unlines_eq {ls ls' : List String} (h : ∀ l ∈ ls, '\n' ∉ l.toList)
    (h' : ∀ l ∈ ls', '\n' ∉ l.toList) (heq : unlines ls = unlines ls') : ls = ls' := by
  have hpieces {ls : List String} (h : ∀ l ∈ ls, '\n' ∉ l.toList) :
      Text.pieces (· = '\n') (unlines ls).toList = ls.map String.toList ++ [[]] := by
    have htext : (unlines ls).toList = (ls.map String.toList).flatMap (· ++ ['\n']) ++ [] := by
      rw [toList_unlines, List.flatMap_map, List.append_nil]
    rw [htext, Text.pieces_flatMap_lineFeed (List.forall_mem_map.mpr h)]
    rfl
  have hlines := hpieces h
  rw [heq, hpieces h', List.append_left_inj] at hlines
  exact (List.map_injective_iff.mpr (fun _ _ => String.toList_inj.mp) hlines).symm

theorem lineFeed_notMem_defineLine {name value : String} (hname : '\n' ∉ name.toList)
    (hvalue : IsWord value.toList) : '\n' ∉ (defineLine name value).toList := by
  rw [toList_defineLine, List.mem_append, List.mem_append, List.mem_cons]
  simp only [hname, hvalue.notMem (by decide : isWordChar '\n' = false), or_false]
  decide

theorem lineFeed_notMem_tableLines {es : List (String × Slot)}
    (h : ∀ e ∈ es, '\n' ∉ e.1.toList) : ∀ l ∈ tableLines es, '\n' ∉ l.toList := by
  have htype {name : String} (hname : '\n' ∉ name.toList) : '\n' ∉ (name ++ "_TYPE").toList := by
    rw [String.toList_append, List.mem_append, or_iff_right hname]
    decide
  rw [tableLines, List.forall_mem_flatMap]
  intro e he
  rw [defineLines_eq, List.forall_mem_cons, List.forall_mem_map]
  exact ⟨lineFeed_notMem_defineLine (h e he) (isWord_toString _),
    fun f _ => lineFeed_notMem_defineLine (htype (h e he)) (isWord_cName f)⟩

theorem headerText_eq (c : Catalogue) (fonts : List CompiledFont) :
    ∃ before after : String, ∀ t : OffsetTable,
      headerText c t fonts = before ++ unlines (tableLines t.entries) ++ after := by
  have hunlines (ls ls' : List String) : unlines (ls ++ ls') = unlines ls ++ unlines ls' := by
    rw [← String.toList_inj, String.toList_append, toList_unlines, toList_unlines, toList_unlines,
      List.flatMap_append]
  refine ⟨unlines (licenseLines c ++ ["#pragma once", "", s!"#include \"{c.platformInclude}\"", "",
    s!"namespace {c.scope} \x7b", ""]),
    String.join (fonts.map fun f => s!"\n{f.font.comment}extern {f.array};\n") ++
      unlines (closingLines c), fun t => ?_⟩
  rw [headerText, hunlines, String.append_assoc]
  rfl

/-- If the generated headers are equal, so are the offset tables: each name, with its offset and
its format or the absence of one, in the same order. -/
theorem entries_eq_of_headerText {c : Catalogue} {fonts : List CompiledFont} {t t' : OffsetTable}
    (ht : ∀ name ∈ t.names, IsWord name.toList) (ht' : ∀ name ∈ t'.names, IsWord name.toList)
    (h : headerText c t fonts = headerText c t' fonts) : t.entries = t'.entries := by
  have hlines {t : OffsetTable} (ht : ∀ name ∈ t.names, IsWord name.toList) :
      ∀ l ∈ tableLines t.entries, '\n' ∉ l.toList :=
    lineFeed_notMem_tableLines fun e he =>
      (ht e.1 (List.mem_map_of_mem he)).notMem (by decide : isWordChar '\n' = false)
  obtain ⟨before, after, htext⟩ := headerText_eq c fonts
  rw [htext, htext, String.append_left_inj, String.append_right_inj] at h
  exact tableLines_injective (eq_of_unlines_eq (hlines ht) (hlines ht') h)

/-- Names that other names start with. One table is recorded in two ways; in another one a value
that is a type is an offset. -/
theorem entries_eq_of_headerText_type :
    let c : Catalogue := { sourceDir := "d", families := [] }
    let t := OffsetTable.ofEntries [("A", ⟨0, some .u8⟩), ("A_TYPE", ⟨8, none⟩),
      ("A_TYPE_TYPE", ⟨10, some .i8⟩)]
    let again := OffsetTable.ofEntries [("A", ⟨1, none⟩), ("A_TYPE", ⟨8, none⟩),
      ("A", ⟨0, some .u8⟩), ("A_TYPE_TYPE", ⟨10, some .i8⟩)]
    let other := OffsetTable.ofEntries [("A", ⟨0, none⟩), ("A_TYPE", ⟨8, none⟩),
      ("A_TYPE_TYPE", ⟨10, some .i8⟩)]
    (∀ name ∈ t.names, IsWord name.toList) ∧ headerText c t [] = headerText c again [] ∧
      t.entries = again.entries ∧ headerText c t [] ≠ headerText c other [] := by
  intro c t again other
  have ht : ∀ name ∈ t.names, IsWord name.toList := by decide
  have hagain : ∀ name ∈ again.names, IsWord name.toList := by decide
  have hother : ∀ name ∈ other.names, IsWord name.toList := by decide
  have hheader : headerText c t [] = headerText c again [] := by decide +kernel
  exact ⟨ht, hheader, entries_eq_of_headerText ht hagain hheader, fun h =>
    absurd (entries_eq_of_headerText ht hother h) (by decide)⟩

end PixelFont.GeneratedCode
