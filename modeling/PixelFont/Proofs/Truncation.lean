import PixelFont.Proofs.FontView

set_option autoImplicit false

namespace PixelFont

open FieldValue

/-- The glyphs with the places where their records end, when the first starts at `start`. -/
def Glyph.ends (start : Nat) : List Glyph → List (Glyph × Nat)
  | [] => []
  | g :: gs => (g, start + g.recordLength) :: ends (start + g.recordLength) gs

def Glyph.bounds (start : Nat) (gs : List Glyph) : List Nat := start :: (ends start gs).map Prod.snd

theorem Glyph.bounds_cons (start : Nat) (g : Glyph) (gs : List Glyph) :
    bounds start (g :: gs) = start :: bounds (start + g.recordLength) gs := rfl

def Font.ends (f : Font) : List (Glyph × Nat) := Glyph.ends FontHeader.length f.glyphs

def Font.bounds (f : Font) : List Nat := Glyph.bounds FontHeader.length f.glyphs

theorem Glyph.le_of_mem_ends {start : Nat} {gs : List Glyph} :
    ∀ e ∈ Glyph.ends start gs, start ≤ e.2 := by
  induction gs generalizing start with
  | nil => simp [ends]
  | cons g gs ih =>
    refine List.forall_mem_cons.mpr ⟨by simp, fun e he => ?_⟩
    have h := ih e he
    omega

theorem Glyph.lt_of_mem_ends {start n : Nat} {g : Glyph} {gs : List Glyph}
    (hn : n < g.recordLength) : ∀ e ∈ Glyph.ends start (g :: gs), start + n < e.2 := by
  refine List.forall_mem_cons.mpr ⟨Nat.add_lt_add_left hn _, fun e he => ?_⟩
  have hle := le_of_mem_ends e he
  omega

theorem Glyph.add_mem_bounds_iff {start n : Nat} {g : Glyph} {gs : List Glyph}
    (hn : n < g.recordLength) : start + n ∈ Glyph.bounds start (g :: gs) ↔ n = 0 := by
  have hends : start + n ∉ (Glyph.ends start (g :: gs)).map Prod.snd := by
    intro hmem
    obtain ⟨e, he, heq⟩ := List.mem_map.mp hmem
    have hlt := lt_of_mem_ends hn e he
    omega
  simp [bounds, hends]

section Standard

variable {t : OffsetTable} (ht : ∀ n ∈ Glyph.notes, t.Has n)
include ht

theorem GlyphView.ofHead_take {record : List UInt8} (hw : Glyph.Whole record) {n : Nat}
    (hn : n < record.length) (p : Nat) :
    ofHead ⟨p, record.take n⟩ t = .error .outOfBounds := by
  have hword := hw.toNat_length
  have hfield : View.field ⟨p, record⟩ t GlyphField.bytes = .ok (record.length : Int) :=
    (field_bytes_eq_ok_iff ht).mpr ⟨hw.holds, hw.spelled⟩
  -- either the length field is cut off, or it tells of more bytes than are left
  cases View.field_take hfield (n := n) with
  | inl h =>
    have hu : View.unsigned ⟨p, record.take n⟩ t GlyphField.bytes =
        .ok (UInt32.ofNat record.length) := by
      rw [View.unsigned_eq_ok_iff, hword]
      exact h
    have hm : t.markAt GlyphField.bitmap = .ok Glyph.headLength :=
      OffsetTable.markAt_of_has (has_bitmap ht)
    have hcut : ¬ record.length ≤ min n record.length := by omega
    simp [ofHead, hu, hm, bind, Except.bind, View.slice?_unbounded_excluded, View.length, hword,
      Nat.not_lt.mpr hw.head, hcut]
  | inr h =>
    have hu : View.unsigned ⟨p, record.take n⟩ t GlyphField.bytes = .error .outOfBounds := by
      simp [View.unsigned, h, bind, Except.bind]
    simp [ofHead, hu, bind, Except.bind]

theorem GlyphWalk.items_take {record : List UInt8} (hw : Glyph.Whole record) {n : Nat}
    (hn : n < record.length) (p : Nat) :
    items ⟨⟨p, record.take n⟩, t, false⟩ = if n = 0 then [] else [.error .outOfBounds] := by
  by_cases hzero : n = 0
  · simp [hzero, items_nil]
  · have hne : record.take n ≠ [] := List.ne_nil_of_length_pos (by rw [List.length_take]; omega)
    rw [if_neg hzero, items_of_error hne (GlyphView.ofHead_take ht hw hn p)]

theorem GlyphWalk.exists_items_take {gs : List Glyph} (hg : ∀ g ∈ gs, g.Fits) (start : Nat)
    {n : Nat} (hn : n < (Font.records gs).length) :
    ∃ records, items ⟨⟨start, (Font.records gs).take n⟩, t, false⟩ = records.map .ok ++
        (if start + n ∈ Glyph.bounds start gs then [] else [.error .outOfBounds]) ∧
      List.Forall₂ (fun r e => r.decode = .ok e.1 ∧ r.position + r.length = e.2) records
        ((Glyph.ends start gs).filter fun e => e.2 ≤ start + n) := by
  induction gs generalizing start n with
  | nil => simp [Font.records] at hn
  | cons g gs ih =>
    obtain ⟨hfits, hrest⟩ := List.forall_mem_cons.mp hg
    have hr := hfits.recorded
    have hl := hfits.record_length
    rw [Font.records, List.flatMap_cons, ← Font.records] at hn ⊢
    by_cases hcut : n < g.recordLength
    · have hnone : (Glyph.ends start (g :: gs)).filter (fun e => e.2 ≤ start + n) = [] :=
        List.filter_eq_nil_iff.mpr fun e he => by simpa using Glyph.lt_of_mem_ends hcut e he
      have hitems := items_take ht hr.whole (n := n) (by omega) start
      refine ⟨[], ?_, by rw [hnone]; exact .nil⟩
      rw [List.take_append_of_le_length (by omega), hitems]
      simp only [Glyph.add_mem_bounds_iff hcut, List.map_nil, List.nil_append]
    · obtain ⟨m, rfl⟩ := Nat.exists_eq_add_of_le (Nat.le_of_not_lt hcut)
      rw [List.length_append] at hn
      obtain ⟨records, hitems, hreads⟩ :=
        ih hrest (start + g.recordLength) (n := m) (by omega)
      rw [Nat.add_assoc] at hitems hreads
      refine ⟨⟨⟨start, g.record⟩, t⟩ :: records, ?_, ?_⟩
      · have hhead := hr.head
        have hne : g.recordLength ≠ 0 := by
          unfold Glyph.headLength at hhead
          omega
        rw [← hl, List.take_length_add_append, items_append ht hr.whole, hl, hitems]
        simp [Glyph.bounds_cons, hne]
      · have hdecode := (GlyphView.decode_eq_ok_iff ht hr.whole (p := start)).mpr hr
        rw [Glyph.ends, List.filter_cons_of_pos (by simp)]
        exact .cons ⟨hdecode, congrArg (start + ·) hl⟩ hreads

end Standard

namespace Font

/-- Of compiled data that has been cut off, nothing is read if the cut is in the header. Otherwise
the glyphs are read whose records are left whole, and then a part of a record is an error. -/
theorem decode_cut {f : Font} {t : OffsetTable} {bytes : List UInt8}
    (h : (f.compile t).result = .ok bytes) {n : Nat} (hn : n < bytes.length) :
    (n < FontHeader.length →
      FontView.ofBytes (bytes.take n) (f.compile t).table = .error .outOfBounds) ∧
    (FontHeader.length ≤ n → ∃ v records,
      FontView.ofBytes (bytes.take n) (f.compile t).table = .ok v ∧
      v.glyphs = records.map .ok ++
        (if n ∈ f.bounds then [] else [.error .outOfBounds]) ∧
      List.Forall₂ (fun r e => r.decode = .ok e.1 ∧ r.position + r.length = e.2) records
        (f.ends.filter fun e => e.2 ≤ n)) := by
  obtain ⟨hf, rfl⟩ := fits_of_compile h
  have hhas := table_compile_has hf t
  have hh : ∀ n ∈ FontHeader.notes, (f.compile t).table.Has n := fun n hn =>
    hhas n (mem_notes_of_header hn)
  constructor
  · intro hlt
    have hcut : min n f.payload.length < FontHeader.length := by omega
    simp [FontView.ofBytes, FontView.markAt_firstGlyph hh, bind, Except.bind, hcut]
  · intro hle
    obtain ⟨m, rfl⟩ := Nat.exists_eq_add_of_le hle
    have hlength := f.length_payload
    have hcut : FontHeader.length ≤ (f.payload.take (FontHeader.length + m)).length := by
      rw [List.length_take]
      omega
    have hg : f.glyphs ≠ [] := by
      intro hnil
      rw [hlength, hnil, records, List.flatMap_nil, List.length_nil] at hn
      omega
    have hdrop : (f.payload.take (FontHeader.length + m)).drop FontHeader.length =
        (records f.glyphs).take m := by
      rw [payload, ← f.header.length_spelled, List.take_length_add_append, List.drop_left]
    have hrecord : ∀ n ∈ Glyph.notes, (f.compile t).table.Has n := fun n hn =>
      hhas n (mem_notes_of_glyph hg hn)
    obtain ⟨rs, hitems, hreads⟩ :=
      GlyphWalk.exists_items_take hrecord hf.glyphs FontHeader.length (n := m) (by omega)
    refine ⟨_, rs, (FontView.ofBytes_eq_ok_iff hh).mpr ⟨hcut, rfl⟩, ?_, hreads⟩
    rw [FontView.glyphs_eq hcut, hdrop, hitems]
    rfl

theorem decode_cut_record :
    let f : Font := { header := { size := 3 },
                      glyphs := [{}, { box := ⟨3, 3, -1, 0⟩, rows := .unpack 3 3 [182, 128] }] }
    let c := f.compile .empty
    ∃ bytes, c.result = .ok bytes ∧ bytes.length = 31 ∧ ∃ v record,
      FontView.ofBytes (bytes.take 30) c.table = .ok v ∧
        v.glyphs = [.ok record, .error .outOfBounds] ∧ record.decode = .ok {} ∧
        record.position + record.length = 19 := by
  intro f c
  have h : c.result = .ok [3, 0, 0, 0, 0, 0, 0, 0, 0, 0, 0, 0, 10, 0, 0, 0, 0, 0, 0,
      0, 0, 0, 12, 0, 0, 3, 3, 255, 0, 182, 128] := by
    decide +kernel
  have hends : (f.ends.filter fun e => e.2 ≤ 30) = [({}, 19)] := by decide +kernel
  obtain ⟨v, records, hv, hglyphs, hreads⟩ := (decode_cut h (n := 30) (by decide)).2 (by decide)
  rw [if_neg (by decide +kernel)] at hglyphs
  rw [hends] at hreads
  cases hreads with
  | @cons record _ records _ hr hrest =>
    cases hrest
    exact ⟨_, h, rfl, v, record, hv, hglyphs, hr⟩

end Font
end PixelFont
