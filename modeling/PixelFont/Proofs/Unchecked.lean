import PixelFont.Proofs.Payload

set_option autoImplicit false

namespace PixelFont

open FieldValue

namespace Glyph

def lengthField (g : Glyph) : FieldValue := ⟨GlyphField.bytes, .u16, g.writtenLength⟩

theorem writtenLength_eq (g : Glyph) :
    g.writtenLength = headLength + bytesFor (g.rows.map List.length).sum := by
  rw [writtenLength, Bitmap.pack, length_packBits, List.length_flatten]

theorem fit_metrics_length (g : Glyph) :
    Fit (g.metrics ++ [g.lengthField]) ↔ Fit (g.fields g.writtenLength) := by
  have hc := g.fit_codeField
  simp only [Fit, codeField, fields, lengthField, List.forall_mem_append, List.forall_mem_cons]
    at hc ⊢
  tauto

theorem fault?_lengthField {g : Glyph} (h : 65535 < g.writtenLength) :
    g.lengthField.faultOf? = some ⟨GlyphField.bytes, .outOfRange g.writtenLength .u16⟩ := by
  have hs : IntFormat.supported IntFormat.u16.bytes = true := rfl
  have ha : IntFormat.u16.admits g.writtenLength = false := by
    rw [Bool.eq_false_iff]
    intro ha
    have hn : g.writtenLength ≤ 65535 := (IntFormat.holds_natCast .u16 rfl rfl _).mp ⟨hs, ha⟩
    omega
  simp [faultOf?, lengthField, IntFormat.encode_of_not_admits hs ha]

theorem run_plan_of_fault {g : Glyph} {e : EncodeFault}
    (h : fault? (g.metrics ++ [g.lengthField]) = some e) :
    (g.plan.run #v[] {}).1 = .error e := by
  rw [fault?, List.findSome?_append, ← fault?] at h
  cases hm : fault? g.metrics with
  | some e' =>
    rw [hm] at h
    cases h
    show ((Plan.fields g.codeField (.reserve GlyphField.bytes .u16 (.fields g.metrics
      _))).run #v[] {}).1 = _
    rw [Plan.run_fields g.fit_codeField _ _ (Nat.zero_le _), Plan.run]
    exact Plan.run_fields_of_fault hm _ _ _
  | none =>
    rw [hm, Option.none_or, List.findSome?_singleton] at h
    obtain ⟨cause, hcause, rfl⟩ := faultOf?_eq_some_iff.mp h
    rw [run_plan_draft (fault?_eq_none_iff.mp hm)]
    have hhole : #v[(⟨GlyphField.bytes, 2, .u16⟩ : Hole)].get 0 = ⟨GlyphField.bytes, 2, .u16⟩ := rfl
    exact Plan.run_fill_of_fault hhole hcause .done g.draft

/-- The fields decide in the order in which they get their values, so the length comes last. -/
theorem outcome_write_plan (g : Glyph) (b : Buffer) :
    (g.plan.write b).1 =
      match fault? (g.metrics ++ [g.lengthField]) with
      | none => .ok g.writtenLength
      | some e => .error e := by
  cases h : fault? (g.metrics ++ [g.lengthField]) with
  | none =>
    rw [Plan.write_eq, write_plan (g.fit_metrics_length.mp (fault?_eq_none_iff.mp h))]
  | some e => exact Plan.outcome_write_of_error (run_plan_of_fault h) b

section Written

variable {g : Glyph} (h : Fit (g.fields g.writtenLength))
include h

theorem write_plan_after (b : Buffer) :
    g.plan.write b = (.ok g.writtenLength,
      ⟨b.bytes ++ g.record.toArray, b.start, b.notes ++ notes.toArray⟩) := by
  rw [Plan.write_eq, write_plan h]
  rfl

theorem whole_record : Whole g.record where
  head := by
    rw [length_record, writtenLength]
    omega
  holds := by
    rw [length_record]
    exact h g.lengthField (by simp [fields, lengthField])
  spelled := by
    rw [length_record]
    rfl

theorem ofHead_record {t : OffsetTable} (ht : ∀ n ∈ notes, t.Has n) (p : Nat)
    (rest : List UInt8) :
    GlyphView.ofHead ⟨p, g.record ++ rest⟩ t = .ok ⟨⟨p, g.record⟩, t⟩ :=
  (GlyphView.ofHead_eq_ok_iff ht).mpr ⟨g.record, rest, rfl, whole_record h, rfl⟩

end Written

/-- Rows of any lengths are written if and only if the other values fit their fields and the record
is not too long for its length field. The record is then as long as it says, and found where it was
written, by the table as it is right after it, whatever follows. A record that is only too long
fails at its length. -/
theorem write_unchecked (g : Glyph) (b : Buffer) (t : OffsetTable) :
    let length := headLength + bytesFor (g.rows.map List.length).sum
    let outcome := (g.plan.write b).1
    let after := (g.plan.write b).2
    ((∃ n, outcome = .ok n) ↔ g.advance.Fits ∧ g.box.Fits ∧ length ≤ 65535) ∧
      (∀ n, outcome = .ok n → n = length ∧ ∃ record : List UInt8, record.length = length ∧
        after.bytes.toList = b.bytes.toList ++ record ∧
        ofBigEndian ((record.drop 2).take 2) = length ∧
        ∀ rest, ∃ v r, View.after? ⟨0, after.bytes.toList ++ rest⟩ b.bytes.size = some v ∧
          GlyphView.ofHead v (t.recordAll after.notes.toList) = .ok r ∧
          r.position = b.bytes.size ∧ r.length = length ∧ r.view.bytes = record) ∧
      (g.advance.Fits → g.box.Fits → 65535 < length →
        outcome = .error ⟨GlyphField.bytes, .outOfRange length .u16⟩) := by
  rw [← writtenLength_eq]
  intro length outcome after
  have hok : (∃ n, outcome = .ok n) ↔ Fit (g.fields length) := by
    rw [← fit_metrics_length, ← fault?_eq_none_iff, show outcome = _ from g.outcome_write_plan b]
    cases fault? (g.metrics ++ [g.lengthField]) <;> simp
  refine ⟨hok.trans (g.fit_fields length), ?_, ?_⟩
  · intro n hn
    have hfit : Fit (g.fields length) := hok.mp ⟨n, hn⟩
    have hwrite := write_plan_after hfit b
    have hbytes : after.bytes.toList = b.bytes.toList ++ g.record := by
      simp [after, hwrite]
    have htable : ∀ m ∈ notes, (t.recordAll after.notes.toList).Has m := by
      intro m hm
      have hnotes : after.notes.toList = b.notes.toList ++ notes := by simp [after, hwrite]
      rw [hnotes, OffsetTable.recordAll_append]
      exact OffsetTable.recordAll_has (fun _ h => standard_has (List.mem_append_right _ h)) _ hm
    have hwhole := whole_record hfit
    have hn' : n = length := by
      have h : outcome = .ok length := congrArg Prod.fst hwrite
      exact Except.ok.inj (hn.symm.trans h)
    refine ⟨hn', g.record, g.length_record, hbytes, ?_, fun rest => ?_⟩
    · rw [hwhole.spelled, IntFormat.ofBigEndian_spell_u16 hwhole.holds, length_record]
    · have hafter : View.after? ⟨0, after.bytes.toList ++ rest⟩ b.bytes.size =
          some ⟨b.bytes.size, g.record ++ rest⟩ := by
        rw [View.after?_eq, if_pos (by simp [View.length, hbytes]), hbytes, List.append_assoc,
          List.drop_left' (Array.length_toList ..), Nat.zero_add]
      exact ⟨_, _, hafter, ofHead_record hfit htable b.bytes.size rest, rfl, g.length_record, rfl⟩
  · intro ha hb hl
    have hm : fault? g.metrics = none := by
      refine fault?_eq_none_iff.mpr fun f hf => ?_
      exact (g.fit_fields 0).mpr ⟨ha, hb, Nat.zero_le _⟩ f (by simp [fields, hf])
    have hfault : fault? (g.metrics ++ [g.lengthField]) =
        some ⟨GlyphField.bytes, .outOfRange length .u16⟩ := by
      rw [fault?, List.findSome?_append, ← fault?, hm, Option.none_or, List.findSome?_singleton,
        fault?_lengthField hl]
    exact (g.outcome_write_plan b).trans (by rw [hfault])

theorem write_unchecked_ragged :
    let g : Glyph := { advance := ⟨255, 0⟩, box := ⟨200, 1, 127, -128⟩
                       rows := [[true], [], [false, true, true, false, false, false, true, true]] }
    let b : Buffer := ⟨#[7, 8], 1, #[⟨GlyphField.bytes, 5, none⟩]⟩
    let t := OffsetTable.ofEntries [(GlyphField.bitmap, ⟨3, some .u8⟩)]
    let after := (g.plan.write b).2
    let long : Glyph := { rows := [List.replicate 524201 true] }
    (g.plan.write b).1 = .ok 12 ∧
      (∃ record : List UInt8, record.length = 12 ∧ after.bytes.toList = [7, 8] ++ record ∧
        ofBigEndian ((record.drop 2).take 2) = 12 ∧
        ∃ v r, View.after? ⟨0, after.bytes.toList ++ [9]⟩ 2 = some v ∧
          GlyphView.ofHead v (t.recordAll after.notes.toList) = .ok r ∧
          r.position = 2 ∧ r.length = 12 ∧ r.view.bytes = record) ∧
      (long.plan.write b).1 = .error ⟨GlyphField.bytes, .outOfRange 65536 .u16⟩ := by
  intro g b t after long
  have hshort : headLength + bytesFor (g.rows.map List.length).sum = 12 := by decide
  have hrow (n : Nat) : ([List.replicate n true].map List.length).sum = n := by simp
  have hlong : headLength + bytesFor (long.rows.map List.length).sum = 65536 :=
    congrArg (headLength + bytesFor ·) (hrow 524201)
  obtain ⟨hiff, hread, -⟩ := write_unchecked g b t
  rw [hshort] at hiff hread
  obtain ⟨n, hn⟩ := hiff.mpr ⟨⟨by decide, by decide⟩,
    ⟨by decide, by decide, by decide, by decide⟩, by decide⟩
  obtain ⟨rfl, record, hlength, hbytes, hfield, hview⟩ := hread n hn
  obtain ⟨-, -, hfault⟩ := write_unchecked long b t
  rw [hlong] at hfault
  have hadvance : long.advance.Fits := ⟨by decide, by decide⟩
  have hbox : long.box.Fits := ⟨by decide, by decide, by decide, by decide⟩
  exact ⟨hn, ⟨record, hlength, hbytes, hfield, hview [9]⟩, hfault hadvance hbox (by decide)⟩

end Glyph
end PixelFont
