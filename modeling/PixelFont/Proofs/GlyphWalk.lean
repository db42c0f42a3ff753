import PixelFont.FontView
import PixelFont.Proofs.GlyphView
import Mathlib.Data.List.Forall2

/-!
The walk over glyph records. Main statements: `items_flatten`, by which the walk over records one
after another meets each of them, and `decode_items_iff`, by which a walk is decoded without a fault
exactly if the data is such a sequence.
-/

set_option autoImplicit false

namespace PixelFont

namespace GlyphWalk

def views (t : OffsetTable) (p : Nat) : List (List UInt8) → List GlyphView
  | [] => []
  | record :: records => ⟨⟨p, record⟩, t⟩ :: views t (p + record.length) records

theorem items_of_none {w : GlyphWalk} (h : w.next? = none) : items w = [] := by
  rw [items]
  simp only [h]

theorem items_of_fault {w after : GlyphWalk} {e : ReadFault}
    (h : w.next? = some (.error e, after)) : items w = [.error e] := by
  rw [items]
  simp only [h]

theorem items_of_record {w after : GlyphWalk} {g : GlyphView}
    (h : w.next? = some (.ok g, after)) (hlt : after.rest.length < w.rest.length) :
    items w = .ok g :: items after := by
  rw [items]
  simp only [h, hlt, dite_true]

theorem items_nil (p : Nat) (t : OffsetTable) : items ⟨⟨p, []⟩, t, false⟩ = [] :=
  items_of_none rfl

theorem items_of_error {p : Nat} {bs : List UInt8} {t : OffsetTable} {e : ReadFault}
    (hne : bs ≠ []) (h : GlyphView.ofHead ⟨p, bs⟩ t = .error e) :
    items ⟨⟨p, bs⟩, t, false⟩ = [.error e] :=
  items_of_fault (show next? _ = some (.error e, ⟨⟨p, bs⟩, t, true⟩) by simp [next?, hne, h])

theorem exists_of_mapM_bind {α β ε : Type} {items : List (Except ε α)} {f : α → Except ε β}
    {out : List β} (h : (items.mapM fun item => item.bind f) = .ok out) :
    ∃ as : List α, items = as.map .ok ∧ List.Forall₂ (fun a b => f a = .ok b) as out := by
  rw [mapM_eq_ok_iff] at h
  induction h with
  | nil => exact ⟨[], rfl, .nil⟩
  | @cons item b items out hb _ ih =>
    obtain ⟨as, rfl, has⟩ := ih
    cases item with
    | error e => cases hb
    | ok a => exact ⟨a :: as, rfl, .cons hb has⟩

theorem whole_of_recorded {gs : List Glyph} {records : List (List UInt8)}
    (h : List.Forall₂ Glyph.Recorded gs records) : ∀ r ∈ records, Glyph.Whole r := by
  induction h with
  | nil => exact List.forall_mem_nil _
  | cons hg _ ih => exact List.forall_mem_cons.mpr ⟨hg.whole, ih⟩

section Standard

variable {t : OffsetTable} (ht : ∀ n ∈ Glyph.notes, t.Has n)
include ht

theorem items_append {record : List UInt8} (hw : Glyph.Whole record) (p : Nat)
    (rest : List UInt8) :
    items ⟨⟨p, record ++ rest⟩, t, false⟩ =
      .ok ⟨⟨p, record⟩, t⟩ :: items ⟨⟨p + record.length, rest⟩, t, false⟩ := by
  have hpos : 0 < record.length := Nat.lt_of_lt_of_le (by decide) hw.head
  have hhead : GlyphView.ofHead ⟨p, record ++ rest⟩ t = .ok ⟨⟨p, record⟩, t⟩ :=
    (GlyphView.ofHead_eq_ok_iff ht).mpr ⟨record, rest, rfl, hw, rfl⟩
  have hne : record ≠ [] := List.ne_nil_of_length_pos hpos
  have hafter : View.after? ⟨p, record ++ rest⟩ record.length =
      some ⟨p + record.length, rest⟩ := by
    rw [View.after?_eq, if_pos (by simp [View.length]), List.drop_left]
  have hnext : next? ⟨⟨p, record ++ rest⟩, t, false⟩ =
      some (.ok ⟨⟨p, record⟩, t⟩, ⟨⟨p + record.length, rest⟩, t, false⟩) := by
    simp [next?, hne, hhead, GlyphView.length, View.length, hafter]
  exact items_of_record hnext (by simp [View.length, hpos])

theorem items_flatten {records : List (List UInt8)} (hw : ∀ r ∈ records, Glyph.Whole r) (p : Nat) :
    items ⟨⟨p, records.flatten⟩, t, false⟩ = (views t p records).map .ok := by
  induction records generalizing p with
  | nil => exact items_nil p t
  | cons record records ih =>
    have ih := ih (fun r hr => hw r (List.mem_cons_of_mem _ hr)) (p + record.length)
    rw [List.flatten_cons, items_append ht (hw record List.mem_cons_self), ih]
    rfl

/-- A walk that meets no fault has divided the data into records. -/
theorem exists_records (p : Nat) (bs : List UInt8)
    (h : ∀ item ∈ items ⟨⟨p, bs⟩, t, false⟩, ∃ g, item = .ok g) :
    ∃ records : List (List UInt8), bs = records.flatten ∧ ∀ r ∈ records, Glyph.Whole r := by
  by_cases hne : bs = []
  · exact ⟨[], hne, List.forall_mem_nil _⟩
  cases hh : GlyphView.ofHead ⟨p, bs⟩ t with
  | error e =>
    rw [items_of_error hne hh] at h
    obtain ⟨g, hg⟩ := h _ List.mem_cons_self
    cases hg
  | ok r =>
    -- no record is empty, so the walk goes on with less data
    obtain ⟨record, rest, hsplit, hw, rfl⟩ := (GlyphView.ofHead_eq_ok_iff ht).mp hh
    have hpos : 0 < record.length := Nat.lt_of_lt_of_le (by decide) hw.head
    have hlt : rest.length < bs.length := by
      rw [hsplit, List.length_append]
      omega
    rw [hsplit, items_append ht hw] at h
    obtain ⟨records, hr, hws⟩ := exists_records (p + record.length) rest
      fun item hi => h item (List.mem_cons_of_mem _ hi)
    refine ⟨record :: records, ?_, List.forall_mem_cons.mpr ⟨hw, hws⟩⟩
    rw [hsplit, hr, List.flatten_cons]
  termination_by bs.length

theorem decode_views_iff {records : List (List UInt8)} (hw : ∀ r ∈ records, Glyph.Whole r) (p : Nat)
    (gs : List Glyph) :
    (views t p records).mapM GlyphView.decode = .ok gs ↔
      List.Forall₂ Glyph.Recorded gs records := by
  induction records generalizing p gs with
  | nil =>
    rw [List.forall₂_nil_right_iff]
    constructor
    · exact fun h => (Except.ok.inj h).symm
    · rintro rfl
      rfl
  | cons record records ih =>
    have hd := fun g => GlyphView.decode_eq_ok_iff ht (p := p) (hw record (by simp)) (g := g)
    have ih := ih (fun r hr => hw r (List.mem_cons_of_mem _ hr)) (p + record.length)
    rw [views, List.mapM_cons, List.forall₂_cons_right_iff]
    simp only [bind_eq_ok_iff, hd, ih]
    constructor
    · rintro ⟨g, hg, gs', hgs, he⟩
      exact ⟨g, gs', hg, hgs, (Except.ok.inj he).symm⟩
    · rintro ⟨g, gs', hg, hgs, rfl⟩
      exact ⟨g, hg, gs', hgs, rfl⟩

theorem decode_items_iff (p : Nat) (bs : List UInt8) (gs : List Glyph) :
    ((items ⟨⟨p, bs⟩, t, false⟩).mapM fun item => item.bind GlyphView.decode) = .ok gs ↔
      ∃ records : List (List UInt8), bs = records.flatten ∧
        List.Forall₂ Glyph.Recorded gs records := by
  have hmap : ∀ {records : List (List UInt8)}, (∀ r ∈ records, Glyph.Whole r) →
      (((items ⟨⟨p, records.flatten⟩, t, false⟩).mapM fun item => item.bind GlyphView.decode) =
        .ok gs ↔ List.Forall₂ Glyph.Recorded gs records) := by
    intro records hw
    rw [items_flatten ht hw, List.mapM_map]
    exact decode_views_iff ht hw p gs
  constructor
  · intro h
    obtain ⟨as, has, -⟩ := exists_of_mapM_bind h
    obtain ⟨records, rfl, hw⟩ := exists_records ht p bs (by simp [has])
    exact ⟨records, rfl, (hmap hw).mp h⟩
  · rintro ⟨records, rfl, hr⟩
    exact (hmap (whole_of_recorded hr)).mpr hr

end Standard

end GlyphWalk
end PixelFont
