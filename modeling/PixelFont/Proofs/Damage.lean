import Mathlib.Algebra.Ring.Nat
import PixelFont.Proofs.Payload

/-!
Compiled data in which a record has been damaged. Main statement: `Font.damage_confined`. The walk
depends on nothing but the length fields, so as long as these are kept no other record is touched.
-/

set_option autoImplicit false

namespace PixelFont

open FieldValue

theorem exists_eq_append_of_getElem? {α : Type} {as bs cs ds : List α}
    (hl : ds.length = (as ++ (bs ++ cs)).length)
    (h : ∀ i, ds[i]? ≠ (as ++ (bs ++ cs))[i]? → as.length ≤ i ∧ i < as.length + bs.length) :
    ∃ bs', bs'.length = bs.length ∧ ds = as ++ (bs' ++ cs) := by
  have hkept {i : Nat} (hi : ¬ (as.length ≤ i ∧ i < as.length + bs.length)) :
      ds[i]? = (as ++ (bs ++ cs))[i]? := not_not.mp (mt (h i) hi)
  have has : ds.take as.length = as := by
    refine List.ext_getElem? fun i => ?_
    by_cases hi : i < as.length
    · rw [List.getElem?_take_of_lt hi, hkept (by omega), List.getElem?_append_left hi]
    · rw [List.getElem?_eq_none (by rw [List.length_take]; omega),
        List.getElem?_eq_none (by omega)]
  have hcs : ds.drop (as.length + bs.length) = cs := by
    refine List.ext_getElem? fun i => ?_
    rw [List.getElem?_drop, hkept (by omega), List.getElem?_append_right (by omega),
      List.getElem?_append_right (by omega)]
    congr 1
    omega
  refine ⟨(ds.drop as.length).take bs.length, ?_, ?_⟩
  · rw [List.length_take, List.length_drop, hl, List.length_append, List.length_append]
    omega
  · calc ds = ds.take as.length ++ ds.drop as.length := (List.take_append_drop _ _).symm
      _ = as ++ ((ds.drop as.length).take bs.length ++ (ds.drop as.length).drop bs.length) := by
        rw [has, List.take_append_drop]
      _ = as ++ ((ds.drop as.length).take bs.length ++ cs) := by rw [List.drop_drop, hcs]

theorem getElem?_append_cons_of_ne {α : Type} {as cs : List α} {j : Nat} (h : j ≠ as.length)
    (b b' : α) : (as ++ b :: cs)[j]? = (as ++ b' :: cs)[j]? := by
  obtain hlt | hgt := Nat.lt_or_gt_of_ne h
  · rw [List.getElem?_append_left hlt, List.getElem?_append_left hlt]
  · have hpos : j - as.length ≠ 0 := by omega
    rw [List.getElem?_append_right (Nat.le_of_lt hgt),
      List.getElem?_append_right (Nat.le_of_lt hgt), List.getElem?_cons, List.getElem?_cons,
      if_neg hpos, if_neg hpos]

theorem Glyph.Whole.of_lengthField {record record' : List UInt8} (h : Glyph.Whole record)
    (hl : record'.length = record.length)
    (hkept : (record'.drop 2).take 2 = (record.drop 2).take 2) : Glyph.Whole record' :=
  ⟨by rw [hl]; exact h.head, by rw [hl]; exact h.holds, by rw [hkept, hl]; exact h.spelled⟩

def GlyphView.extent (g : GlyphView) : Nat × Nat := (g.position, g.length)

namespace GlyphWalk

theorem getElem?_views (t : OffsetTable) (p : Nat) (records : List (List UInt8)) (j : Nat) :
    (views t p records)[j]? =
      records[j]?.map fun record => ⟨⟨p + ((records.take j).map List.length).sum, record⟩, t⟩ := by
  induction records generalizing p j with
  | nil => rfl
  | cons record records ih =>
    cases j with
    | zero => rfl
    | succ j =>
      rw [views, List.getElem?_cons_succ, ih, List.getElem?_cons_succ, List.take_succ_cons,
        List.map_cons, List.sum_cons, Nat.add_assoc]

/-- Where the records stand depends on how long they are, and on nothing else. -/
theorem extents_views (t : OffsetTable) (p : Nat) {records records' : List (List UInt8)}
    (h : records'.map List.length = records.map List.length) :
    (views t p records').map GlyphView.extent = (views t p records).map GlyphView.extent := by
  induction records generalizing p records' with
  | nil =>
    obtain rfl := List.map_eq_nil_iff.mp h
    rfl
  | cons record records ih =>
    cases records' with
    | nil => cases h
    | cons record' records' =>
      obtain ⟨hlength, hrest⟩ := List.cons.inj h
      rw [views, views, List.map_cons, List.map_cons, hlength, ih _ hrest]
      exact congrArg (· :: _) (Prod.ext rfl hlength)

theorem getElem?_views_congr (t : OffsetTable) (p : Nat) {records records' : List (List UInt8)}
    (h : records'.map List.length = records.map List.length) {j : Nat}
    (hj : records'[j]? = records[j]?) : (views t p records')[j]? = (views t p records)[j]? := by
  rw [getElem?_views, getElem?_views, hj, List.map_take, List.map_take, h]

theorem map_decode_views {t : OffsetTable} (ht : ∀ n ∈ Glyph.notes, t.Has n) (p : Nat)
    {gs : List Glyph} {records : List (List UInt8)} (h : List.Forall₂ Glyph.Recorded gs records) :
    (views t p records).map GlyphView.decode = gs.map .ok := by
  have hdecode := (decode_views_iff ht (whole_of_recorded h) p gs).mpr h
  rw [mapM_eq_ok_iff] at hdecode
  rwa [← List.forall₂_eq_eq_eq, List.forall₂_map_left_iff, List.forall₂_map_right_iff]

end GlyphWalk

theorem FontView.exists_views {t : OffsetTable}
    (ht : ∀ n ∈ FontHeader.notes ++ Glyph.notes, t.Has n) {header : FontHeader} (hh : header.Fits)
    {records : List (List UInt8)} (hr : ∀ r ∈ records, Glyph.Whole r) :
    ∃ v, ofBytes (spell header.fields ++ records.flatten) t = .ok v ∧ v.header = .ok header ∧
      v.glyphs = (GlyphWalk.views t FontHeader.length records).map .ok := by
  have hheader : ∀ n ∈ FontHeader.notes, t.Has n := fun n hn => ht n (List.mem_append_left _ hn)
  have hglyph : ∀ n ∈ Glyph.notes, t.Has n := fun n hn => ht n (List.mem_append_right _ hn)
  have hlength := header.length_spelled
  have hle : FontHeader.length ≤ (spell header.fields ++ records.flatten).length := by
    rw [List.length_append, hlength]
    exact Nat.le_add_right _ _
  refine ⟨_, (ofBytes_eq_ok_iff hheader).mpr ⟨hle, rfl⟩, ?_, ?_⟩
  · rw [header_eq_ok_iff hheader, ← hlength, List.take_left]
    exact ⟨hh, rfl⟩
  · rw [glyphs_eq hle, ← hlength, List.drop_left]
    exact GlyphWalk.items_flatten hglyph hr _

namespace Font

def recordStart (f : Font) (k : Nat) : Nat :=
  FontHeader.length + ((f.glyphs.take k).map Glyph.recordLength).sum

/-- Some bytes of the record of the `k`-th glyph have changed, but not those of its length. -/
structure DamagedAt (f : Font) (k : Nat) (bytes damaged : List UInt8) : Prop where
  length : damaged.length = bytes.length
  within : ∀ i, damaged[i]? ≠ bytes[i]? → f.recordStart k ≤ i ∧ i < f.recordStart (k + 1) ∧
    ¬ (f.recordStart k + 2 ≤ i ∧ i < f.recordStart k + 4)

variable {f : Font} {k : Nat} {bytes damaged : List UInt8}

instance : Decidable (f.DamagedAt k bytes damaged) :=
  decidable_of_iff
    (damaged.length = bytes.length ∧ ∀ i < bytes.length, damaged[i]? ≠ bytes[i]? →
      f.recordStart k ≤ i ∧ i < f.recordStart (k + 1) ∧
        ¬ (f.recordStart k + 2 ≤ i ∧ i < f.recordStart k + 4))
    (by
      constructor
      · rintro ⟨hl, h⟩
        refine ⟨hl, fun i hi => h i (Nat.lt_of_not_le fun hle => hi ?_) hi⟩
        rw [List.getElem?_eq_none hle, List.getElem?_eq_none (hl ▸ hle)]
      · exact fun h => ⟨h.length, fun i _ => h.within i⟩)

theorem Fits.map_position_views (hf : f.Fits) (t : OffsetTable) :
    (GlyphWalk.views t FontHeader.length (f.glyphs.map Glyph.record)).map GlyphView.position =
      (List.range f.glyphs.length).map f.recordStart := by
  have hlengths : (f.glyphs.map Glyph.record).map List.length =
      f.glyphs.map Glyph.recordLength := by
    rw [List.map_map]
    exact List.map_congr_left fun g hg => (hf.glyphs g hg).record_length
  refine List.ext_getElem? fun j => ?_
  rw [List.getElem?_map, GlyphWalk.getElem?_views, List.map_take, hlengths, ← List.map_take,
    ← recordStart, List.getElem?_map]
  by_cases hj : j < f.glyphs.length
  · simp [hj, GlyphView.position]
  · simp [hj]

section Split

variable {before after : List Glyph} {g : Glyph}

theorem recordStart_of_split (h : f.glyphs = before ++ g :: after) :
    f.recordStart before.length = FontHeader.length + (before.map Glyph.recordLength).sum := by
  rw [recordStart, h, List.take_left]

theorem recordStart_succ_of_split (h : f.glyphs = before ++ g :: after) :
    f.recordStart (before.length + 1) = f.recordStart before.length + g.recordLength := by
  rw [recordStart_of_split h, recordStart, h, List.take_length_add_append]
  simp [Nat.add_assoc]

theorem DamagedAt.exists_record (hd : f.DamagedAt before.length f.payload damaged) (hf : f.Fits)
    (h : f.glyphs = before ++ g :: after) :
    ∃ record, record.length = g.record.length ∧ Glyph.Whole record ∧
      damaged = (spell f.header.fields ++ records before) ++ (record ++ records after) := by
  have hg : g.Fits := hf.glyphs g (by simp [h])
  have hpayload := payload_of_split h
  have hstart : (spell f.header.fields ++ records before).length = f.recordStart before.length := by
    rw [length_before_of_split hf h, recordStart_of_split h]
  obtain ⟨record, hlength, rfl⟩ := exists_eq_append_of_getElem? (hpayload ▸ hd.length)
      fun i hi => by
    rw [← hpayload] at hi
    obtain ⟨hle, hlt, -⟩ := hd.within i hi
    rw [recordStart_succ_of_split h, ← hg.record_length] at hlt
    rw [hstart]
    exact ⟨hle, hlt⟩
  refine ⟨record, hlength, hg.recorded.whole.of_lengthField hlength ?_, rfl⟩
  have hhead := hg.recorded.head
  unfold Glyph.headLength at hhead
  refine List.ext_getElem? fun i => ?_
  rw [List.getElem?_take, List.getElem?_take, List.getElem?_drop, List.getElem?_drop]
  split
  · next hi =>
    -- this byte is one of the length field, so it has not changed
    have hkept := not_not.mp (mt (hd.within (f.recordStart before.length + (2 + i))) (by omega))
    rw [hpayload, ← hstart, List.getElem?_append_right (Nat.le_add_right _ _),
      List.getElem?_append_right (Nat.le_add_right _ _), Nat.add_sub_cancel_left,
      List.getElem?_append_left (by omega), List.getElem?_append_left (by omega)] at hkept
    exact hkept
  · rfl

end Split

theorem DamagedAt.exists_records (hd : f.DamagedAt k f.payload damaged) (hf : f.Fits)
    (hk : k < f.glyphs.length) :
    ∃ records' : List (List UInt8), damaged = spell f.header.fields ++ records'.flatten ∧
      records'.map List.length = (f.glyphs.map Glyph.record).map List.length ∧
      (∀ r ∈ records', Glyph.Whole r) ∧
      ∀ j ≠ k, records'[j]? = (f.glyphs.map Glyph.record)[j]? := by
  obtain ⟨before, g, after, h, rfl⟩ :
      ∃ before g after, f.glyphs = before ++ g :: after ∧ before.length = k :=
    ⟨f.glyphs.take k, f.glyphs[k], f.glyphs.drop (k + 1), by simp,
      List.length_take_of_le (Nat.le_of_lt hk)⟩
  obtain ⟨record, hlength, hrecord, rfl⟩ := hd.exists_record hf h
  have hwhole := GlyphWalk.whole_of_recorded (recorded_records hf.glyphs)
  rw [h, List.map_append, List.map_cons, List.forall_mem_append, List.forall_mem_cons] at hwhole
  refine ⟨before.map Glyph.record ++ record :: after.map Glyph.record, ?_, ?_, ?_, fun j hj => ?_⟩
  · simp [records, List.flatMap_def]
  · simp [h, hlength]
  · exact List.forall_mem_append.mpr ⟨hwhole.1, List.forall_mem_cons.mpr ⟨hrecord, hwhole.2.2⟩⟩
  · rw [h, List.map_append, List.map_cons]
    exact getElem?_append_cons_of_ne (by rwa [List.length_map]) _ _

/-- Damage to a record stays in it. If any of its bytes but those of its length have changed, the
header is read as before and the walk meets as many records at the same places, and no fault. The
other records are the same ones, and stand for the same glyphs. -/
theorem damage_confined {t : OffsetTable} (h : (f.compile t).result = .ok bytes)
    (hk : k < f.glyphs.length) (hd : f.DamagedAt k bytes damaged) :
    ∃ (v w : FontView) (records records' : List GlyphView),
      FontView.ofBytes bytes (f.compile t).table = .ok v ∧
      FontView.ofBytes damaged (f.compile t).table = .ok w ∧
      v.header = .ok f.header ∧ w.header = .ok f.header ∧
      v.glyphs = records.map .ok ∧ w.glyphs = records'.map .ok ∧
      records.map GlyphView.position = (List.range f.glyphs.length).map f.recordStart ∧
      records'.map GlyphView.extent = records.map GlyphView.extent ∧
      records.map GlyphView.decode = f.glyphs.map .ok ∧
      ∀ j ≠ k, records'[j]? = records[j]? ∧
        records'[j]?.map GlyphView.decode = f.glyphs[j]?.map .ok := by
  obtain ⟨hf, rfl⟩ := fits_of_compile h
  have ht : ∀ n ∈ FontHeader.notes ++ Glyph.notes, (f.compile t).table.Has n := by
    have hhas := table_compile_has hf t
    refine List.forall_mem_append.mpr ⟨fun n hn => hhas n (mem_notes_of_header hn), fun n hn => ?_⟩
    exact hhas n (mem_notes_of_glyph (List.ne_nil_of_length_pos (by omega)) hn)
  have hglyph : ∀ n ∈ Glyph.notes, (f.compile t).table.Has n := fun n hn =>
    ht n (List.mem_append_right _ hn)
  have hrecorded := recorded_records hf.glyphs
  have hwhole := GlyphWalk.whole_of_recorded hrecorded
  obtain ⟨records', rfl, hlengths, hwhole', hothers⟩ := hd.exists_records hf hk
  obtain ⟨v, hv, hheader, hglyphs⟩ := FontView.exists_views ht hf.header hwhole
  obtain ⟨w, hw, hheader', hglyphs'⟩ := FontView.exists_views ht hf.header hwhole'
  rw [← payload_eq_flatten] at hv
  have hdecode := GlyphWalk.map_decode_views hglyph FontHeader.length hrecorded
  refine ⟨v, w, _, _, hv, hw, hheader, hheader', hglyphs, hglyphs', hf.map_position_views _,
    GlyphWalk.extents_views _ _ hlengths, hdecode, fun j hj => ?_⟩
  have hview := GlyphWalk.getElem?_views_congr (f.compile t).table FontHeader.length hlengths
    (hothers j hj)
  refine ⟨hview, ?_⟩
  rw [hview, ← List.getElem?_map, hdecode, List.getElem?_map]

/-- A glyph without pixels has become one of a box that its record has no room for. The glyph after
it is read as before. -/
theorem damage_confined_box :
    let dot : Glyph := { box := ⟨3, 3, -1, 0⟩, rows := .unpack 3 3 [182, 128] }
    let f : Font := { header := { size := 3 }, glyphs := [{}, dot] }
    let bytes : List UInt8 := [3, 0, 0, 0, 0, 0, 0, 0, 0, 0, 0, 0, 10, 0, 0, 0, 0, 0, 0,
      0, 0, 0, 12, 0, 0, 3, 3, 255, 0, 182, 128]
    let damaged : List UInt8 := [3, 0, 0, 0, 0, 0, 0, 0, 0, 7, 7, 0, 10, 1, 2, 255, 255, 128, 9,
      0, 0, 0, 12, 0, 0, 3, 3, 255, 0, 182, 128]
    (f.compile .empty).result = .ok bytes ∧ f.DamagedAt 0 bytes damaged ∧
      ∃ w first second, FontView.ofBytes damaged (f.compile .empty).table = .ok w ∧
        w.header = .ok f.header ∧ w.glyphs = [.ok first, .ok second] ∧
        second.position = 19 ∧ second.decode = .ok dot := by
  intro dot f bytes damaged
  have h : (f.compile .empty).result = .ok bytes := by decide +kernel
  have hd : f.DamagedAt 0 bytes damaged := by decide +kernel
  obtain ⟨v, w, records, records', -, hw, -, hheader, -, hglyphs, hpositions, hextents, -,
      hothers⟩ :=
    damage_confined h (k := 0) (by decide) hd
  have hplaces : records'.map GlyphView.position = [9, 19] := by
    have hsame := congrArg (List.map Prod.fst) hextents
    rw [List.map_map, List.map_map] at hsame
    exact (hsame.trans hpositions).trans (by decide)
  obtain ⟨first, second, rfl⟩ := List.length_eq_two.mp
    ((List.length_map _).symm.trans (congrArg List.length hplaces))
  obtain ⟨-, hdecode⟩ := hothers 1 (by decide)
  exact ⟨h, hd, w, first, second, hw, hheader, hglyphs, (List.cons.inj (List.cons.inj hplaces).2).1,
    Option.some.inj hdecode⟩

end Font

end PixelFont
