import PixelFont.Proofs.FontView

set_option autoImplicit false

namespace PixelFont

namespace GlyphView

/-- The record starts at `p` in the data, with room for what stands before its pixels, and ends
where the length field that is read from there on says. -/
structure StandsAt (g : GlyphView) (data : List UInt8) (t : OffsetTable) (p : Nat) : Prop where
  view : g = ⟨⟨p, (data.drop p).take g.length⟩, t⟩
  within : p + g.length ≤ data.length
  room : ∃ head, t.offset? GlyphField.bitmap = some head ∧ head ≤ g.length
  length : View.field ⟨p, data.drop p⟩ t GlyphField.bytes = .ok (g.length : Int)

variable {data : List UInt8} {t : OffsetTable} {p : Nat} {g : GlyphView}

theorem standsAt_of_ofHead (hp : p ≤ data.length) (h : ofHead ⟨p, data.drop p⟩ t = .ok g) :
    g.StandsAt data t p := by
  obtain ⟨length, head, hlength, hhead, hle, hl, rfl⟩ := ofHead_eq_ok_iff_room.mp h
  have hg : (data.drop p |>.take length.toNat).length = length.toNat := List.length_take_of_le hl
  have hl : length.toNat ≤ (data.drop p).length := hl
  rw [List.length_drop] at hl
  have hfield := View.unsigned_eq_ok_iff.mp hlength
  refine ⟨?_, ?_, ⟨head, hhead, ?_⟩, ?_⟩ <;>
    simp only [GlyphView.length, View.length, hg]
  · omega
  · exact hle
  · exact hfield

theorem StandsAt.head_le (h : g.StandsAt data t p) {head : Nat}
    (hhead : t.offset? GlyphField.bitmap = some head) : head ≤ g.length := by
  obtain ⟨head', hhead', hle⟩ := h.room
  obtain rfl := Option.some.inj (hhead.symm.trans hhead')
  exact hle

/-- The length field may stand where the record has already ended. -/
theorem StandsAt.field_bytes (h : g.StandsAt data t p) :
    g.view.field t GlyphField.bytes = .ok (g.length : Int) ∨
      g.view.field t GlyphField.bytes = .error .outOfBounds := by
  have hview : g.view = ⟨p, (data.drop p).take g.length⟩ := congrArg (·.view) h.view
  rw [hview]
  exact View.field_take h.length

end GlyphView

namespace GlyphWalk

def startingAt (data : List UInt8) (t : OffsetTable) (p : Nat) : GlyphWalk :=
  ⟨⟨p, data.drop p⟩, t, false⟩

variable {data : List UInt8} {t : OffsetTable} {p q : Nat} {gs : List GlyphView}

theorem next?_startingAt (hp : p ≤ data.length) :
    (p = data.length ∧ (startingAt data t p).next? = none) ∨
      (∃ g, g.StandsAt data t p ∧
        (startingAt data t p).next? = some (.ok g, startingAt data t (p + g.length))) ∨
      ∃ e last, (startingAt data t p).next? = some (.error e, last) ∧ last.next? = none := by
  by_cases hend : p = data.length
  · exact .inl ⟨hend, by simp [next?, startingAt, hend]⟩
  have hne : data.drop p ≠ [] := by simp; omega
  cases h : GlyphView.ofHead ⟨p, data.drop p⟩ t with
  | ok g =>
    have hg := GlyphView.standsAt_of_ofHead hp h
    have hw := hg.within
    have hafter : View.after? ⟨p, data.drop p⟩ g.length =
        some ⟨p + g.length, data.drop (p + g.length)⟩ := by
      rw [View.after?_eq, if_pos (by simp [View.length]; omega), List.drop_drop]
    exact .inr (.inl ⟨g, hg, by simp [next?, startingAt, hne, h, hafter]⟩)
  | error e =>
    exact .inr (.inr ⟨e, ⟨⟨p, data.drop p⟩, t, true⟩, by simp [next?, startingAt, hne, h],
      by simp [next?]⟩)

/-- The records stand in the data one after another, the first at `p` and the last up to `q`. -/
inductive Tiles (data : List UInt8) (t : OffsetTable) : Nat → List GlyphView → Nat → Prop
  | nil (p : Nat) : Tiles data t p [] p
  | cons {p q : Nat} {g : GlyphView} {gs : List GlyphView} (head : g.StandsAt data t p)
      (tail : Tiles data t (p + g.length) gs q) : Tiles data t p (g :: gs) q

theorem Tiles.eq_nil (h : Tiles data t p gs q) (hnone : t.offset? GlyphField.bitmap = none) :
    gs = [] := by
  cases h with
  | nil => rfl
  | cons hg _ =>
    obtain ⟨head, hhead, -⟩ := hg.room
    simp [hnone] at hhead

theorem Tiles.add_length_mul_le (h : Tiles data t p gs q) {head : Nat}
    (hhead : t.offset? GlyphField.bitmap = some head) : p + gs.length * head ≤ q := by
  induction h with
  | nil p => simp
  | cons hg _ ih =>
    have hle := hg.head_le hhead
    simp [Nat.add_mul]
    omega

theorem Tiles.field_bytes (h : Tiles data t p gs q) :
    ∀ g ∈ gs, g.view.field t GlyphField.bytes = .ok (g.length : Int) ∨
      g.view.field t GlyphField.bytes = .error .outOfBounds := by
  induction h with
  | nil p => simp
  | cons hg _ ih => exact List.forall_mem_cons.mpr ⟨hg.field_bytes, ih⟩

theorem Tiles.flatten (h : Tiles data t p gs q) :
    (gs.map fun g => g.view.bytes).flatten ++ data.drop q = data.drop p := by
  induction h with
  | nil p => rfl
  | @cons p q g gs hg _ ih =>
    have hb : g.view.bytes = (data.drop p).take g.length := congrArg (·.view.bytes) hg.view
    rw [List.map_cons, List.flatten_cons, List.append_assoc, ih, hb, ← List.drop_drop,
      List.take_append_drop]

/-- What a walk over the data from `p` on comes to: its records, the fault that it ends with, if
any, and where the last record ends. -/
structure Tiled (w : GlyphWalk) (data : List UInt8) (p : Nat) (records : List GlyphView)
    (fault : Option ReadFault) (stop : Nat) : Prop where
  items : w.items = records.map .ok ++ fault.toList.map .error
  /-- After as many steps as there are items, the walk has given them all and nothing is left. -/
  ends : ∃ last, take w.items.length w = (w.items, last) ∧ last.next? = none
  tiles : Tiles data w.table p records stop
  within : stop ≤ data.length
  whole : fault = none → stop = data.length

theorem exists_tiled (hb : ∀ head, t.offset? GlyphField.bitmap = some head → 1 ≤ head)
    (hp : p ≤ data.length) :
    ∃ records fault stop, (startingAt data t p).Tiled data p records fault stop := by
  induction hleft : data.length - p using Nat.strongRecOn generalizing p with
  | ind left ih =>
    obtain ⟨rfl, hnext⟩ | ⟨g, hg, hnext⟩ | ⟨e, last, hnext, hlast⟩ := next?_startingAt (t := t) hp
    · have hitems := items_of_none hnext
      exact ⟨[], none, _, hitems, ⟨_, by rw [hitems]; rfl, hnext⟩, .nil _, Nat.le_refl _,
        fun _ => rfl⟩
    · -- the record is not empty, so less data is left
      obtain ⟨head, hhead, hle⟩ := hg.room
      have hpos := hb head hhead
      have hwithin := hg.within
      have hitems := items_of_record hnext (by simp [startingAt, View.length]; omega)
      obtain ⟨records, fault, stop, h⟩ := ih _ (by omega) hwithin rfl
      obtain ⟨last, htake, hlast⟩ := h.ends
      refine ⟨g :: records, fault, stop, ?_, ⟨last, ?_, hlast⟩, .cons hg h.tiles, h.within, h.whole⟩
      · rw [hitems, h.items]
        rfl
      · rw [hitems, List.length_cons, take, hnext]
        simp only [htake]
    · have hitems := items_of_fault hnext
      refine ⟨[], some e, p, hitems, ⟨last, ?_, hlast⟩, .nil p, hp, by simp⟩
      simp [take, hnext, hitems]

end GlyphWalk

namespace FontView

theorem walk_eq_startingAt {bytes : List UInt8} {t : OffsetTable} {first : Nat}
    (h : first ≤ bytes.length) : walk ⟨⟨0, bytes⟩, t, first⟩ = .startingAt bytes t first := by
  simp [walk, View.after?_eq, View.length, h, GlyphWalk.startingAt]

/-- Whatever the bytes are and wherever the table puts the fields, if some byte stands before the
pixels of a record then the walk ends, and its records divide the data from the first glyph on. -/
theorem glyphs_tile {bytes : List UInt8} {t : OffsetTable} {v : FontView}
    (hv : ofBytes bytes t = .ok v)
    (hb : ∀ head, t.offset? GlyphField.bitmap = some head → 1 ≤ head) :
    t.offset? FontField.firstGlyph = some v.firstGlyph ∧ v.table = t ∧
      ∃ records fault stop, v.walk.Tiled bytes v.firstGlyph records fault stop ∧
        (t.offset? GlyphField.bitmap = none → records = []) ∧
        (∀ head, t.offset? GlyphField.bitmap = some head →
          records.length ≤ (bytes.length - v.firstGlyph) / head) ∧
        (∀ r ∈ records, r.view.field t GlyphField.bytes = .ok (r.length : Int) ∨
          r.view.field t GlyphField.bytes = .error .outOfBounds) ∧
        (fault = none →
          (records.map fun r => r.view.bytes).flatten = bytes.drop v.firstGlyph) := by
  obtain ⟨first, hfirst, hle, rfl⟩ := ofBytes_eq_ok_iff_mark.mp hv
  obtain ⟨records, fault, stop, h⟩ := GlyphWalk.exists_tiled hb hle
  have htiles : GlyphWalk.Tiles bytes t first records stop := h.tiles
  rw [← walk_eq_startingAt hle] at h
  refine ⟨hfirst, rfl, records, fault, stop, h, htiles.eq_nil, ?_, htiles.field_bytes, ?_⟩
  · intro head hhead
    have hcount := htiles.add_length_mul_le hhead
    have hwithin := h.within
    show records.length ≤ (bytes.length - first) / head
    rw [Nat.le_div_iff_mul_le (hb head hhead)]
    omega
  · intro hnone
    have hflat := htiles.flatten
    rwa [h.whole hnone, List.drop_length, List.append_nil] at hflat

/-- Records of two, five and three bytes, each with its length in the fourth one from its start, and
then a byte too few for another length. -/
theorem glyphs_tile_beyond :
    let t := OffsetTable.ofEntries [(FontField.firstGlyph, ⟨1, none⟩),
      (GlyphField.bytes, ⟨3, some .u8⟩), (GlyphField.bitmap, ⟨2, none⟩)]
    let bytes : List UInt8 := [7, 0, 0, 0, 2, 0, 5, 0, 0, 0, 0, 3, 0]
    let v : FontView := ⟨⟨0, bytes⟩, t, 1⟩
    ofBytes bytes t = .ok v ∧ (∀ head, t.offset? GlyphField.bitmap = some head → 1 ≤ head) ∧
      ∃ records fault stop, v.walk.Tiled bytes 1 records fault stop ∧ records.length ≤ 6 := by
  intro t bytes v
  have hv : ofBytes bytes t = .ok v := by decide +kernel
  have hb : ∀ head, t.offset? GlyphField.bitmap = some head → 1 ≤ head := by
    intro head h
    obtain rfl : 2 = head := Option.some.inj h
    decide
  obtain ⟨-, -, records, fault, stop, h, -, hcount, -⟩ := glyphs_tile hv hb
  exact ⟨hv, hb, records, fault, stop, h, Nat.le_trans (hcount 2 rfl) (by decide)⟩

end FontView
end PixelFont
