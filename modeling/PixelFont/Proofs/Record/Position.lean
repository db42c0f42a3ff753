import PixelFont.Record.Plan

/-!
Plans do not depend on where they are written. Main statement: `write_eq`, by which a record
written after anything else has the outcome, the bytes and the recordings that it has alone.
-/

set_option autoImplicit false

namespace PixelFont

theorem overwrite_append (xs ys : Array UInt8) (i : Nat) (bs : List UInt8) :
    overwrite (xs ++ ys) (xs.size + i) bs = xs ++ overwrite ys i bs := by
  induction bs generalizing ys i with
  | nil => rfl
  | cons b bs ih =>
    have hs : (xs ++ ys).setIfInBounds (xs.size + i) b = xs ++ ys.setIfInBounds i b := by
      rw [Array.setIfInBounds_append_right (Nat.le_add_right _ _), Nat.add_sub_cancel_left]
    rw [overwrite, overwrite, hs, Nat.add_assoc, ih]

def Hole.shift (n : Nat) (h : Hole) : Hole := { h with place := n + h.place }

namespace Buffer

/-- What `b` holds, written after what `base` holds. -/
def onto (base b : Buffer) : Buffer :=
  ⟨base.bytes ++ b.bytes, base.bytes.size + b.start, base.notes ++ b.notes⟩

theorem onto_empty (base : Buffer) : base.onto {} = base.enter := by
  simp [onto, enter]

theorem position_onto (base b : Buffer) : (base.onto b).position = b.position := by
  simp only [position, onto, Array.size_append]
  omega

theorem note_onto (base b : Buffer) (name : String) (format : Option IntFormat) :
    (base.onto b).note name format = base.onto (b.note name format) := by
  rw [note, position_onto, note]
  simp only [onto, Array.append_push]

theorem append_onto (base b : Buffer) (bs : List UInt8) :
    (base.onto b).append bs = base.onto (b.append bs) := by
  have h : base.bytes ++ b.bytes ++ bs = base.bytes ++ (b.bytes ++ bs) := by
    apply Array.ext'
    simp
  simp only [append, onto, h]

theorem field_onto (base b : Buffer) (name : String) (f : IntFormat) (v : Int) :
    (base.onto b).field name f v = (b.field name f v).map base.onto := by
  unfold field
  cases f.encode v with
  | error e => rfl
  | ok bs =>
    simp only [Except.map]
    rw [note_onto, append_onto]

theorem reserve_onto (base b : Buffer) (name : String) (f : IntFormat) :
    (base.onto b).reserve name f = base.onto (b.reserve name f) := by
  unfold reserve
  rw [note_onto, append_onto]

theorem hole_onto (base b : Buffer) (name : String) (f : IntFormat) :
    (base.onto b).hole name f = (b.hole name f).shift base.bytes.size := by
  simp [hole, onto, Hole.shift]

theorem fill_onto (base b : Buffer) (h : Hole) (v : Int) :
    (base.onto b).fill (h.shift base.bytes.size) v = (b.fill h v).map base.onto := by
  simp only [fill, Hole.shift]
  cases h.format.encode v with
  | error e => rfl
  | ok bs => simp only [onto, overwrite_append, Except.map]

theorem enter_onto (base b : Buffer) : (base.onto b).enter = base.onto b.enter := by
  simp [onto, enter]

theorem leave_onto (base b outer : Buffer) :
    (base.onto b).leave (base.onto outer) = base.onto (b.leave outer) := rfl

end Buffer

namespace Plan

/-- The induction is on the plan: whatever it does next, it sees the same positions, outcomes and
holes as without the bytes in front. -/
theorem run_onto {n : Nat} (p : Plan n) (holes : Vector Hole n) (base b : Buffer) :
    p.run (holes.map (Hole.shift base.bytes.size)) (base.onto b) =
      ((p.run holes b).1, base.onto (p.run holes b).2) := by
  induction p generalizing base b with
  | done => rfl
  | fail e => rfl
  | field name f v next ih =>
    rw [run, run, Buffer.field_onto]
    cases b.field name f v with
    | error e => rfl
    | ok b => exact ih holes base b
  | mark name next ih =>
    rw [run, run, Buffer.mark, Buffer.note_onto]
    exact ih holes base _
  | bytes bs next ih =>
    rw [run, run, Buffer.append_onto]
    exact ih holes base _
  | reserve name f next ih =>
    rw [run, run, Buffer.hole_onto, Buffer.reserve_onto, ← Vector.map_push]
    exact ih _ base _
  | fill i v next ih =>
    rw [run, run, Fin.getElem_fin, Vector.getElem_map, Buffer.fill_onto, Fin.getElem_fin]
    cases b.fill holes[i.val] v with
    | error e => rfl
    | ok b => exact ih holes base b
  | position next ih =>
    rw [run, run, Buffer.position_onto]
    exact ih b.position holes base b
  | record inner next ihInner ih =>
    rw [run, run, Buffer.record, Buffer.record, Buffer.enter_onto]
    have h := ihInner #v[] base b.enter
    rw [Vector.map_empty] at h
    simp only [h, Buffer.position_onto, Buffer.leave_onto]
    exact ih _ holes base _

/-- A record is written in the same way everywhere; the record around it goes on where it was. -/
theorem write_eq (p : Plan 0) (b : Buffer) :
    p.write b = ((p.write {}).1, (b.onto (p.write {}).2).leave b) := by
  have h := run_onto p #v[] b {}
  rw [Vector.map_empty, Buffer.onto_empty] at h
  unfold write Buffer.record
  simp only [h, Buffer.position_onto]
  rfl

theorem outcome_write_of_error {p : Plan 0} {e : EncodeFault}
    (h : (p.run #v[] {}).1 = .error e) (b : Buffer) : (p.write b).1 = .error e := by
  rw [write_eq]
  show (p.run #v[] {}).1.map _ = _
  rw [h]
  rfl

end Plan
end PixelFont
