import PixelFont.GlyphView
import PixelFont.Proofs.Except
import PixelFont.Proofs.OffsetTable
import PixelFont.Proofs.Record.Fields

/-!
Reading fields back. Main statement: `forall_field_iff`, by which a view gives the values of a run
of fields by their names if and only if they fit and their bytes stand where the table says.
-/

set_option autoImplicit false

namespace PixelFont

open FieldValue

namespace View

theorem slice?_unbounded_excluded (v : View) (n : Nat) :
    v.slice? .unbounded (.excluded n) =
      if n ≤ v.length then some ⟨v.position, v.bytes.take n⟩ else none := by
  unfold slice? part?
  simp [Bound.first, Bound.stop]

theorem after?_eq (v : View) (n : Nat) :
    v.after? n = if n ≤ v.length then some ⟨v.position + n, v.bytes.drop n⟩ else none := by
  unfold after? slice? part?
  simp only [Bound.first, Bound.stop, Nat.le_refl, and_true]
  split
  · rw [List.take_of_length_le (by rw [List.length_drop]; exact Nat.le_refl _)]
  · rfl

theorem read_eq (v : View) (offset : Nat) (f : IntFormat) :
    v.read offset f =
      if offset + f.bytes ≤ v.length then
        (f.decode ((v.bytes.drop offset).take f.bytes)).mapError .scalar
      else .error .outOfBounds := by
  unfold read slice? part?
  simp only [Bound.first, Bound.stop]
  by_cases h : offset + f.bytes ≤ v.length
  · simp [h]
  · simp [h]

theorem read_eq_ok_iff {v : View} {offset : Nat} {f : IntFormat} {n : Int} :
    v.read offset f = .ok n ↔ f.Holds n ∧ (v.bytes.drop offset).take f.bytes = f.spell n := by
  have hdecode : f.decode ((v.bytes.drop offset).take f.bytes) = .ok n ↔
      f.Holds n ∧ (v.bytes.drop offset).take f.bytes = f.spell n := by
    rw [IntFormat.decode_eq_ok_iff, List.take_take, Nat.min_self]
  rw [read_eq, ← hdecode]
  by_cases h : offset + f.bytes ≤ v.length
  · rw [if_pos h, mapError_eq_ok_iff]
  · rw [if_neg h, hdecode]
    constructor
    · intro he
      cases he
    rintro ⟨hf, ht⟩
    refine absurd ?_ h
    -- a field that is spelled in full lies within the view
    have hs := hf.1
    simp only [IntFormat.supported, Bool.and_eq_true, decide_eq_true_eq] at hs
    have hl := congrArg List.length ht
    rw [IntFormat.length_spell, List.length_take, List.length_drop] at hl
    unfold length
    omega

theorem field_of_has {t : OffsetTable} {name : String} {offset : Nat} {f : IntFormat}
    (h : t.Has ⟨name, offset, some f⟩) (v : View) : v.field t name = v.read offset f := by
  have hg : t.get? name = some ⟨offset, some f⟩ := h
  rw [field, hg]

theorem field_take {p n : Nat} {bs : List UInt8} {t : OffsetTable} {name : String} {i : Int}
    (h : field ⟨p, bs⟩ t name = .ok i) :
    field ⟨p, bs.take n⟩ t name = .ok i ∨
      field ⟨p, bs.take n⟩ t name = .error .outOfBounds := by
  unfold field at h ⊢
  split at h
  · cases h
  · cases h
  next offset f hget =>
  by_cases hin : offset + f.bytes ≤ (bs.take n).length
  · left
    have hn : f.bytes ≤ n - offset := by
      rw [List.length_take] at hin
      omega
    rw [read_eq_ok_iff] at h ⊢
    rwa [List.drop_take, List.take_take, Nat.min_eq_left hn]
  · right
    exact (read_eq _ _ _).trans (if_neg hin)

theorem forall_field_iff {t : OffsetTable} (start : Nat) (fs : List FieldValue)
    (ht : ∀ n ∈ noted start fs, t.Has n) (v : View) :
    (∀ f ∈ fs, v.field t f.name = .ok f.value) ↔
      Fit fs ∧ (v.bytes.drop start).take (width fs) = spell fs := by
  induction fs generalizing start with
  | nil => simp [Fit, width, spell]
  | cons f fs ih =>
    have hf := field_of_has (ht ⟨f.name, start, some f.format⟩ List.mem_cons_self) v
    have hs : spell (f :: fs) = f.format.spell f.value ++ spell fs := List.flatMap_cons
    rw [List.forall_mem_cons, hf, read_eq_ok_iff,
      ih _ fun n hn => ht n (List.mem_cons_of_mem _ hn), hs, width, List.take_add, List.drop_drop]
    constructor
    · rintro ⟨⟨hh, ht₁⟩, hfit, ht₂⟩
      exact ⟨List.forall_mem_cons.mpr ⟨hh, hfit⟩, by rw [ht₁, ht₂]⟩
    · rintro ⟨hfit, he⟩
      have hl : ((v.bytes.drop start).take f.format.bytes).length = f.format.bytes := by
        have hl := congrArg List.length he
        rw [List.length_append, List.length_append, List.length_take, List.length_take,
          IntFormat.length_spell, length_spell, List.length_drop, List.length_drop] at hl
        rw [List.length_take, List.length_drop]
        omega
      obtain ⟨h₁, h₂⟩ := List.append_inj he (by rw [hl, IntFormat.length_spell])
      exact ⟨⟨(List.forall_mem_cons.mp hfit).1, h₁⟩, (List.forall_mem_cons.mp hfit).2, h₂⟩

section Narrow

variable {v : View} {t : OffsetTable} {name : String}

/-- What is read and then narrowed is the value of the word that comes of it. -/
theorem narrow_eq_ok_iff {α : Type} {narrow : Int → Except ReadFault α} (value : α → Int) {w : α}
    (h : ∀ n, narrow n = .ok w ↔ n = value w) :
    v.field t name >>= narrow = .ok w ↔ v.field t name = .ok (value w) := by
  rw [bind_eq_ok_iff]
  simp only [h, exists_eq_right]

theorem unsigned_eq_ok_iff {w : UInt32} :
    v.unsigned t name = .ok w ↔ v.field t name = .ok (w.toNat : Int) := by
  rw [unsigned]
  refine narrow_eq_ok_iff (fun w : UInt32 => w.toNat) fun n => ?_
  rw [← toUInt32?_eq_some_iff]
  split <;> simp [*]

theorem signed_eq_ok_iff {w : Int32} :
    v.signed t name = .ok w ↔ v.field t name = .ok w.toInt := by
  rw [signed]
  refine narrow_eq_ok_iff Int32.toInt fun n => ?_
  rw [← toInt32?_eq_some_iff]
  split <;> simp [*]

end Narrow

theorem box_eq_ok_iff {v : View} {t : OffsetTable} {width height xOffset yOffset : String}
    {b : Box} :
    v.box t width height xOffset yOffset = .ok b ↔
      v.unsigned t width = .ok b.width ∧ v.unsigned t height = .ok b.height ∧
        v.signed t xOffset = .ok b.xOffset ∧ v.signed t yOffset = .ok b.yOffset := by
  simp only [box, bind_eq_ok_iff]
  constructor
  · rintro ⟨w, hw, h, hh, x, hx, y, hy, he⟩
    obtain rfl := Except.ok.inj he
    exact ⟨hw, hh, hx, hy⟩
  · rintro ⟨hw, hh, hx, hy⟩
    exact ⟨_, hw, _, hh, _, hx, _, hy, rfl⟩

end View
end PixelFont
