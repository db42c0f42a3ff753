import PixelFont.Proofs.IntFormat
import PixelFont.Proofs.Record.Position

set_option autoImplicit false

namespace PixelFont

structure FieldValue where
  name : String
  format : IntFormat
  value : Int
  deriving DecidableEq, Repr

namespace FieldValue

def Fit (fs : List FieldValue) : Prop := ∀ f ∈ fs, f.format.Holds f.value

def spell (fs : List FieldValue) : List UInt8 := fs.flatMap fun f => f.format.spell f.value

def width : List FieldValue → Nat
  | [] => 0
  | f :: fs => f.format.bytes + width fs

def noted (start : Nat) : List FieldValue → List Note
  | [] => []
  | f :: fs => ⟨f.name, start, some f.format⟩ :: noted (start + f.format.bytes) fs

@[simp] theorem length_spell (fs : List FieldValue) : (spell fs).length = width fs := by
  induction fs with
  | nil => rfl
  | cons f fs ih =>
    have h : spell (f :: fs) = f.format.spell f.value ++ spell fs := List.flatMap_cons
    rw [h, List.length_append, IntFormat.length_spell, ih, width]

theorem Fit.tail {f : FieldValue} {fs : List FieldValue} (h : Fit (f :: fs)) : Fit fs :=
  fun g hg => h g (List.mem_cons_of_mem f hg)

def faultOf? (f : FieldValue) : Option EncodeFault :=
  match f.format.encode f.value with
  | .ok _ => none
  | .error e => some ⟨f.name, e⟩

def fault? (fs : List FieldValue) : Option EncodeFault := fs.findSome? faultOf?

theorem faultOf?_eq_none_iff {f : FieldValue} : f.faultOf? = none ↔ f.format.Holds f.value := by
  cases h : f.format.encode f.value with
  | ok bs => simp [faultOf?, h, (IntFormat.encode_eq_ok_iff.mp h).1]
  | error e =>
    have hn : ¬ f.format.Holds f.value := fun hf => by
      rw [IntFormat.encode_of_holds hf] at h
      cases h
    simp [faultOf?, h, hn]

theorem faultOf?_eq_some_iff {f : FieldValue} {e : EncodeFault} :
    f.faultOf? = some e ↔
      ∃ cause, f.format.encode f.value = .error cause ∧ e = ⟨f.name, cause⟩ := by
  cases h : f.format.encode f.value <;> simp [faultOf?, h, eq_comm]

theorem fault?_eq_none_iff {fs : List FieldValue} : fault? fs = none ↔ Fit fs := by
  simp only [fault?, List.findSome?_eq_none_iff, faultOf?_eq_none_iff, Fit]

end FieldValue

open FieldValue

theorem size_append_list {α : Type} (xs : Array α) (l : List α) :
    (xs ++ l).size = xs.size + l.length := by
  rw [← Array.length_toList, Array.toList_appendList, List.length_append, Array.length_toList]

namespace Buffer

def fields (b : Buffer) (fs : List FieldValue) : Buffer :=
  { b with bytes := b.bytes ++ spell fs, notes := b.notes ++ noted b.position fs }

theorem fields_empty (fs : List FieldValue) :
    ({} : Buffer).fields fs = ⟨(spell fs).toArray, 0, (noted 0 fs).toArray⟩ := by
  have h : ({} : Buffer).position = 0 := rfl
  simp [fields, h]

theorem position_append {b : Buffer} (h : b.start ≤ b.bytes.size) (bs : List UInt8) :
    (b.append bs).position = b.position + bs.length := by
  simp only [position, append, size_append_list]
  omega

theorem fields_cons {b : Buffer} (h : b.start ≤ b.bytes.size) (f : FieldValue)
    (fs : List FieldValue) :
    ((b.note f.name f.format).append (f.format.spell f.value)).fields fs = b.fields (f :: fs) := by
  have hp : ((b.note f.name f.format).append (f.format.spell f.value)).position =
      b.position + f.format.bytes := by
    rw [position_append (by exact h), IntFormat.length_spell]
    rfl
  simp only [fields, hp]
  -- the position is settled first: as soon as the buffer is opened it is no longer seen as one
  simp only [append, note, spell, noted, List.flatMap_cons]
  congr 1
  · apply Array.ext'
    simp

end Buffer

theorem toList_overwrite {bytes : Array UInt8} {i : Nat} {bs : List UInt8}
    (h : i + bs.length ≤ bytes.size) :
    (overwrite bytes i bs).toList =
      bytes.toList.take i ++ bs ++ bytes.toList.drop (i + bs.length) := by
  induction bs generalizing bytes i with
  | nil => simp [overwrite]
  | cons b bs ih =>
    rw [List.length_cons] at h
    have hl : i < bytes.toList.length := by simp; omega
    rw [overwrite, ih (by rw [Array.size_setIfInBounds]; omega), Array.toList_setIfInBounds,
      List.take_add_one, List.take_set_of_le (Nat.le_refl i), List.getElem?_set_self hl,
      List.drop_set_of_lt (by omega), List.length_cons]
    simp [Nat.add_comm, Nat.add_left_comm]

namespace Plan

def fields {n : Nat} (fs : List FieldValue) (next : Plan n) : Plan n :=
  fs.foldr (fun f => .field f.name f.format f.value) next

theorem run_fields {n : Nat} {fs : List FieldValue} (hf : Fit fs) (next : Plan n)
    (holes : Vector Hole n) {b : Buffer} (h : b.start ≤ b.bytes.size) :
    (fields fs next).run holes b = next.run holes (b.fields fs) := by
  induction fs generalizing b with
  | nil => simp [fields, Buffer.fields, spell, noted]
  | cons f fs ih =>
    have he : f.format.encode f.value = .ok (f.format.spell f.value) :=
      IntFormat.encode_of_holds (hf f List.mem_cons_self)
    have hs : ((b.note f.name f.format).append (f.format.spell f.value)).start ≤
        ((b.note f.name f.format).append (f.format.spell f.value)).bytes.size := by
      simp only [Buffer.append, Buffer.note, size_append_list]
      omega
    have hr : (fields (f :: fs) next).run holes b =
        (fields fs next).run holes ((b.note f.name f.format).append (f.format.spell f.value)) := by
      show (Plan.field f.name f.format f.value (fields fs next)).run holes b = _
      rw [run, Buffer.field, he]
    rw [hr, ih hf.tail hs, Buffer.fields_cons h]

/-- Fields are written up to the first that has a fault, whatever was to come after them. -/
theorem run_fields_of_fault {n : Nat} {fs : List FieldValue} {e : EncodeFault}
    (h : fault? fs = some e) (next : Plan n) (holes : Vector Hole n) (b : Buffer) :
    ((fields fs next).run holes b).1 = .error e := by
  induction fs generalizing b with
  | nil => cases h
  | cons f fs ih =>
    have hr : (fields (f :: fs) next).run holes b =
        (Plan.field f.name f.format f.value (fields fs next)).run holes b := rfl
    rw [hr, run, Buffer.field]
    rw [fault?, List.findSome?_cons, faultOf?] at h
    cases he : f.format.encode f.value with
    | ok bs =>
      rw [he] at h
      exact ih h _
    | error cause =>
      rw [he] at h
      cases h
      rfl

theorem run_fill {n : Nat} {holes : Vector Hole n} {i : Fin n} {value : Int} {b b' : Buffer}
    (h : b.fill (holes.get i) value = .ok b') (next : Plan n) :
    (Plan.fill i value next).run holes b = next.run holes b' := by
  have hb : b.fill holes[i] value = .ok b' := h
  rw [run, hb]

theorem run_fill_of_fault {n : Nat} {holes : Vector Hole n} {i : Fin n} {hole : Hole}
    (hi : holes.get i = hole) {value : Int} {cause : IntFormat.Fault}
    (h : hole.format.encode value = .error cause) (next : Plan n) (b : Buffer) :
    ((Plan.fill i value next).run holes b).1 = .error ⟨hole.name, cause⟩ := by
  have hb : b.fill holes[i] value = .error ⟨hole.name, cause⟩ := by
    show b.fill (holes.get i) value = _
    rw [hi, Buffer.fill, h]
  rw [run, hb]

end Plan
end PixelFont
