import PixelFont.Proofs.Record.Position

set_option autoImplicit false

namespace PixelFont

namespace Buffer

theorem start_field {b b' : Buffer} {name : String} {f : IntFormat} {v : Int}
    (h : b.field name f v = .ok b') : b'.start = b.start := by
  unfold field at h
  cases he : f.encode v with
  | error e =>
    rw [he] at h
    cases h
  | ok bs =>
    rw [he] at h
    cases h
    rfl

theorem start_fill {b b' : Buffer} {h : Hole} {v : Int} (hb : b.fill h v = .ok b') :
    b'.start = b.start := by
  unfold fill at hb
  cases he : h.format.encode v with
  | error e =>
    rw [he] at hb
    cases hb
  | ok bs =>
    rw [he] at hb
    cases hb
    rfl

end Buffer

namespace Plan

/-- Offsets are counted from the same place after a run as before it, also after one that fails.
The induction is on the plan; a nested record comes back to the start that it was entered from. -/
theorem start_run {n : Nat} (p : Plan n) (holes : Vector Hole n) (b : Buffer) :
    (p.run holes b).2.start = b.start := by
  induction p generalizing b with
  | done => rfl
  | fail e => rfl
  | field name f v next ih =>
    rw [run]
    cases h : b.field name f v with
    | error e => rfl
    | ok b' => exact (ih holes b').trans (Buffer.start_field h)
  | mark name next ih => exact ih holes (b.mark name)
  | bytes bs next ih => exact ih holes (b.append bs)
  | reserve name f next ih => exact ih _ (b.reserve name f)
  | fill i v next ih =>
    rw [run]
    cases h : b.fill holes[i] v with
    | error e => rfl
    | ok b' => exact (ih holes b').trans (Buffer.start_fill h)
  | position next ih => exact ih b.position holes b
  | record inner next ihInner ih => exact ih _ holes _

theorem write_eq_ok_iff {p : Plan 0} {b after : Buffer} {n : Nat} :
    p.write b = (.ok n, after) ↔ (p.run #v[] b.enter).1 = .ok () ∧
      n = (p.run #v[] b.enter).2.position ∧ after = (p.run #v[] b.enter).2.leave b := by
  have hw : p.write b = ((p.run #v[] b.enter).1.map fun _ => (p.run #v[] b.enter).2.position,
      (p.run #v[] b.enter).2.leave b) := rfl
  rw [hw, Prod.mk.injEq]
  cases (p.run #v[] b.enter).1 with
  | error e => simp [Except.map]
  | ok _ => simp [Except.map, eq_comm]

theorem length_write_empty {p : Plan 0} {n : Nat} (h : (p.write {}).1 = .ok n) :
    n = (p.write {}).2.bytes.size := by
  have hs : (p.run #v[] {}).2.start = 0 := start_run p #v[] {}
  have hw : p.write {} = (.ok n, (p.write {}).2) := Prod.ext h rfl
  obtain ⟨-, hn, -⟩ := write_eq_ok_iff.mp hw
  rw [hn]
  show (p.run #v[] {}).2.bytes.size - (p.run #v[] {}).2.start = (p.run #v[] {}).2.bytes.size
  rw [hs, Nat.sub_zero]

theorem write_anywhere (p : Plan 0) :
    ∃ (outcome : Except EncodeFault Nat) (bytes : Array UInt8) (notes : Array Note),
      (∀ n, outcome = .ok n → n = bytes.size) ∧
      ∀ b : Buffer,
        p.write b = (outcome, ⟨b.bytes ++ bytes, b.start, b.notes ++ notes⟩) ∧
        (b.start ≤ b.bytes.size → (p.write b).2.position = b.position + bytes.size) := by
  refine ⟨(p.write {}).1, (p.write {}).2.bytes, (p.write {}).2.notes,
    fun n h => length_write_empty h, fun b => ?_⟩
  have hw : p.write b = ((p.write {}).1,
      ⟨b.bytes ++ (p.write {}).2.bytes, b.start, b.notes ++ (p.write {}).2.notes⟩) := write_eq p b
  refine ⟨hw, fun hb => ?_⟩
  rw [hw]
  simp only [Buffer.position, Array.size_append]
  omega

/-- A nested record fails after its first field, and the record around it goes on and fills in its
own length, here after other bytes and in a record that starts after the first of them. -/
theorem write_anywhere_caught :
    let broken : Plan 0 := .field "X" .u8 3 (.field "Y" .u8 300 .done)
    let p : Plan 0 := .reserve "LENGTH" .u8 <| .record broken fun _ =>
      .mark "END" <| .position fun length => .fill 0 length .done
    let b : Buffer := ⟨#[7, 8, 9], 1, #[⟨"A", 0, some .u8⟩]⟩
    let notes : Array Note := #[⟨"LENGTH", 0, some .u8⟩, ⟨"X", 0, some .u8⟩, ⟨"END", 2, none⟩]
    p.write {} = (.ok 2, ⟨#[2, 3], 0, notes⟩) ∧
      p.write b = (.ok 2, ⟨#[7, 8, 9, 2, 3], 1, b.notes ++ notes⟩) ∧
      b.start ≤ b.bytes.size ∧ (p.write b).2.position = b.position + 2 := by
  intro broken p b notes
  obtain ⟨outcome, bytes, notes', hl, hw⟩ := write_anywhere p
  have he : p.write {} = (.ok 2, ⟨#[2, 3], 0, notes⟩) := by rfl
  have h := (hw {}).1.symm.trans he
  have ho : outcome = .ok 2 := congrArg Prod.fst h
  have hb : bytes = #[2, 3] := by simpa using congrArg (fun r => r.2.bytes) h
  have hn : notes' = notes := by simpa using congrArg (fun r => r.2.notes) h
  subst ho hb hn
  obtain ⟨hat, hp⟩ := hw b
  exact ⟨he, hat, by decide, hp (by decide)⟩

end Plan
end PixelFont
