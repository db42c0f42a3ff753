import PixelFont.Proofs.Record.Nesting
import PixelFont.Proofs.Record.Transcript
import PixelFont.Proofs.View

/-!
What is written is what is read. Main statement: `read_transcript`. It rests on `written_run`, by
which a plan that succeeds leaves exactly the bytes and the recordings that its calls settle: what
comes later, another call or a hole being filled, disturbs none of the earlier fields.
-/

set_option autoImplicit false

namespace PixelFont

namespace IntFormat

theorem bigEndian_zero (n : Nat) : bigEndian n 0 = List.replicate n 0 := by
  induction n with
  | zero => rfl
  | succ n ih => rw [bigEndian, Nat.zero_div, ih, List.replicate_succ']; rfl

theorem spell_zero (f : IntFormat) : f.spell 0 = List.replicate f.bytes 0 := by
  rw [spell, Int.zero_emod]
  exact bigEndian_zero f.bytes

theorem holds_zero {f : IntFormat} (h : supported f.bytes = true) : f.Holds 0 := by
  have hp := valueCount_pos (f.bits - 1)
  have hp' := valueCount_pos f.bits
  rw [holds_iff]
  refine ⟨h, ?_, ?_⟩
  · unfold least
    split <;> omega
  · unfold greatest
    split <;> omega

end IntFormat

namespace OffsetTable

theorem get?_recordAll_of_not_mem {ns : List Note} {name : String}
    (h : name ∉ ns.map Note.name) (t : OffsetTable) :
    (t.recordAll ns).get? name = t.get? name := by
  induction ns generalizing t with
  | nil => rfl
  | cons n ns ih =>
    rw [List.map_cons, List.mem_cons, not_or] at h
    have hr := ih h.2 (t.record n)
    rw [get?_record, if_neg h.1] at hr
    exact hr

theorem get?_recordAll_of_nodup {ns : List Note} (h : (ns.map Note.name).Nodup) {n : Note}
    (hn : n ∈ ns) (t : OffsetTable) : (t.recordAll ns).get? n.name = some n.slot := by
  induction ns generalizing t with
  | nil => cases hn
  | cons m ns ih =>
    obtain ⟨hm, hns⟩ := List.nodup_cons.mp h
    rcases List.mem_cons.mp hn with rfl | hn
    · have hr := get?_recordAll_of_not_mem hm (t.record n)
      rw [get?_record, if_pos rfl] at hr
      exact hr
    · exact ih hns hn (t.record m)

end OffsetTable

namespace Transcript

/-- The buffer is what a record that started at the end of `base` has made of it by these calls. -/
structure Written (base : Buffer) (cs : Transcript) (holes : List Hole) (b : Buffer) : Prop where
  start : b.start = base.bytes.size
  bytes : b.bytes.toList = base.bytes.toList ++ spell cs.value 0 cs
  notes : b.notes.toList = base.notes.toList ++ noted cs
  reserved : holes = holesFrom base.bytes.size cs
  fields : ∀ {name : String} {f : IntFormat} {v : Int}, .field name f v ∈ cs → f.Holds v
  fills : ∀ {i : Nat} {v : Int}, .fill i v ∈ cs → ∃ h, holes[i]? = some h ∧ h.format.Holds v

namespace Written

variable {base b b' : Buffer} {cs : Transcript} {holes : List Hole}

theorem size (h : Written base cs holes b) : b.bytes.size = base.bytes.size + cs.width := by
  have hl := congrArg List.length h.bytes
  simpa using hl

theorem position (h : Written base cs holes b) : b.position = cs.width := by
  have hs := h.size
  rw [Buffer.position, h.start]
  omega

theorem nil (base : Buffer) : Written base [] [] base.enter where
  start := rfl
  bytes := (List.append_nil _).symm
  notes := (List.append_nil _).symm
  reserved := rfl
  fields h := by cases h
  fills h := by cases h

theorem value_next (h : Written base cs holes b) : cs.value cs.holeCount = 0 := by
  cases value_cases cs cs.holeCount with
  | inl hm =>
    obtain ⟨hole, hi, -⟩ := h.fills hm
    rw [h.reserved, ← length_holesFrom base.bytes.size cs] at hi
    simp at hi
  | inr hm => exact hm.2

/-- The step of every call that does not fill a hole: what was there stays, and the call's bytes,
recording and hole come after it. -/
theorem concat {c : Call} (h : Written base cs holes b) (hc : c.filled? = none)
    (hfield : ∀ {name : String} {f : IntFormat} {v : Int}, c = .field name f v → f.Holds v)
    (hstart : b'.start = b.start)
    (hbytes : b'.bytes.toList = b.bytes.toList ++ c.spell (fun _ => 0) 0)
    (hnotes : b'.notes.toList = b.notes.toList ++ (c.note? b.position).toList) :
    Written base (cs ++ [c]) (holes ++ (c.hole? b.bytes.size).toList) b' where
  start := hstart.trans h.start
  bytes := by
    have hv : value (cs ++ [c]) = value cs := by
      funext i
      rw [value_concat, Call.settle_of_not_fill hc]
    have hs : c.spell (fun _ => 0) 0 = c.spell cs.value cs.holeCount := by
      cases c with
      | reserve name f => simp only [Call.spell, h.value_next]
      | _ => rfl
    rw [hbytes, h.bytes, hv, spell_append, hs]
    simp [spell]
  notes := by rw [hnotes, h.notes, noted_concat, h.position, List.append_assoc]
  reserved := by rw [holesFrom_concat, h.size, h.reserved]
  fields hm := by
    rcases List.mem_append.mp hm with hm | hm
    · exact h.fields hm
    · exact hfield (List.mem_singleton.mp hm).symm
  fills hm := by
    rcases List.mem_append.mp hm with hm | hm
    · obtain ⟨hole, hi, hh⟩ := h.fills hm
      exact ⟨hole, by rw [List.getElem?_append_left (List.getElem?_eq_some_iff.mp hi).1, hi], hh⟩
    · rw [← List.mem_singleton.mp hm] at hc
      cases hc

theorem field (h : Written base cs holes b) {name : String} {f : IntFormat} {v : Int}
    (hb : b.field name f v = .ok b') : Written base (cs ++ [.field name f v]) holes b' := by
  unfold Buffer.field at hb
  cases he : f.encode v with
  | error e =>
    rw [he] at hb
    cases hb
  | ok bs =>
    rw [he] at hb
    obtain ⟨hf, rfl⟩ := IntFormat.encode_eq_ok_iff.mp he
    cases hb
    have hw : Written base (cs ++ [.field name f v]) (holes ++ [])
        ((b.note name f).append (f.spell v)) :=
      h.concat rfl (fun hc => by cases hc; exact hf) rfl
        (by simp [Buffer.append, Buffer.note, Call.spell])
        (by simp [Buffer.append, Buffer.note, Call.note?])
    rwa [List.append_nil] at hw

theorem mark (h : Written base cs holes b) (name : String) :
    Written base (cs ++ [.mark name]) holes (b.mark name) := by
  have hw : Written base (cs ++ [.mark name]) (holes ++ []) (b.mark name) :=
    h.concat rfl (fun hc => by cases hc) rfl (by simp [Buffer.mark, Buffer.note, Call.spell])
      (by simp [Buffer.mark, Buffer.note, Call.note?])
  rwa [List.append_nil] at hw

theorem append (h : Written base cs holes b) (bs : List UInt8) :
    Written base (cs ++ [.bytes bs]) holes (b.append bs) := by
  have hw : Written base (cs ++ [.bytes bs]) (holes ++ []) (b.append bs) :=
    h.concat rfl (fun hc => by cases hc) rfl (by simp [Buffer.append, Call.spell])
      (by simp [Buffer.append, Call.note?])
  rwa [List.append_nil] at hw

theorem reserve (h : Written base cs holes b) (name : String) (f : IntFormat) :
    Written base (cs ++ [.reserve name f]) (holes ++ [b.hole name f]) (b.reserve name f) :=
  h.concat rfl (fun hc => by cases hc) rfl
    (by simp [Buffer.reserve, Buffer.append, Buffer.note, Call.spell, IntFormat.spell_zero])
    (by simp [Buffer.reserve, Buffer.append, Buffer.note, Call.note?])

theorem fill (h : Written base cs holes b) {i : Nat} {hole : Hole} (hi : holes[i]? = some hole)
    {v : Int} (hb : b.fill hole v = .ok b') : Written base (cs ++ [.fill i v]) holes b' := by
  unfold Buffer.fill at hb
  cases he : hole.format.encode v with
  | error e =>
    rw [he] at hb
    cases hb
  | ok bs =>
    rw [he] at hb
    obtain ⟨hf, rfl⟩ := IntFormat.encode_eq_ok_iff.mp he
    cases hb
    have hi' := hi
    rw [h.reserved] at hi'
    obtain ⟨before, later, rfl, hn, hp⟩ := exists_of_holesFrom hi'
    have hv : ∀ k, value (before ++ .reserve hole.name hole.format :: later ++ [.fill i v]) k =
        if holeCount before = k then v else
          value (before ++ .reserve hole.name hole.format :: later) k := by
      intro k
      rw [hn]
      exact value_concat _ _ _
    refine ⟨h.start, ?_, ?_, ?_, ?_, ?_⟩
    · have hplace : (base.bytes.toList ++
          spell (value (before ++ .reserve hole.name hole.format :: later)) 0 before).length =
            hole.place := by
        rw [List.length_append, length_spell, hp, Array.length_toList]
      have hin : hole.place + (hole.format.spell v).length ≤ b.bytes.size := by
        rw [h.size, hp, IntFormat.length_spell, width_append]
        simp only [width, List.map_cons, List.sum_cons, Call.width]
        omega
      -- the bytes are cut where the hole starts and where it ends
      rw [toList_overwrite hin, h.bytes, spell_reserve, IntFormat.length_spell,
        ← List.append_assoc, List.take_left' hplace, ← List.append_assoc,
        List.drop_left' (by rw [List.length_append, hplace, IntFormat.length_spell]),
        spell_append, spell_refill hv]
      simp [spell, Call.spell]
    · rw [noted_concat]
      simpa [Call.note?] using h.notes
    · rw [h.reserved, holesFrom_concat]
      simp [Call.hole?]
    · intro name f w hm
      rcases List.mem_append.mp hm with hm | hm
      · exact h.fields hm
      · cases List.mem_singleton.mp hm
    · intro j w hm
      rcases List.mem_append.mp hm with hm | hm
      · exact h.fills hm
      · cases List.mem_singleton.mp hm
        exact ⟨hole, hi, hf⟩

theorem take_drop (h : Written base cs holes b) {before later : Transcript} {c : Call}
    (hcs : cs = before ++ c :: later) (rest : List UInt8) :
    ((b.bytes.toList.drop base.bytes.size ++ rest).drop before.width).take c.width =
      c.spell cs.value before.holeCount := by
  have hspell : spell cs.value 0 cs = spell cs.value 0 before ++
      (c.spell cs.value before.holeCount ++
        spell cs.value (before.holeCount + c.holes) later) := by
    conv => lhs; arg 3; rw [hcs]
    rw [spell_append, Nat.zero_add]
    rfl
  rw [h.bytes, List.drop_left' (Array.length_toList ..), hspell, List.append_assoc,
    List.drop_left' (length_spell ..), List.append_assoc, List.take_left' (Call.length_spell ..)]

theorem get?_noted (h : Written base cs holes b) (hn : (cs.filterMap Call.name?).Nodup)
    {before later : Transcript} {c : Call} (hcs : cs = before ++ c :: later) {n : Note}
    (hc : c.note? before.width = some n) (t : OffsetTable) :
    (t.recordAll b.notes.toList).get? n.name = some n.slot := by
  rw [h.notes, OffsetTable.recordAll_append]
  refine OffsetTable.get?_recordAll_of_nodup ?_ ?_ _
  · rw [map_name_noted]
    exact hn
  · rw [hcs]
    exact mem_noted hc

end Written

end Transcript

open Transcript

namespace Plan

/-- The induction is on the plan: each of its calls takes what is written by the calls before it one
call further. -/
theorem written_run {n : Nat} {p : Plan n} {holes : Vector Hole n} {base b : Buffer}
    {done rest : Transcript} (h : Written base done holes.toList b)
    (ht : p.transcript? done.width = some rest) (hr : (p.run holes b).1 = .ok ()) :
    ∃ holes', Written base (done ++ rest) holes' (p.run holes b).2 := by
  induction p generalizing b done rest with
  | done =>
    cases ht
    exact ⟨holes.toList, by rw [List.append_nil]; exact h⟩
  | fail e => cases ht
  | field name f v next ih =>
    obtain ⟨rest', ht', rfl⟩ := Option.map_eq_some_iff.mp ht
    rw [run] at hr ⊢
    cases hb : b.field name f v with
    | error e =>
      rw [hb] at hr
      cases hr
    | ok b' =>
      rw [hb] at hr
      have hw := ih (h.field hb) (by rw [width_append]; exact ht') hr
      rwa [List.append_assoc] at hw
  | mark name next ih =>
    obtain ⟨rest', ht', rfl⟩ := Option.map_eq_some_iff.mp ht
    have hw := ih (h.mark name) (by rw [width_append]; exact ht') hr
    rwa [List.append_assoc] at hw
  | bytes bs next ih =>
    obtain ⟨rest', ht', rfl⟩ := Option.map_eq_some_iff.mp ht
    have hw := ih (h.append bs) (by rw [width_append]; exact ht') hr
    rwa [List.append_assoc] at hw
  | reserve name f next ih =>
    obtain ⟨rest', ht', rfl⟩ := Option.map_eq_some_iff.mp ht
    have hp : (holes.push (b.hole name f)).toList = holes.toList ++ [b.hole name f] :=
      Vector.toList_push
    have hw := ih (by rw [hp]; exact h.reserve name f) (by rw [width_append]; exact ht') hr
    rwa [List.append_assoc] at hw
  | fill i v next ih =>
    obtain ⟨rest', ht', rfl⟩ := Option.map_eq_some_iff.mp ht
    rw [run] at hr ⊢
    cases hb : b.fill holes[i] v with
    | error e =>
      rw [hb] at hr
      cases hr
    | ok b' =>
      rw [hb] at hr
      have hi : holes.toList[i.val]? = some holes[i] := by simp
      have hw := ih (h.fill hi hb) (by rw [width_append]; exact ht') hr
      rwa [List.append_assoc] at hw
  | position next ih =>
    rw [run] at hr ⊢
    rw [h.position] at hr ⊢
    exact ih done.width h ht hr
  | record inner next ihInner ih => cases ht

/-- A record of distinct names, written without fault wherever it may be, is read back by the table
as it is right after it: every field and every filled hole has its value, a hole that is left
unfilled is zero, and a mark is at the number of bytes before it. Bytes that follow do not
matter. -/
theorem read_transcript {p : Plan 0} {cs : Transcript} (hp : p.transcript? 0 = some cs)
    (hn : (cs.filterMap Call.name?).Nodup) (hf : (cs.filterMap Call.filled?).Nodup)
    {b after : Buffer} {length : Nat} (hw : p.write b = (.ok length, after))
    (t : OffsetTable) (rest : List UInt8) :
    let table := t.recordAll after.notes.toList
    let record : View := ⟨b.bytes.size, after.bytes.toList.drop b.bytes.size ++ rest⟩
    after.bytes.size = b.bytes.size + cs.width ∧
    (∀ before name f v later, cs = before ++ .field name f v :: later →
      table.get? name = some ⟨width before, some f⟩ ∧ record.read (width before) f = .ok v) ∧
    (∀ before name f later, cs = before ++ .reserve name f :: later →
      table.get? name = some ⟨width before, some f⟩ ∧
      (∀ v, .fill (holeCount before) v ∈ cs → record.read (width before) f = .ok v) ∧
      ((∀ v, .fill (holeCount before) v ∉ cs) → IntFormat.supported f.bytes = true →
        record.read (width before) f = .ok 0)) ∧
    (∀ before name later, cs = before ++ .mark name :: later →
      table.get? name = some ⟨width before, none⟩) := by
  intro table record
  obtain ⟨hrun, -, rfl⟩ := write_eq_ok_iff.mp hw
  have hempty : Written b [] (#v[] : Vector Hole 0).toList b.enter := Written.nil b
  obtain ⟨holes, h⟩ := written_run hempty hp hrun
  rw [List.nil_append] at h
  refine ⟨h.size, ?_, ?_, ?_⟩
  · intro before name f v later hcs
    have hm : .field name f v ∈ cs := by simp [hcs]
    refine ⟨h.get?_noted hn hcs (n := ⟨name, width before, some f⟩) rfl t, ?_⟩
    exact View.read_eq_ok_iff.mpr ⟨h.fields hm, h.take_drop hcs rest⟩
  · intro before name f later hcs
    have hread := h.take_drop hcs rest
    refine ⟨h.get?_noted hn hcs (n := ⟨name, width before, some f⟩) rfl t, ?_, ?_⟩
    · intro v hv
      obtain ⟨hole, hi, hh⟩ := h.fills hv
      rw [h.reserved, hcs, holesFrom_reserve] at hi
      cases hi
      simp only [Call.spell, value_of_fill hf hv] at hread
      exact View.read_eq_ok_iff.mpr ⟨hh, hread⟩
    · intro hv hs
      have h0 : cs.value (holeCount before) = 0 := by
        cases value_cases cs (holeCount before) with
        | inl hm => exact absurd hm (hv _)
        | inr hm => exact hm.2
      simp only [Call.spell, h0] at hread
      exact View.read_eq_ok_iff.mpr ⟨IntFormat.holds_zero hs, hread⟩
  · intro before name later hcs
    exact h.get?_noted hn hcs (n := ⟨name, width before, none⟩) rfl t

theorem read_transcript_length :
    let p : Plan 0 := .field "A" ⟨2, true⟩ (-300) <| .reserve "LENGTH" .u16 <|
      .reserve "OPEN" ⟨3, false⟩ <| .mark "REST" <| .bytes [1, 2] <|
      .position fun length => .fill 0 length .done
    let cs : Transcript := [.field "A" ⟨2, true⟩ (-300), .reserve "LENGTH" .u16,
      .reserve "OPEN" ⟨3, false⟩, .mark "REST", .bytes [1, 2], .fill 0 9]
    let b : Buffer := ⟨#[7, 7, 7], 1, #[⟨"REST", 5, some .u8⟩]⟩
    let t := OffsetTable.ofEntries [("OPEN", ⟨9, none⟩), ("Z", ⟨0, none⟩)]
    let bytes : List UInt8 := [254, 212, 0, 9, 0, 0, 0, 1, 2]
    let after := (p.write b).2
    let table := t.recordAll after.notes.toList
    p.transcript? 0 = some cs ∧ p.write b = (.ok 9, after) ∧
      after.bytes.toList = [7, 7, 7] ++ bytes ∧ View.read ⟨3, bytes⟩ 0 ⟨2, true⟩ = .ok (-300) ∧
      table.get? "LENGTH" = some ⟨2, some .u16⟩ ∧ View.read ⟨3, bytes⟩ 2 .u16 = .ok 9 ∧
      table.get? "OPEN" = some ⟨4, some ⟨3, false⟩⟩ ∧ View.read ⟨3, bytes⟩ 4 ⟨3, false⟩ = .ok 0 ∧
      table.get? "REST" = some ⟨7, none⟩ := by
  intro p cs b t bytes after table
  have hp : p.transcript? 0 = some cs := by rfl
  have hw : p.write b = (.ok 9, after) := by rfl
  have hb : after.bytes.toList = [7, 7, 7] ++ bytes := by decide
  have hr : after.bytes.toList.drop b.bytes.size ++ [] = bytes := by
    rw [hb]
    rfl
  obtain ⟨-, hfield, hhole, hmark⟩ := read_transcript hp (by decide) (by decide) hw t []
  rw [hr] at hfield hhole
  obtain ⟨-, hread⟩ := hfield [] "A" ⟨2, true⟩ (-300) _ rfl
  obtain ⟨hlength, hfilled, -⟩ := hhole [_] "LENGTH" .u16 _ rfl
  obtain ⟨hopen, -, hzero⟩ := hhole [_, _] "OPEN" ⟨3, false⟩ _ rfl
  have hunfilled : ∀ v, .fill (holeCount [.field "A" ⟨2, true⟩ (-300), .reserve "LENGTH" .u16]) v ∉
      cs := by
    intro v hv
    simp [cs, holeCount, Call.holes] at hv
  exact ⟨hp, hw, hb, hread, hlength, hfilled 9 (by decide), hopen, hzero hunfilled rfl,
    hmark [_, _, _] "REST" _ rfl⟩

end Plan
end PixelFont
