import Mathlib.Data.List.Nodup
import PixelFont.Proofs.Bdf.Grammar
import PixelFont.Proofs.Text.Numeral
import PixelFont.Proofs.Text.Words
import PixelFont.Proofs.View

set_option autoImplicit false

namespace PixelFont

namespace CharCode

theorem natural?_code {cs : List Char} (hl : cs.length = 4) :
    ((Text.natural? 16 cs).bind fun n => toUInt16? n) =
      (Text.natural? 16 cs).map UInt16.ofNat := by
  cases hn : Text.natural? 16 cs with
  | none => rfl
  | some n =>
    have hlt : n < 65536 := by
      have := Text.natural?_lt hn
      rwa [hl] at this
    have hmod : (UInt16.ofNat n).toNat = n := by
      rw [UInt16.toNat_ofNat', Nat.mod_eq_of_lt hlt]
    rw [Option.bind_some, Option.map_some, toUInt16?_eq_some_iff, hmod]

theorem find?_notHex_eq_none (cs : List Char) (i : Nat) :
    (cs.zipIdx i).find? (fun (c, _) => (Text.digit? 16 c).isNone) = none ↔
      ∀ c ∈ cs, (Text.digit? 16 c).isSome = true := by
  induction cs generalizing i with
  | nil => simp
  | cons c cs ih =>
    rw [List.zipIdx_cons, List.find?_cons, List.forall_mem_cons]
    cases hd : Text.digit? 16 c with
    | none => simp [hd]
    | some d =>
      simp only [hd]
      exact (ih (i + 1)).trans (and_iff_right rfl).symm

theorem unsigned?_of_digits {cs : List Char}
    (h : ∀ c ∈ cs, (Text.digit? 16 c).isSome = true) :
    Text.unsigned? cs 16 = Text.natural? 16 cs := by
  refine Text.unsigned?_of_head? fun hhead => ?_
  have hplus := h '+' (List.mem_of_mem_head? hhead)
  cases hplus

theorem parse_eq_ok_iff {cs : List Char} {c : CharCode} :
    parse cs = .ok c ↔ (if cs.length = 4 then
      ((Text.natural? 16 cs).bind fun n => toUInt16? n).map CharCode.mk else none) = some c := by
  rw [parse, digitCount]
  by_cases hl : cs.length = 4
  · rw [if_neg (not_not_intro hl), if_pos hl]
    cases hfind : cs.zipIdx.find? (fun (c, _) => (Text.digit? 16 c).isNone) with
    | some found =>
      have hnone : Text.natural? 16 cs = none := by
        rw [← Option.not_isSome_iff_eq_none, Text.natural?_isSome_iff]
        intro hd
        rw [(find?_notHex_eq_none cs 0).mpr hd.2] at hfind
        cases hfind
      simp [hnone]
    | none =>
      have hd := (find?_notHex_eq_none cs 0).mp hfind
      rw [unsigned?_of_digits hd]
      cases ((Text.natural? 16 cs).bind fun n => toUInt16? n) <;> simp
  · simp [hl]

end CharCode

namespace Bdf

namespace Line

theorem words_ofText (cs : List Char) :
    (ofText cs).word = wordAt cs 0 ∧ (ofText cs).arguments = (Text.words cs).tail := by
  obtain ⟨word, rest, h⟩ : ∃ word rest,
      (Text.trimStart cs).span (fun c => !Text.isBlank c) = (word, rest) := ⟨_, _, rfl⟩
  simp only [wordAt, arguments, ofText, h, Text.words_trim]
  rcases Text.words_eq_of_span h with ⟨rfl, rfl, hw⟩ | ⟨-, hw⟩ <;> simp [hw]

theorem word_ofText (cs : List Char) : (ofText cs).word = wordAt cs 0 := (words_ofText cs).1

theorem argument_ofText (cs : List Char) (i : Nat) :
    (ofText cs).argument i = wordAt cs (i + 1) := by
  rw [argument, (words_ofText cs).2, wordAt]
  simp [List.getD_eq_getElem?_getD]

end Line

namespace Keyword

theorem mem_all (k : Keyword) : k ∈ all := by
  cases k <;> decide

theorem text_injective {k k' : Keyword}
    (h : k.text.toList.map Char.toLower = k'.text.toList.map Char.toLower) : k = k' := by
  have hall : (all.map fun k => k.text.toList.map Char.toLower).Nodup := by decide
  exact List.inj_on_of_nodup_map hall (mem_all k) (mem_all k') h

theorem ofWord?_eq_some_iff {word : List Char} {k : Keyword} :
    ofWord? word = some k ↔ Text.sameWord k.text.toList word = true := by
  have hfound (k' : Keyword) (h : ofWord? word = some k') :
      Text.sameWord k'.text.toList word = true := by
    rw [ofWord?] at h
    simpa using List.find?_some h
  constructor
  · exact hfound k
  · intro h
    have hsome : (ofWord? word).isSome = true :=
      List.find?_isSome.mpr ⟨k, mem_all k, h⟩
    obtain ⟨k', hk'⟩ := Option.isSome_iff_exists.mp hsome
    have h' := hfound k' hk'
    rw [hk', text_injective ((beq_iff_eq.mp h').trans (beq_iff_eq.mp h).symm)]

end Keyword

theorem keyword?_ofText {cs : List Char} {k : Keyword} :
    (Line.ofText cs).keyword? = some k ↔ names k cs = true := by
  rw [Line.keyword?, Line.word_ofText, Keyword.ofWord?_eq_some_iff, names]

theorem names_unique {cs : List Char} {k k' : Keyword} (h : names k cs = true)
    (h' : names k' cs = true) : k = k' :=
  Option.some.inj ((keyword?_ofText.mpr h).symm.trans (keyword?_ofText.mpr h'))

theorem names_eq_decide {cs : List Char} {k : Keyword} (h : names k cs = true) (k' : Keyword) :
    names k' cs = decide (k' = k) := by
  rw [Bool.eq_iff_iff, decide_eq_true_iff]
  exact ⟨fun h' => names_unique h' h, fun hk => hk ▸ h⟩

theorem names_eq_false_of_keyword? {cs : List Char} (h : (Line.ofText cs).keyword? = none)
    (k : Keyword) : names k cs = false := by
  rw [Bool.eq_false_iff]
  intro hk
  rw [keyword?_ofText.mpr hk] at h
  cases h

section Values

variable {cs : List Char}

theorem unsigned_eq_ok_iff {k : Keyword} {i : Nat} {v : UInt32} :
    (Line.ofText cs).unsigned k i = .ok v ↔ number? cs (i + 1) = some v := by
  rw [Line.unsigned, Line.argument_ofText, number?]
  split <;> simp [*]

theorem signed_eq_ok_iff {k : Keyword} {i : Nat} {v : Int32} :
    (Line.ofText cs).signed k i = .ok v ↔ offset? cs (i + 1) = some v := by
  rw [Line.signed, Line.argument_ofText, offset?]
  split <;> simp [*]

theorem box_eq_ok_iff {k : Keyword} {b : Box} :
    (Line.ofText cs).box k = .ok b ↔ box? cs = some b := by
  simp only [Line.box, box?, bind_eq_ok_iff, Option.bind_eq_bind, Option.bind_eq_some_iff,
    unsigned_eq_ok_iff, signed_eq_ok_iff]
  simp [pure, Except.pure]

theorem advance_eq_ok_iff {k : Keyword} {a : Advance} :
    (Line.ofText cs).advance k = .ok a ↔ advance? cs = some a := by
  simp only [Line.advance, advance?, bind_eq_ok_iff, Option.bind_eq_bind, Option.bind_eq_some_iff,
    unsigned_eq_ok_iff]
  simp [pure, Except.pure]

end Values

theorem code_eq_ok_iff {cs : List Char} {c : CharCode} :
    (Line.ofText cs).code = .ok c ↔ code? cs = some c := by
  rw [Line.code, mapError_eq_ok_iff, Line.argument_ofText, CharCode.parse_eq_ok_iff, code?]

section Rows

/-- What a hexadecimal digit stands for. Any other character counts as a zero. -/
def digitValue (c : Char) : Nat := (Text.digit? 16 c).getD 0

theorem pixelAt_cons_lt (c : Char) (cs : List Char) {x : Nat} (hx : x < 4) :
    pixelAt (c :: cs) x = (digitValue c).testBit (3 - x) := by
  simp [pixelAt, digitValue, Nat.div_eq_of_lt hx, Nat.mod_eq_of_lt hx]

theorem pixelAt_cons_add (c : Char) (cs : List Char) (x : Nat) :
    pixelAt (c :: cs) (4 + x) = pixelAt cs x := by
  rw [pixelAt, pixelAt, Nat.add_mod_left, Nat.add_comm 4 x, Nat.add_div_right x (by decide),
    List.getElem?_cons_succ]

theorem map_pixelAt (row : List Char) :
    (List.range (4 * row.length)).map (pixelAt row) =
      (row.map digitValue).flatMap nibbleBits := by
  induction row with
  | nil => rfl
  | cons c cs ih =>
    have hhead : (List.range 4).map (pixelAt (c :: cs)) = nibbleBits (digitValue c) := by
      simp [List.range, List.range.loop, nibbleBits, pixelAt_cons_lt c cs]
    have htail : pixelAt (c :: cs) ∘ (4 + ·) = pixelAt cs := funext (pixelAt_cons_add c cs)
    rw [List.map_cons, List.flatMap_cons, ← ih, List.length_cons, Nat.mul_succ, Nat.add_comm,
      List.range_add, List.map_append, List.map_map, hhead, htail]

theorem eq_map_of_mapM_digits {row : List Char} {digits : List Nat}
    (h : row.mapM (Text.digit? 16) = some digits) :
    digits = row.map digitValue := by
  induction row generalizing digits with
  | nil =>
    cases h
    rfl
  | cons c cs ih =>
    rw [List.mapM_cons] at h
    obtain ⟨d, hd, h⟩ := Option.bind_eq_some_iff.mp h
    obtain ⟨ds, hds, h⟩ := Option.bind_eq_some_iff.mp h
    cases h
    rw [List.map_cons, digitValue, hd, Option.getD_some, ← ih hds]

theorem isSome_mapM_digits {row : List Char} :
    (row.mapM (Text.digit? 16)).isSome = true ↔ ∀ c ∈ row, (Text.digit? 16 c).isSome = true := by
  induction row with
  | nil => simp
  | cons c cs ih =>
    rw [List.mapM_cons, List.forall_mem_cons, ← ih]
    cases Text.digit? 16 c with
    | none => simp
    | some d => cases cs.mapM (Text.digit? 16) <;> simp

/-- The characters of a row are looked at first, then their number. -/
theorem rowPixels_eq (row : List Char) (width : UInt32) :
    rowPixels row width =
      if row.all fun c => (Text.digit? 16 c).isSome then
        if width.toNat ≤ 4 * row.length then
          .ok ((List.range width.toNat).map (pixelAt row))
        else .error (.shortRow width (4 * row.length))
      else .error (.notHex (String.ofList row)) := by
  simp only [rowPixels, List.all_eq_true, ← isSome_mapM_digits]
  cases hd : row.mapM (Text.digit? 16) with
  | none => simp
  | some digits =>
    have hpixels : digits.flatMap nibbleBits =
        (List.range (4 * row.length)).map (pixelAt row) := by
      rw [map_pixelAt, eq_map_of_mapM_digits hd]
    simp only [hpixels, List.length_map, List.length_range, Option.isSome_some, if_true]
    by_cases hw : width.toNat ≤ 4 * row.length
    · rw [if_neg (Nat.not_lt.mpr hw), if_pos hw, ← List.map_take, List.take_range,
        Nat.min_eq_left hw]
    · rw [if_pos (Nat.lt_of_not_le hw), if_neg hw]

theorem rowPixels_eq_ok_iff {line : List Char} {width : UInt32} {row : List Bool} :
    rowPixels (Text.trim line) width = .ok row ↔
      IsRow width line ∧ row = pixels width line := by
  rw [rowPixels_eq, IsRow, pixels, ← List.all_eq_true]
  split
  · next hd =>
    rw [and_iff_right hd]
    split <;> simp [*, eq_comm]
  · next hd => simp [hd]

theorem toNat_lt_of_digit {base : Nat} {c : Char} (h : (Text.digit? base c).isSome = true) :
    c.toNat < 103 := by
  have hle (d : Char) (hd : c ≤ d) : c.toNat ≤ d.toNat := UInt32.le_iff_toNat_le.mp hd
  rw [Text.digit?] at h
  split at h
  · next hc => exact Nat.lt_of_le_of_lt (hle _ hc.2) (by decide)
  split at h
  · next hc => exact Nat.lt_of_le_of_lt (hle _ hc.2) (by decide)
  split at h
  · next hc => exact Nat.lt_of_le_of_lt (hle _ hc.2) (by decide)
  · cases h

theorem of_digit {p : Char → Prop}
    (hall : ∀ n < 103, (Text.digit? 16 (Char.ofNat n)).isSome = true → p (Char.ofNat n)) {c : Char}
    (h : (Text.digit? 16 c).isSome = true) : p c := by
  have hc := hall c.toNat (toNat_lt_of_digit h)
  rw [Char.ofNat_toNat] at hc
  exact hc h

/-- No row of pixels is taken for a line with a keyword: each keyword has a letter that is not a
digit. -/
theorem IsRow.names_eq_false {width : UInt32} {line : List Char} (h : IsRow width line)
    (k : Keyword) : names k line = false := by
  rw [Bool.eq_false_iff]
  intro hn
  have hword : k.text.toList.map Char.toLower = (wordAt line 0).map Char.toLower := beq_iff_eq.mp hn
  have hall : (Keyword.all.all fun k => (k.text.toList.map Char.toLower).any fun d =>
      (Text.digit? 16 d).isNone) = true := by decide
  have hletter := List.all_eq_true.mp hall k (Keyword.mem_all k)
  rw [hword] at hletter
  obtain ⟨d, hd, hletter⟩ := List.any_eq_true.mp hletter
  obtain ⟨c, hc, rfl⟩ := List.mem_map.mp hd
  have hmem : wordAt line 0 ∈ Text.words (Text.trim line) := by
    rw [Text.words_trim]
    rw [wordAt] at hc ⊢
    cases hw : Text.words line with
    | nil => simp [hw] at hc
    | cons word words => exact List.mem_cons_self
  have hdigit := h.1 c (Text.mem_of_mem_words hmem hc)
  have hlower : (Text.digit? 16 c.toLower).isSome = true :=
    of_digit (p := fun c => (Text.digit? 16 c.toLower).isSome = true) (by decide) hdigit
  rw [Option.isNone_iff_eq_none.mp hletter] at hlower
  cases hlower

end Rows

end Bdf
end PixelFont
