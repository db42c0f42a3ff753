import Mathlib.Data.List.Forall2
import PixelFont.Proofs.Except
import PixelFont.Proofs.JsonValue.Atom

set_option autoImplicit false

namespace PixelFont.JsonValue

def Spaces (cs : List Char) : Prop := ∀ c ∈ cs, isSpace c = true

theorem skipSpace_append {space : List Char} (h : Spaces space) (cs : List Char) :
    skipSpace (space ++ cs) = skipSpace cs := List.dropWhile_append_of_pos h

theorem skipSpace_cons {c : Char} (h : isSpace c = false) (cs : List Char) :
    skipSpace (c :: cs) = c :: cs := List.dropWhile_cons_of_neg (by simp [h])

theorem numberEnds_cons {c : Char} (h : c.isDigit = false ∧ c ≠ '.' ∧ c ≠ 'e' ∧ c ≠ 'E')
    (cs : List Char) : NumberEnds (c :: cs) := by
  intro d hd
  rw [List.head?_cons, Option.some.injEq] at hd
  exact hd ▸ h

theorem numberEnds_append {space : List Char} (hs : Spaces space) {rest : List Char}
    (h : NumberEnds rest) : NumberEnds (space ++ rest) := by
  cases space with
  | nil => exact h
  | cons c space =>
    have hc := hs c List.mem_cons_self
    simp only [isSpace, Bool.or_eq_true, decide_eq_true_eq, or_assoc] at hc
    obtain rfl | rfl | rfl | rfl := hc <;> exact numberEnds_cons (by decide) _

/-- The text is read as the value, whatever follows. -/
def Reads (v : JsonValue) (cs : List Char) : Prop :=
  ∀ (fuel : Nat) (rest : List Char), 2 * cs.length ≤ fuel → NumberEnds rest →
    readValue (fuel + 1) (cs ++ rest) = some (v, rest)

section Steps

-- what each reader does once it has seen the first character that is no space
variable (fuel : Nat) (cs : List Char)

theorem readValue_quote : readValue (fuel + 1) ('"' :: cs) = (readText cs).bind fun
    | (some s, rest) => some (.text s, rest)
    | (none, rest) => some (.other (written ('"' :: cs) rest), rest) := rfl

theorem readValue_bracket : readValue (fuel + 1) ('[' :: cs) = match skipSpace cs with
    | ']' :: rest => some (.list [], rest)
    | cs => (readItems fuel cs).bind fun (vs, rest) => some (.list vs, rest) := rfl

theorem readValue_brace : readValue (fuel + 1) ('{' :: cs) = match skipSpace cs with
    | '}' :: rest => some (.object [], rest)
    | r => (readMembers fuel r).bind fun (ms, rest) =>
      some (ofMembers ('{' :: cs) rest ms, rest) := rfl

theorem readItems_succ : readItems (fuel + 1) cs = (readValue fuel cs).bind fun (v, r) =>
    match skipSpace r with
    | ']' :: rest => some ([v], rest)
    | ',' :: r => (readItems fuel r).bind fun (vs, rest) => some (v :: vs, rest)
    | _ => none := rfl

theorem readMembers_quote : readMembers (fuel + 1) ('"' :: cs) = (readText cs).bind fun (k, r) =>
    match skipSpace r with
    | ':' :: r => (readValue fuel r).bind fun (v, r) => match skipSpace r with
      | '}' :: rest => some ([(k, v)], rest)
      | ',' :: r => (readMembers fuel r).bind fun (ms, rest) => some ((k, v) :: ms, rest)
      | _ => none
    | _ => none := rfl

end Steps

theorem readValue_append {space : List Char} (h : Spaces space) (fuel : Nat) (cs : List Char) :
    readValue fuel (space ++ cs) = readValue fuel cs := by
  cases fuel with
  | zero => rfl
  | succ fuel => rw [readValue, readValue, skipSpace_append h]

theorem Reads.space {v : JsonValue} {space cs : List Char} (hs : Spaces space) (h : Reads v cs) :
    Reads v (space ++ cs) := by
  intro fuel rest hfuel hrest
  rw [List.length_append] at hfuel
  rw [List.append_assoc, readValue_append hs]
  exact h fuel rest (by omega) hrest

theorem reads_null : Reads .null "null".toList := fun _ _ _ _ => rfl

theorem reads_bool (b : Bool) : Reads (.bool b) (toString b).toList := by
  cases b <;> exact fun _ _ _ _ => rfl

theorem reads_text (s : String) : Reads (.text s) (quote s) := by
  intro fuel rest _ _
  have htext : quote s ++ rest = '"' :: (s.toList.flatMap escape ++ '"' :: rest) := by
    simp [quote]
  rw [htext, readValue_quote, readText_quote]
  rfl

theorem readValue_number {c : Char} (h : c.isDigit = true ∨ c = '-') (fuel : Nat)
    (cs : List Char) : readValue (fuel + 1) (c :: cs) = readNumber (c :: cs) := by
  have hspace : isSpace c = false := by
    cases hs : isSpace c with
    | false => rfl
    | true =>
      simp only [isSpace, Bool.or_eq_true, decide_eq_true_eq, or_assoc] at hs
      obtain rfl | rfl | rfl | rfl := hs <;> exact absurd h (by decide)
  rw [readValue, skipSpace_cons hspace]
  split
  case h_7 => rfl
  all_goals
    next heq =>
    cases heq
    exact absurd h (by decide)

theorem reads_integer (i : Int) : Reads (.integer i) (toString i).toList := by
  intro fuel rest _ hrest
  obtain ⟨c, cs, htext, hc⟩ :
      ∃ c cs, (toString i).toList = c :: cs ∧ (c.isDigit = true ∨ c = '-') := by
    rw [toList_integer, Text.integer]
    split
    · exact ⟨'-', _, rfl, .inr rfl⟩
    · obtain ⟨c, cs, h⟩ := List.exists_cons_of_ne_nil (Text.isDecimal_toDigits i.natAbs).ne_nil
      exact ⟨c, cs, h, .inl ((Text.isDecimal_toDigits i.natAbs).digits c (by simp [h]))⟩
  rw [← readNumber_integer i hrest, htext]
  exact readValue_number hc fuel (cs ++ rest)

section Lists

variable {v : JsonValue} {vs : List JsonValue} {cs rest : List Char} {fuel : Nat}

theorem readItems_last {close : List Char} (hc : Spaces close)
    (h : readValue fuel cs = some (v, close ++ ']' :: rest)) :
    readItems (fuel + 1) cs = some ([v], rest) := by
  rw [readItems_succ, h]
  simp [skipSpace_append hc, skipSpace_cons (by decide : isSpace ']' = false)]

theorem readItems_next {more : List Char} (h : readValue fuel cs = some (v, ',' :: more))
    (hmore : readItems fuel more = some (vs, rest)) :
    readItems (fuel + 1) cs = some (v :: vs, rest) := by
  rw [readItems_succ, h]
  simp [hmore, skipSpace_cons (by decide : isSpace ',' = false)]

theorem readItems_append {space : List Char} (h : Spaces space) :
    readItems fuel (space ++ cs) = readItems fuel cs := by
  cases fuel with
  | zero => rfl
  | succ fuel => rw [readItems_succ, readItems_succ, readValue_append h]

theorem readItems_bracket : readItems fuel (']' :: cs) = none := by
  rcases fuel with - | - | fuel
  · rfl
  · rfl
  · rfl

theorem readItems_intercalate {texts : List (List Char)} {close : List Char} (hc : Spaces close)
    (h : List.Forall₂ Reads vs texts) (hne : vs ≠ []) (fuel : Nat) (rest : List Char)
    (hfuel : 2 * ([','].intercalate texts ++ close ++ [']']).length ≤ fuel) :
    readItems (fuel + 2) ([','].intercalate texts ++ close ++ ']' :: rest) = some (vs, rest) := by
  induction h generalizing fuel with
  | nil => exact absurd rfl hne
  | @cons v text vs texts hv htexts ih =>
    cases htexts with
    | nil =>
      refine readItems_last hc ?_
      simp at hfuel ⊢
      refine hv fuel _ (by omega) (numberEnds_append hc (numberEnds_cons (by decide) _))
    | @cons w next vs texts hw htexts =>
      rw [List.intercalate_cons_cons] at hfuel ⊢
      obtain ⟨fuel, rfl⟩ : ∃ n, fuel = n + 1 := ⟨fuel - 1, by simp at hfuel; omega⟩
      refine readItems_next ?_ (ih (by simp) fuel (by simp at hfuel ⊢; omega))
      simp only [List.append_assoc, List.cons_append, List.nil_append]
      exact hv _ _ (by simp at hfuel; omega) (numberEnds_cons (by decide) _)

theorem readItems_skipSpace : readItems fuel (skipSpace cs) = readItems fuel cs := by
  have hspace : Spaces (cs.takeWhile isSpace) := List.all_eq_true.mp List.all_takeWhile
  rw [← readItems_append hspace]
  exact congrArg _ List.takeWhile_append_dropWhile

theorem readValue_items (h : readItems fuel cs = some (vs, rest)) :
    readValue (fuel + 1) ('[' :: cs) = some (.list vs, rest) := by
  rw [← readItems_skipSpace] at h
  rw [readValue_bracket]
  split
  · next heq =>
    rw [heq, readItems_bracket] at h
    cases h
  · rw [h]
    rfl

theorem reads_list {texts : List (List Char)} {close : List Char} (hc : Spaces close)
    (h : List.Forall₂ Reads vs texts) (hne : vs ≠ []) :
    Reads (.list vs) ('[' :: ([','].intercalate texts ++ close ++ [']'])) := by
  intro fuel rest hfuel _
  obtain ⟨fuel, rfl⟩ : ∃ n, fuel = n + 2 := ⟨fuel - 2, by simp at hfuel; omega⟩
  rw [List.cons_append, List.append_assoc]
  refine readValue_items ?_
  exact readItems_intercalate hc h hne fuel rest (by simp at hfuel ⊢; omega)

end Lists

section Objects

variable {k : String} {v : JsonValue} {ms : List (String × JsonValue)} {cs text rest : List Char}
  {fuel : Nat}

def ReadsMember (m : String × JsonValue) (cs : List Char) : Prop :=
  ∃ space text, cs = space ++ (quote m.1 ++ ':' :: text) ∧ Spaces space ∧ Reads m.2 text

def keyed (ms : List (String × JsonValue)) : List (Option String × JsonValue) :=
  ms.map fun (k, v) => (some k, v)

theorem ofMembers_keyed : ofMembers cs rest (keyed ms) = .object ms := by
  rw [ofMembers, keyed, mapM_map_eq_some]
  exact fun _ _ => rfl

theorem toList_quote_append : quote k ++ cs = '"' :: (k.toList.flatMap escape ++ '"' :: cs) := by
  simp [quote]

theorem readMembers_append {space : List Char} (h : Spaces space) :
    readMembers fuel (space ++ cs) = readMembers fuel cs := by
  cases fuel with
  | zero => rfl
  | succ fuel => rw [readMembers, readMembers, skipSpace_append h]

theorem readMembers_last {close : List Char} (hc : Spaces close)
    (h : readValue fuel cs = some (v, close ++ '}' :: rest)) :
    readMembers (fuel + 1) (quote k ++ ':' :: cs) = some (keyed [(k, v)], rest) := by
  rw [toList_quote_append, readMembers_quote, readText_quote]
  simp [skipSpace_cons (by decide : isSpace ':' = false), h, skipSpace_append hc,
    skipSpace_cons (by decide : isSpace '}' = false), keyed]

theorem readMembers_next {more : List Char} (h : readValue fuel cs = some (v, ',' :: more))
    (hmore : readMembers fuel more = some (keyed ms, rest)) :
    readMembers (fuel + 1) (quote k ++ ':' :: cs) = some (keyed ((k, v) :: ms), rest) := by
  rw [toList_quote_append, readMembers_quote, readText_quote]
  simp [skipSpace_cons (by decide : isSpace ':' = false), h, hmore,
    skipSpace_cons (by decide : isSpace ',' = false), keyed]

theorem readMembers_intercalate {texts : List (List Char)} {close : List Char}
    (hc : Spaces close) (h : List.Forall₂ ReadsMember ms texts) (hne : ms ≠ []) (fuel : Nat)
    (rest : List Char)
    (hfuel : 2 * ([','].intercalate texts ++ close ++ ['}']).length ≤ fuel) :
    readMembers (fuel + 2) ([','].intercalate texts ++ close ++ '}' :: rest) =
      some (keyed ms, rest) := by
  induction h generalizing fuel with
  | nil => exact absurd rfl hne
  | @cons m text ms texts hm htexts ih =>
    obtain ⟨space, value, rfl, hs, hv⟩ := hm
    cases htexts with
    | nil =>
      simp only [List.intercalate_singleton, List.append_assoc, List.cons_append] at hfuel ⊢
      rw [readMembers_append hs]
      refine readMembers_last hc ?_
      exact hv fuel _ (by simp at hfuel; omega)
        (numberEnds_append hc (numberEnds_cons (by decide) _))
    | @cons n next ms texts hn htexts =>
      rw [List.intercalate_cons_cons] at hfuel ⊢
      obtain ⟨fuel, rfl⟩ : ∃ n, fuel = n + 1 := ⟨fuel - 1, by simp at hfuel; omega⟩
      have hrest := ih (by simp) fuel (by simp at hfuel ⊢; omega)
      simp only [List.append_assoc, List.cons_append, List.nil_append] at hrest ⊢
      rw [readMembers_append hs]
      refine readMembers_next ?_ hrest
      exact hv _ _ (by simp at hfuel; omega) (numberEnds_cons (by decide) _)

theorem readMembers_brace : readMembers fuel ('}' :: cs) = none := by
  cases fuel <;> rfl

theorem readMembers_skipSpace : readMembers fuel (skipSpace cs) = readMembers fuel cs := by
  have hspace : Spaces (cs.takeWhile isSpace) := List.all_eq_true.mp List.all_takeWhile
  rw [← readMembers_append hspace]
  exact congrArg _ List.takeWhile_append_dropWhile

theorem readValue_members (h : readMembers fuel cs = some (keyed ms, rest)) :
    readValue (fuel + 1) ('{' :: cs) = some (.object ms, rest) := by
  rw [← readMembers_skipSpace] at h
  rw [readValue_brace]
  split
  · next heq =>
    rw [heq, readMembers_brace] at h
    cases h
  · rw [h]
    exact congrArg (fun v => some (v, rest)) ofMembers_keyed

theorem reads_object {texts : List (List Char)} {close : List Char} (hc : Spaces close)
    (h : List.Forall₂ ReadsMember ms texts) (hne : ms ≠ []) :
    Reads (.object ms) ('{' :: ([','].intercalate texts ++ close ++ ['}'])) := by
  intro fuel rest hfuel _
  obtain ⟨fuel, rfl⟩ : ∃ n, fuel = n + 2 := ⟨fuel - 2, by simp at hfuel; omega⟩
  rw [List.cons_append, List.append_assoc]
  refine readValue_members ?_
  exact readMembers_intercalate hc h hne fuel rest (by simp at hfuel ⊢; omega)

end Objects

theorem Reads.ofText? {v : JsonValue} {cs : List Char} (h : Reads v cs) :
    JsonValue.ofText? (String.ofList cs) = some v := by
  have hread := h (2 * cs.length + 1) [] (Nat.le_succ _) (by simp [NumberEnds])
  rw [List.append_nil, Nat.add_assoc] at hread
  rw [JsonValue.ofText?, String.toList_ofList, hread]
  rfl

end PixelFont.JsonValue
