import PixelFont.Proofs.Text.Words

set_option autoImplicit false

namespace PixelFont.Text

/-- The text is made of these lines. Each is ended by a line feed, with a carriage return before it
or without; the last one may also end where the text does. -/
inductive Ended : List (List Char) → List Char → Prop
  | nil : Ended [] []
  | last {line : List Char} (hne : line ≠ []) (hl : '\n' ∉ line) : Ended [line] line
  | lineFeed {line rest : List Char} {others : List (List Char)} (hl : '\n' ∉ line)
      (hr : line.getLast? ≠ some '\r') (h : Ended others rest) :
      Ended (line :: others) (line ++ '\n' :: rest)
  | carriageReturn {line rest : List Char} {others : List (List Char)} (hl : '\n' ∉ line)
      (h : Ended others rest) : Ended (line :: others) (line ++ '\r' :: '\n' :: rest)

theorem pieces_lineFeed {line : List Char} (h : '\n' ∉ line) : pieces (· = '\n') line = [line] :=
  pieces_of_none fun _ hc => decide_eq_false fun he => h (he ▸ hc)

theorem pieces_flatMap_lineFeed {ls : List (List Char)} (h : ∀ line ∈ ls, '\n' ∉ line)
    (rest : List Char) :
    pieces (· = '\n') (ls.flatMap (· ++ ['\n']) ++ rest) = ls ++ pieces (· = '\n') rest := by
  induction ls with
  | nil => rfl
  | cons line ls ih =>
    rw [List.forall_mem_cons] at h
    rw [List.flatMap_cons, List.append_assoc, List.append_assoc, List.singleton_append,
      pieces_append_cons (by decide), pieces_lineFeed h.1, ih h.2]
    rfl

theorem lines_append_lineFeed {line : List Char} (h : '\n' ∉ line) (rest : List Char) :
    lines (line ++ '\n' :: rest) = dropReturn line :: lines rest := by
  have hne := pieces_ne_nil (· = '\n') rest
  simp only [lines]
  rw [pieces_append_cons (by decide), pieces_lineFeed h, List.singleton_append,
    List.dropLast_cons_of_ne_nil hne, List.getLast?_cons, Option.getD_of_ne_none (by simpa),
    List.map_cons, List.cons_append]

theorem dropReturn_append (line : List Char) : dropReturn (line ++ ['\r']) = line := by
  simp [dropReturn]

theorem dropReturn_isPrefix (cs : List Char) : dropReturn cs <+: cs := by
  rw [dropReturn]
  split
  · exact List.dropLast_prefix cs
  · exact List.prefix_rfl

theorem Ended.lines {ls : List (List Char)} {cs : List Char} (h : Ended ls cs) :
    Text.lines cs = ls := by
  induction h with
  | nil => rfl
  | last hne hl => simp [Text.lines, pieces_lineFeed hl, hne]
  | lineFeed hl hr h ih => rw [lines_append_lineFeed hl, ih, dropReturn, if_neg hr]
  | @carriageReturn line rest others hl h ih =>
    have hl' : '\n' ∉ line ++ ['\r'] := by simp [hl]
    rw [← List.singleton_append, ← List.append_assoc, lines_append_lineFeed hl', ih,
      dropReturn_append]

theorem lines_of_lineFeed_notMem {cs : List Char} (h : '\n' ∉ cs) :
    lines cs = if cs = [] then [] else [cs] := by
  split
  · next hcs => exact hcs ▸ Ended.nil.lines
  · next hcs => exact (Ended.last hcs h).lines

theorem lineFeed_cases (cs : List Char) :
    '\n' ∉ cs ∨ ∃ line rest, cs = line ++ '\n' :: rest ∧ '\n' ∉ line := by
  by_cases h : '\n' ∈ cs
  · obtain ⟨line, rest, rfl, hl⟩ := List.eq_append_cons_of_mem h
    exact .inr ⟨line, rest, rfl, hl⟩
  · exact .inl h

theorem ended_lines (cs : List Char) : Ended (Text.lines cs) cs := by
  induction hn : cs.length using Nat.strong_induction_on generalizing cs with
  | _ n ih =>
    subst hn
    rcases lineFeed_cases cs with hl | ⟨line, rest, rfl, hl⟩
    · rw [lines_of_lineFeed_notMem hl]
      split
      · next hcs => exact hcs ▸ .nil
      · next hcs => exact .last hcs hl
    · have hrest := ih rest.length (by simp; omega) rest rfl
      rw [lines_append_lineFeed hl]
      by_cases hr : line.getLast? = some '\r'
      · obtain ⟨line, rfl⟩ := List.getLast?_eq_some_iff.mp hr
        rw [dropReturn_append, List.append_assoc]
        exact .carriageReturn (fun h => hl (List.mem_append_left _ h)) hrest
      · rw [dropReturn, if_neg hr]
        exact .lineFeed hl hr hrest

/-- A text is made of the lines that it is cut into, and of no others. -/
theorem ended_iff_lines {ls : List (List Char)} {cs : List Char} :
    Ended ls cs ↔ Text.lines cs = ls :=
  ⟨Ended.lines, fun h => h ▸ ended_lines cs⟩

theorem Ended.lineFeed_notMem {ls : List (List Char)} {cs : List Char} (h : Ended ls cs) :
    ∀ line ∈ ls, '\n' ∉ line := by
  induction h with
  | nil => simp
  | last _ hl => simpa using hl
  | lineFeed hl _ _ ih => exact List.forall_mem_cons.mpr ⟨hl, ih⟩
  | carriageReturn hl _ ih => exact List.forall_mem_cons.mpr ⟨hl, ih⟩

theorem lineFeed_notMem_trimEnd {line cs : List Char} (h : line ∈ Text.lines cs) :
    '\n' ∉ trimEnd line :=
  fun hmem => (ended_lines cs).lineFeed_notMem line h (mem_of_mem_trimEnd hmem)

theorem ended_flatMap {ls : List (List Char)} (h : ∀ line ∈ ls, '\n' ∉ line) :
    Ended ls (ls.flatMap (· ++ ['\r', '\n'])) := by
  induction ls with
  | nil => exact .nil
  | cons line others ih =>
    rw [List.forall_mem_cons] at h
    rw [List.flatMap_cons, List.append_assoc]
    exact .carriageReturn h.1 (ih h.2)

instance (ls : List (List Char)) (cs : List Char) : Decidable (Ended ls cs) :=
  decidable_of_iff _ ended_iff_lines.symm

end PixelFont.Text
