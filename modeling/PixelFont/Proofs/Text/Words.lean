import Mathlib.Data.List.TakeDrop
import Mathlib.Data.List.TakeWhile
import PixelFont.Text

/-!
The words of a text. Main statement: `words_append_cons`, by which a blank parts the words before it
from those after it. It follows that blanks at either end do not matter, and that the first word is
what stands before the first blank.
-/

set_option autoImplicit false

namespace PixelFont.Text

def Blanks (cs : List Char) : Prop := ∀ c ∈ cs, isBlank c = true

def IsWord (cs : List Char) : Prop := cs ≠ [] ∧ ∀ c ∈ cs, isBlank c = false

instance (cs : List Char) : Decidable (Blanks cs) :=
  decidable_of_iff (cs.all isBlank = true) List.all_eq_true

instance (cs : List Char) : Decidable (IsWord cs) :=
  decidable_of_iff (cs ≠ [] ∧ cs.any isBlank = false) (by simp [IsWord])

theorem append_cons_inj_of_notMem {α : Type} {a : α} {as bs cs ds : List α} (hbs : a ∉ bs)
    (hds : a ∉ ds) : as ++ a :: bs = cs ++ a :: ds ↔ as = cs ∧ bs = ds := by
  refine ⟨fun h => ?_, fun ⟨has, hbs⟩ => by rw [has, hbs]⟩
  have key {x : List α} {bs ds : List α} (hbs : a ∉ bs) (h : a :: bs = x ++ a :: ds) : x = [] := by
    cases x with
    | nil => rfl
    | cons b x =>
      obtain ⟨-, rfl⟩ := List.cons.inj h
      exact absurd (by simp) hbs
  obtain ⟨x, rfl, hx⟩ | ⟨x, rfl, hx⟩ := List.append_eq_append_iff.mp h
  · obtain rfl := key hbs hx
    exact ⟨by simp, (List.cons.inj hx).2⟩
  · obtain rfl := key hds hx
    exact ⟨by simp, (List.cons.inj hx).2.symm⟩

theorem pieces_eq_splitOnP (p : Char → Bool) (cs : List Char) : pieces p cs = cs.splitOnP p := by
  induction cs with
  | nil => rfl
  | cons c cs ih => rw [pieces_cons, List.splitOnP_cons_eq_if_modifyHead, ih]

theorem pieces_ne_nil (p : Char → Bool) (cs : List Char) : pieces p cs ≠ [] := by
  rw [pieces_eq_splitOnP]
  exact List.splitOnP_ne_nil p cs

theorem pieces_append_cons {p : Char → Bool} {c : Char} (hc : p c = true) (as bs : List Char) :
    pieces p (as ++ c :: bs) = pieces p as ++ pieces p bs := by
  simp only [pieces_eq_splitOnP]
  exact List.splitOnP_append_cons as bs hc

theorem pieces_of_none {p : Char → Bool} {cs : List Char} (h : ∀ c ∈ cs, p c = false) :
    pieces p cs = [cs] := by
  rw [pieces_eq_splitOnP]
  exact List.splitOnP_eq_singleton h

theorem pieces_append_of_none {p : Char → Bool} {as : List Char} (h : ∀ c ∈ as, p c = false)
    (bs : List Char) : pieces p (as ++ bs) = (pieces p bs).modifyHead (as ++ ·) := by
  induction as with
  | nil => exact (congrFun List.modifyHead_id _).symm
  | cons a as ih =>
    rw [List.forall_mem_cons] at h
    rw [List.cons_append, pieces_cons, h.1, ih h.2]
    exact List.modifyHead_modifyHead

theorem length_pieces (p : Char → Bool) (cs : List Char) :
    (pieces p cs).length = cs.countP p + 1 := by
  induction cs with
  | nil => rfl
  | cons c cs ih =>
    rw [pieces_cons, List.countP_cons]
    split
    · rw [List.length_cons, ih]
    · rw [List.length_modifyHead, ih]

theorem mem_of_mem_pieces {p : Char → Bool} {cs piece : List Char} (h : piece ∈ pieces p cs)
    {c : Char} (hc : c ∈ piece) : c ∈ cs := by
  induction cs generalizing piece with
  | nil =>
    rw [pieces_nil, List.mem_singleton] at h
    rwa [h] at hc
  | cons d cs ih =>
    rw [pieces_cons] at h
    split at h
    · rcases List.mem_cons.mp h with rfl | h
      · cases hc
      · exact List.mem_cons_of_mem d (ih h hc)
    · cases hp : pieces p cs with
      | nil => exact absurd hp (pieces_ne_nil p cs)
      | cons first others =>
        rw [hp, List.modifyHead_cons] at h
        rcases List.mem_cons.mp h with rfl | h
        · rcases List.mem_cons.mp hc with rfl | hc
          · exact List.mem_cons_self
          · exact List.mem_cons_of_mem d (ih (by rw [hp]; exact List.mem_cons_self) hc)
        · exact List.mem_cons_of_mem d (ih (by rw [hp]; exact List.mem_cons_of_mem _ h) hc)

theorem words_append_cons {c : Char} (hc : isBlank c = true) (as bs : List Char) :
    words (as ++ c :: bs) = words as ++ words bs := by
  rw [words, pieces_append_cons hc, List.filter_append]
  rfl

@[simp] theorem words_nil : words [] = [] := rfl

theorem words_cons_blank {c : Char} (hc : isBlank c = true) (cs : List Char) :
    words (c :: cs) = words cs := words_append_cons hc [] cs

theorem words_blanks {cs : List Char} (h : Blanks cs) : words cs = [] := by
  induction cs with
  | nil => rfl
  | cons c cs ih =>
    rw [words_cons_blank (h c List.mem_cons_self),
      ih fun d hd => h d (List.mem_cons_of_mem c hd)]

theorem words_append_blanks (cs : List Char) {blanks : List Char} (h : Blanks blanks) :
    words (cs ++ blanks) = words cs := by
  cases blanks with
  | nil => rw [List.append_nil]
  | cons b bs =>
    rw [words_append_cons (h b List.mem_cons_self),
      words_blanks fun d hd => h d (List.mem_cons_of_mem b hd), List.append_nil]

theorem words_of_isWord {cs : List Char} (h : IsWord cs) : words cs = [cs] := by
  rw [words, pieces_of_none h.2]
  cases cs with
  | nil => exact absurd rfl h.1
  | cons c cs => rfl

theorem words_trimStart (cs : List Char) : words (trimStart cs) = words cs := by
  induction cs with
  | nil => rfl
  | cons c cs ih =>
    by_cases hc : isBlank c = true
    · rw [words_cons_blank hc, ← ih, trimStart, trimStart, List.dropWhile_cons_of_pos hc]
    · rw [trimStart, List.dropWhile_cons_of_neg hc]

theorem words_trimEnd (cs : List Char) : words (trimEnd cs) = words cs := by
  have hcs : cs = trimEnd cs ++ (cs.reverse.takeWhile isBlank).reverse := by
    rw [trimEnd, ← List.reverse_append, List.takeWhile_append_dropWhile, List.reverse_reverse]
  conv => rhs; rw [hcs]
  refine (words_append_blanks _ fun c hc => ?_).symm
  exact List.all_eq_true.mp List.all_takeWhile c (List.mem_reverse.mp hc)

theorem words_trim (cs : List Char) : words (trim cs) = words cs := by
  rw [trim, words_trimEnd, words_trimStart]

theorem trimStart_append {blanks cs : List Char} (hb : Blanks blanks)
    (hc : ∀ c, cs.head? = some c → isBlank c = false) : trimStart (blanks ++ cs) = cs := by
  rw [trimStart, List.dropWhile_append_of_pos hb]
  cases cs with
  | nil => rfl
  | cons c cs => rw [List.dropWhile_cons_of_neg (by simp [hc c rfl])]

theorem trim_append {before cs after : List Char} (hb : Blanks before) (ha : Blanks after)
    (hh : ∀ c, cs.head? = some c → isBlank c = false)
    (hl : ∀ c, cs.getLast? = some c → isBlank c = false) :
    trim (before ++ (cs ++ after)) = cs := by
  cases cs with
  | nil =>
    have hstart : trimStart (before ++ after) = [] := by
      rw [trimStart, List.dropWhile_eq_nil_iff]
      exact List.forall_mem_append.mpr ⟨hb, ha⟩
    rw [trim, List.nil_append, hstart]
    rfl
  | cons c cs =>
    have hend : trimEnd (c :: cs ++ after) = c :: cs := by
      rw [trimEnd, List.reverse_append]
      refine (congrArg List.reverse (trimStart_append ?_ ?_)).trans (List.reverse_reverse _)
      · exact fun c hc => ha c (List.mem_reverse.mp hc)
      · rwa [List.head?_reverse]
    rw [trim, trimStart_append hb (by simpa using hh), hend]

theorem mem_of_mem_trimEnd {cs : List Char} {c : Char} (h : c ∈ trimEnd cs) : c ∈ cs := by
  rw [trimEnd, List.mem_reverse] at h
  exact List.mem_reverse.mp ((List.dropWhile_sublist isBlank).mem h)

theorem mem_of_mem_trim {cs : List Char} {c : Char} (h : c ∈ trim cs) : c ∈ cs :=
  (List.dropWhile_sublist isBlank).mem (mem_of_mem_trimEnd h)

theorem mem_of_mem_words {cs word : List Char} (h : word ∈ words cs) {c : Char} (hc : c ∈ word) :
    c ∈ cs := mem_of_mem_pieces (List.mem_filter.mp h).1 hc

theorem words_append {word rest : List Char} (hw : IsWord word)
    (hr : ∀ c, rest.head? = some c → isBlank c = true) :
    words (word ++ rest) = word :: words rest := by
  cases rest with
  | nil => rw [List.append_nil, words_of_isWord hw, words_nil]
  | cons b rest =>
    have hb := hr b rfl
    rw [words_append_cons hb, words_cons_blank hb, words_of_isWord hw]
    rfl

/-- The run of characters up to the first blank is the first word, and the words of the rest are the
others. There is no such run only if there are no words. -/
theorem words_eq_of_span {cs word rest : List Char}
    (h : (trimStart cs).span (fun c => !isBlank c) = (word, rest)) :
    (word = [] ∧ rest = [] ∧ words cs = []) ∨ (word ≠ [] ∧ words cs = word :: words rest) := by
  rw [List.span_eq_takeWhile_dropWhile] at h
  obtain ⟨rfl, rfl⟩ := Prod.mk.inj h
  cases ht : trimStart cs with
  | nil =>
    refine .inl ⟨rfl, rfl, ?_⟩
    rw [← words_trimStart, ht, words_nil]
  | cons c more =>
    have hc : isBlank c = false := by
      have hd := List.head?_dropWhile_not isBlank cs
      rw [show cs.dropWhile isBlank = c :: more from ht] at hd
      exact hd
    have hne : (c :: more).takeWhile (fun c => !isBlank c) ≠ [] := by
      simp [hc]
    refine .inr ⟨hne, ?_⟩
    have hw : ∀ d ∈ (c :: more).takeWhile (fun c => !isBlank c), isBlank d = false := by
      intro d hd
      simpa using List.all_eq_true.mp List.all_takeWhile d hd
    have hr : ∀ d, ((c :: more).dropWhile fun c => !isBlank c).head? = some d →
        isBlank d = true := by
      intro d hd
      have hn := List.head?_dropWhile_not (fun c => !isBlank c) (c :: more)
      rw [hd] at hn
      simpa using hn
    have hwords := words_append ⟨hne, hw⟩ hr
    rw [List.takeWhile_append_dropWhile] at hwords
    rw [← words_trimStart, ht, hwords]

end PixelFont.Text
