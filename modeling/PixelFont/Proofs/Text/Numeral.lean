import Mathlib.Algebra.Ring.Nat
import Mathlib.Tactic.MkIffOfInductiveProp
import PixelFont.Text

set_option autoImplicit false

namespace PixelFont.Text

theorem digit?_lt {base d : Nat} {c : Char} (h : digit? base c = some d) : d < base := by
  rw [digit?, Option.filter_eq_some_iff] at h
  exact of_decide_eq_true h.2

theorem isSome_foldlM_digits {base : Nat} (cs : List Char) (n : Nat) :
    (cs.foldlM (fun n c => (digit? base c).map (base * n + ·)) n).isSome = true ↔
      ∀ c ∈ cs, (digit? base c).isSome = true := by
  induction cs generalizing n with
  | nil => simp
  | cons c cs ih =>
    rw [List.foldlM_cons, List.forall_mem_cons]
    cases hd : digit? base c with
    | none => simp
    | some d => simpa using ih (base * n + d)

theorem foldlM_digits_lt {base m : Nat} {cs : List Char} {n : Nat}
    (h : cs.foldlM (fun n c => (digit? base c).map (base * n + ·)) n = some m) :
    m < base ^ cs.length * (n + 1) := by
  induction cs generalizing n with
  | nil =>
    cases h
    simp
  | cons c cs ih =>
    rw [List.foldlM_cons] at h
    obtain ⟨next, hnext, hm⟩ := Option.bind_eq_some_iff.mp h
    obtain ⟨d, hd, rfl⟩ := Option.map_eq_some_iff.mp hnext
    have hdigit : base * n + d + 1 ≤ base * (n + 1) := by
      have := digit?_lt hd
      rw [Nat.mul_succ]
      omega
    calc m < base ^ cs.length * (base * n + d + 1) := ih hm
      _ ≤ base ^ cs.length * (base * (n + 1)) := Nat.mul_le_mul_left _ hdigit
      _ = base ^ (c :: cs).length * (n + 1) := by
        rw [List.length_cons, Nat.pow_succ, Nat.mul_assoc]

theorem natural?_isSome_iff {base : Nat} {cs : List Char} :
    (natural? base cs).isSome = true ↔ cs ≠ [] ∧ ∀ c ∈ cs, (digit? base c).isSome = true := by
  rw [natural?]
  split
  · next h => simp [List.isEmpty_iff.mp h]
  · next h =>
    rw [isSome_foldlM_digits]
    exact (and_iff_right fun hcs => h (by rw [hcs]; rfl)).symm

theorem natural?_lt {base n : Nat} {cs : List Char} (h : natural? base cs = some n) :
    n < base ^ cs.length := by
  rw [natural?] at h
  split at h
  · cases h
  · simpa using foldlM_digits_lt h

theorem unsigned?_of_head? {base : Nat} {cs : List Char} (h : cs.head? ≠ some '+') :
    unsigned? cs base = natural? base cs := by
  rw [unsigned?]
  rintro rest rfl
  exact h rfl

/-- Decimal digits that stand for a number, with zeros before them or not. -/
@[mk_iff] structure IsDecimal (n : Nat) (cs : List Char) : Prop where
  ne_nil : cs ≠ []
  digits : ∀ c ∈ cs, c.isDigit = true
  value : Nat.ofDigitChars 10 cs 0 = n

instance (n : Nat) (cs : List Char) : Decidable (IsDecimal n cs) :=
  decidable_of_iff (cs ≠ [] ∧ cs.all Char.isDigit = true ∧ Nat.ofDigitChars 10 cs 0 = n)
    (by rw [isDecimal_iff, List.all_eq_true])

/-- Decimal digits that stand for an integer, after a minus sign if it is negative. -/
def IsInteger (v : Int) (cs : List Char) : Prop :=
  if v < 0 then cs.head? = some '-' ∧ IsDecimal v.natAbs cs.tail else IsDecimal v.natAbs cs

def integer (v : Int) : List Char :=
  if v < 0 then '-' :: Nat.toDigits 10 v.natAbs else Nat.toDigits 10 v.natAbs

instance (v : Int) (cs : List Char) : Decidable (IsInteger v cs) :=
  inferInstanceAs (Decidable
    (if v < 0 then cs.head? = some '-' ∧ IsDecimal v.natAbs cs.tail else IsDecimal v.natAbs cs))

theorem digit?_of_isDigit {base : Nat} (hb : 10 ≤ base) {c : Char} (h : c.isDigit = true) :
    digit? base c = some (c.toNat - 48) := by
  have hc : '0' ≤ c ∧ c ≤ '9' := by simpa [Char.isDigit, Char.le_def] using h
  have hlt : c.toNat - 48 < base := by
    have : c.toNat ≤ 57 := (Char.isDigit_iff_toNat.mp h).2
    omega
  simp [digit?, hc, hlt]

theorem digit?_digitChar {d : Nat} (h : d < 16) : digit? 16 (Nat.digitChar d) = some d := by
  have hall : ∀ d < 16, digit? 16 (Nat.digitChar d) = some d := by decide
  exact hall d h

theorem foldlM_digits {cs : List Char} (h : ∀ c ∈ cs, c.isDigit = true) (n : Nat) :
    cs.foldlM (fun n c => (digit? 10 c).map (10 * n + ·)) n =
      some (Nat.ofDigitChars 10 cs n) := by
  induction cs generalizing n with
  | nil => rfl
  | cons c cs ih =>
    rw [List.forall_mem_cons] at h
    rw [List.foldlM_cons, digit?_of_isDigit (Nat.le_refl 10) h.1]
    exact ih h.2 _

section Written

variable {n : Nat} {v : Int} {cs : List Char}

theorem isDecimal_toDigits (n : Nat) : IsDecimal n (Nat.toDigits 10 n) where
  ne_nil := Nat.toDigits_ne_nil
  digits _ := Nat.isDigit_of_mem_toDigits (by decide) (by decide)
  value := Nat.ofDigitChars_toDigits (by decide) (by decide)

theorem toDigits_inj {m n : Nat} : Nat.toDigits 10 m = Nat.toDigits 10 n ↔ m = n := by
  refine ⟨fun h => ?_, congrArg _⟩
  rw [← (isDecimal_toDigits m).value, h, (isDecimal_toDigits n).value]

theorem notMem_toDigits {c : Char} (hc : c.isDigit = false) : c ∉ Nat.toDigits 10 n := fun h =>
  Bool.false_ne_true (hc.symm.trans ((isDecimal_toDigits n).digits c h))

theorem head?_toDigits (h : n ≠ 0) : (Nat.toDigits 10 n).head? ≠ some '0' := by
  induction n using Nat.strongRecOn with
  | ind n ih =>
    rw [Nat.toDigits_eq_if (by decide)]
    split
    · simpa using Nat.digitChar_eq_zero.not.mpr h
    · have hrest := ih (n / 10) (by omega) (by omega)
      rwa [List.head?_append, Option.or_of_isSome]
      simp

theorem isInteger_integer (v : Int) : IsInteger v (integer v) := by
  rw [IsInteger, integer]
  split
  · exact ⟨rfl, isDecimal_toDigits v.natAbs⟩
  · exact isDecimal_toDigits v.natAbs

theorem IsDecimal.natural? (h : IsDecimal n cs) : Text.natural? 10 cs = some n := by
  rw [Text.natural?, if_neg (by simpa using h.ne_nil), foldlM_digits h.digits, h.value]

theorem IsDecimal.ne_cons (h : IsDecimal n cs) {c : Char} (hc : c.isDigit = false)
    (rest : List Char) : cs ≠ c :: rest := by
  rintro rfl
  exact Bool.false_ne_true (hc.symm.trans (h.digits c List.mem_cons_self))

theorem IsDecimal.unsigned? (h : IsDecimal n cs) : Text.unsigned? cs = some n := by
  rw [unsigned?_of_head? fun hhead => ?_, h.natural?]
  obtain ⟨rest, hrest⟩ := List.head?_eq_some_iff.mp hhead
  exact h.ne_cons (by decide) rest hrest

theorem IsInteger.signed? (h : IsInteger v cs) : Text.signed? cs = some v := by
  rw [IsInteger] at h
  split at h
  · obtain ⟨hhead, hd⟩ := h
    obtain ⟨digits, rfl⟩ := List.head?_eq_some_iff.mp hhead
    have hd : IsDecimal v.natAbs digits := hd
    have hv : -(v.natAbs : Int) = v := by omega
    rw [Text.signed?, hd.natural?]
    exact congrArg some hv
  · have hv : (v.natAbs : Int) = v := by omega
    rw [Text.signed?]
    · rw [h.unsigned?]
      exact congrArg some hv
    · exact h.ne_cons (by decide)

end Written

end PixelFont.Text
