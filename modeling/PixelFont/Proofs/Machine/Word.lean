import Mathlib.Algebra.Ring.Int.Defs
import Mathlib.Algebra.Ring.Nat
import PixelFont.Proofs.Except

/-!
Arithmetic in machine words, with what can stop it. Main statements: one for each operation, by
which it has the exact result where this fits. A computation that meets no trap is the `Run.of` of
what it comes to.
-/

set_option autoImplicit false

namespace PixelFont.Machine

/-- What stops a computation short of any result, an error included: a number that its word cannot
hold, a shift by all the bits of a word or more, an index past the end. -/
inductive Trap where
  | overflow
  | shift
  | index
  deriving DecidableEq, Repr

abbrev Checked := Except Trap

abbrev Run (ε : Type) := ExceptT ε Checked

def word (bits n : Nat) : Checked Nat := if n < 2 ^ bits then .ok n else .error .overflow

def add (bits a b : Nat) : Checked Nat := word bits (a + b)

def mul (bits a b : Nat) : Checked Nat := word bits (a * b)

def sub (a b : Nat) : Checked Nat := if b ≤ a then .ok (a - b) else .error .overflow

def saturatingAdd (bits a b : Nat) : Nat := min (a + b) (2 ^ bits - 1)

/-- What is shifted out at the top is lost. -/
def shiftLeft (bits a n : Nat) : Checked Nat :=
  if n < bits then .ok ((a <<< n) % 2 ^ bits) else .error .shift

def shiftRight (bits a n : Nat) : Checked Nat :=
  if n < bits then .ok (a >>> n) else .error .shift

def subSigned (bits : Nat) (v w : Int) : Checked Int :=
  if -2 ^ (bits - 1) ≤ v - w ∧ v - w < 2 ^ (bits - 1) then .ok (v - w) else .error .overflow

def shiftLeftSigned (bits : Nat) (v : Int) (n : Nat) : Checked Int :=
  if n < bits then .ok ((v * 2 ^ n).bmod (2 ^ bits)) else .error .shift

def index {α : Type} (as : List α) (i : Nat) : Checked α :=
  match as[i]? with
  | some a => .ok a
  | none => .error .index

section Results

variable {bits a b n : Nat}

theorem add_eq (h : a + b < 2 ^ bits) : add bits a b = .ok (a + b) := if_pos h

theorem mul_eq (h : a * b < 2 ^ bits) : mul bits a b = .ok (a * b) := if_pos h

theorem sub_eq (h : b ≤ a) : sub a b = .ok (a - b) := if_pos h

theorem saturatingAdd_eq (h : a + b < 2 ^ bits) : saturatingAdd bits a b = a + b :=
  Nat.min_eq_left (Nat.le_sub_one_of_lt h)

theorem shiftLeft_eq (hn : n < bits) (h : a * 2 ^ n < 2 ^ bits) :
    shiftLeft bits a n = .ok (a * 2 ^ n) := by
  rw [shiftLeft, if_pos hn, Nat.shiftLeft_eq, Nat.mod_eq_of_lt h]

theorem shiftRight_eq (hn : n < bits) : shiftRight bits a n = .ok (a >>> n) := if_pos hn

theorem subSigned_eq {v w : Int} (hl : -2 ^ (bits - 1) ≤ v - w) (hg : v - w < 2 ^ (bits - 1)) :
    subSigned bits v w = .ok (v - w) := if_pos ⟨hl, hg⟩

theorem shiftLeftSigned_one (h : n + 1 < bits) : shiftLeftSigned bits 1 n = .ok (2 ^ n) := by
  have hpow : 2 ^ (n + 1) < 2 ^ bits := Nat.pow_lt_pow_right (by decide) h
  have hcast : (2 : Int) ^ n = (2 ^ n : Nat) := by simp
  rw [Nat.pow_succ] at hpow
  rw [shiftLeftSigned, if_pos (by omega), Int.one_mul, hcast]
  congr 1
  apply Int.bmod_eq_of_le <;> omega

theorem index_eq {α : Type} {as : List α} {i : Nat} (h : i < as.length) :
    index as i = .ok as[i] := by
  rw [index, List.getElem?_eq_getElem h]

end Results

@[simp] theorem ok_bind {α β : Type} (a : α) (k : α → Checked β) :
    ((.ok a : Checked α) >>= k) = k a := rfl

theorem mapM_eq_map {α β : Type} {f : α → Checked β} {g : α → β} {as : List α}
    (h : ∀ a ∈ as, f a = .ok (g a)) : as.mapM f = .ok (as.map g) := by
  rw [mapM_eq_ok_iff, List.forall₂_map_right_iff, List.forall₂_same]
  exact h

namespace Run

variable {ε α β : Type}

def of (r : Except ε α) : Run ε α := ExceptT.mk (.ok r)

@[simp] theorem of_ok (a : α) : of (.ok a : Except ε α) = pure a := rfl

@[simp] theorem of_error (e : ε) : of (.error e : Except ε α) = throw e := rfl

@[simp] theorem lift_ok (a : α) : (liftM (Except.ok a : Checked α) : Run ε α) = pure a := rfl

theorem bind_of {r : Except ε α} {k : α → Run ε β} {k' : α → Except ε β}
    (h : ∀ a, r = .ok a → k a = of (k' a)) : of r >>= k = of (r >>= k') := by
  cases r with
  | error e => rfl
  | ok a => exact h a rfl

theorem adapt_of {ε' : Type} (r : Except ε α) (f : ε → ε') :
    ExceptT.adapt f (of r) = of (r.mapError f) := by
  cases r <;> rfl

end Run
end PixelFont.Machine
