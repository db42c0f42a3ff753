/-!
Texts cut at separators, into lines and into the words of a line, and the numerals among the words.
Main statement: `pieces_cons`, by which a fact about a cut is an induction on the text.
-/

set_option autoImplicit false

namespace PixelFont.Text

/-- The code points with the Unicode property White_Space, as closed ranges. -/
def blankRanges : List (Nat × Nat) :=
  [(0x09, 0x0D), (0x20, 0x20), (0x85, 0x85), (0xA0, 0xA0), (0x1680, 0x1680), (0x2000, 0x200A),
   (0x2028, 0x2029), (0x202F, 0x202F), (0x205F, 0x205F), (0x3000, 0x3000)]

def isBlank (c : Char) : Bool := blankRanges.any fun (lo, hi) => lo ≤ c.toNat && c.toNat ≤ hi

def trimStart (cs : List Char) : List Char := cs.dropWhile isBlank

def trimEnd (cs : List Char) : List Char := (cs.reverse.dropWhile isBlank).reverse

def trim (cs : List Char) : List Char := trimEnd (trimStart cs)

/-- The pieces cut off so far, last one first, and the one being collected, read backwards. -/
structure Cut where
  done : List (List Char)
  current : List Char

def Cut.add (p : Char → Bool) (k : Cut) (c : Char) : Cut :=
  if p c then ⟨k.current.reverse :: k.done, []⟩ else ⟨k.done, c :: k.current⟩

def Cut.pieces (k : Cut) : List (List Char) := (k.current.reverse :: k.done).reverse

/-- The stretches between the characters that satisfy `p`, empty ones included: one more than
there are such characters. -/
def pieces (p : Char → Bool) (cs : List Char) : List (List Char) :=
  (cs.foldl (Cut.add p) ⟨[], []⟩).pieces

theorem Cut.pieces_foldl (p : Char → Bool) (cs : List Char) (k : Cut) :
    (cs.foldl (Cut.add p) k).pieces =
      k.done.reverse ++ (Text.pieces p cs).modifyHead (k.current.reverse ++ ·) := by
  induction cs generalizing k with
  | nil => simp [Text.pieces, Cut.pieces]
  | cons c cs ih =>
    have hc := ih (Cut.add p ⟨[], []⟩ c)
    rw [List.foldl_cons, ih, show Text.pieces p (c :: cs) = _ from hc]
    cases h : Text.pieces p cs <;> by_cases hp : p c <;> simp [Cut.add, hp]

@[simp] theorem pieces_nil (p : Char → Bool) : pieces p [] = [[]] := rfl

theorem pieces_cons (p : Char → Bool) (c : Char) (cs : List Char) :
    pieces p (c :: cs) =
      if p c then [] :: pieces p cs else (pieces p cs).modifyHead (c :: ·) := by
  rw [pieces, List.foldl_cons, Cut.pieces_foldl]
  cases pieces p cs <;> by_cases h : p c <;> simp [Cut.add, h]

def words (cs : List Char) : List (List Char) := (pieces isBlank cs).filter (!·.isEmpty)

def dropReturn (cs : List Char) : List Char :=
  if cs.getLast? = some '\r' then cs.dropLast else cs

/-- The lines of a text, each ended by a line feed. What follows the last line feed is one more
line unless it is empty, and keeps a final carriage return. -/
def lines (cs : List Char) : List (List Char) :=
  let all := pieces (· = '\n') cs
  all.dropLast.map dropReturn ++ (all.getLast?.toList).filter (!·.isEmpty)

/-- The value of an ASCII digit below `base`; letters of either case go on from nine. -/
def digit? (base : Nat) (c : Char) : Option Nat :=
  let value :=
    if '0' ≤ c ∧ c ≤ '9' then some (c.toNat - 48)
    else if 'a' ≤ c ∧ c ≤ 'f' then some (c.toNat - 87)
    else if 'A' ≤ c ∧ c ≤ 'F' then some (c.toNat - 55)
    else none
  value.filter (· < base)

def natural? (base : Nat) (cs : List Char) : Option Nat :=
  if cs.isEmpty then none
  else cs.foldlM (fun n c => (digit? base c).map (base * n + ·)) 0

def unsigned? (cs : List Char) (base : Nat := 10) : Option Nat :=
  match cs with
  | '+' :: cs => natural? base cs
  | cs => natural? base cs

def signed? : List Char → Option Int
  | '-' :: cs => (natural? 10 cs).map fun n => -(n : Int)
  | cs => (unsigned? cs).map fun n => (n : Int)

def sameWord (a b : List Char) : Bool := a.map Char.toLower == b.map Char.toLower

end PixelFont.Text
