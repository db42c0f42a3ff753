import PixelFont.JsonValue
import PixelFont.Text

/-!
Reading JSON. A reader gives what it read and the text that follows. The recursive readers carry
a bound on the number of steps, which the length of the text provides.
-/

set_option autoImplicit false

namespace PixelFont.JsonValue

def isSpace (c : Char) : Bool := c = ' ' || c = '\t' || c = '\n' || c = '\r'

def skipSpace (cs : List Char) : List Char := cs.dropWhile isSpace

inductive Piece where
  | char (c : Char)
  | unit (n : Nat)
  deriving DecidableEq, Repr

def escaped? : Char → Option Char
  | '"' => some '"'
  | '\\' => some '\\'
  | '/' => some '/'
  | 'b' => some '\x08'
  | 'f' => some '\x0c'
  | 'n' => some '\n'
  | 'r' => some '\r'
  | 't' => some '\t'
  | _ => none

def pieces : List Char → Option (List Piece × List Char)
  | [] => none
  | '"' :: cs => some ([], cs)
  | '\\' :: 'u' :: a :: b :: c :: d :: cs => do
    let n ← Text.natural? 16 [a, b, c, d]
    let (ps, rest) ← pieces cs
    return (.unit n :: ps, rest)
  | '\\' :: e :: cs => do
    let c ← escaped? e
    let (ps, rest) ← pieces cs
    return (.char c :: ps, rest)
  | c :: cs => do
    if c.toNat < 0x20 then none
    let (ps, rest) ← pieces cs
    return (.char c :: ps, rest)

def isHighHalf (n : Nat) : Bool := 0xD800 ≤ n && n ≤ 0xDBFF

def isLowHalf (n : Nat) : Bool := 0xDC00 ≤ n && n ≤ 0xDFFF

/-- The text that pieces make up, unless half of a surrogate pair stands alone in it. -/
def joined : List Piece → Option (List Char)
  | [] => some []
  | .char c :: ps => (joined ps).map (c :: ·)
  | .unit n :: .unit m :: ps =>
    if isHighHalf n && isLowHalf m then
      (joined ps).map (Char.ofNat (0x10000 + (n - 0xD800) * 0x400 + (m - 0xDC00)) :: ·)
    else if isHighHalf n || isLowHalf n then none
    else (joined (.unit m :: ps)).map (Char.ofNat n :: ·)
  | .unit n :: ps =>
    if isHighHalf n || isLowHalf n then none else (joined ps).map (Char.ofNat n :: ·)

/-- The text after an opening quote; `none` for one that holds half of a surrogate pair. -/
def readText (cs : List Char) : Option (Option String × List Char) := do
  let (ps, rest) ← pieces cs
  return ((joined ps).map String.ofList, rest)

def written (cs rest : List Char) : String := String.ofList (cs.take (cs.length - rest.length))

def skipDigits? (cs : List Char) : Option (List Char) :=
  if (cs.head?.any Char.isDigit) then some (cs.dropWhile Char.isDigit) else none

def skipFraction? : List Char → Option (List Char)
  | '.' :: cs => skipDigits? cs
  | cs => some cs

def skipExponent? : List Char → Option (List Char)
  | e :: s :: cs =>
    if e = 'e' || e = 'E' then
      if s = '+' || s = '-' then skipDigits? cs else skipDigits? (s :: cs)
    else some (e :: s :: cs)
  | [e] => if e = 'e' || e = 'E' then none else some [e]
  | [] => some []

def goesOn (cs : List Char) : Bool := cs.head?.any fun c => c = '.' || c = 'e' || c = 'E'

/-- A number with no leading zeros. Only one with neither fraction nor exponent is an integer, and
negative zero is not one. -/
def readNumber (cs : List Char) : Option (JsonValue × List Char) := do
  let negative := cs.head? = some '-'
  let (digits, tail) := (if negative then cs.tail else cs).span Char.isDigit
  let n ← Text.natural? 10 digits
  if digits.length > 1 && digits.head? = some '0' then none
  let rest ← skipExponent? (← skipFraction? tail)
  if goesOn tail || (negative && n = 0) then return (.other (written cs rest), rest)
  return (.integer (if negative then -(n : Int) else n), rest)

def ofMembers (cs rest : List Char) (ms : List (Option String × JsonValue)) : JsonValue :=
  match ms.mapM fun (k, v) => k.map fun k => (k, v) with
  | some ms => .object ms
  | none => .other (written cs rest)

mutual

def readValue : Nat → List Char → Option (JsonValue × List Char)
  | 0, _ => none
  | fuel + 1, cs =>
    match skipSpace cs with
    | 'n' :: 'u' :: 'l' :: 'l' :: rest => some (.null, rest)
    | 't' :: 'r' :: 'u' :: 'e' :: rest => some (.bool true, rest)
    | 'f' :: 'a' :: 'l' :: 's' :: 'e' :: rest => some (.bool false, rest)
    | '"' :: r => do
      match ← readText r with
      | (some s, rest) => return (.text s, rest)
      | (none, rest) => return (.other (written ('"' :: r) rest), rest)
    | '[' :: r =>
      match skipSpace r with
      | ']' :: rest => some (.list [], rest)
      | r => do
        let (vs, rest) ← readItems fuel r
        return (.list vs, rest)
    | '{' :: r =>
      match skipSpace r with
      | '}' :: rest => some (.object [], rest)
      | r' => do
        let (ms, rest) ← readMembers fuel r'
        return (ofMembers ('{' :: r) rest ms, rest)
    | r => readNumber r

def readItems : Nat → List Char → Option (List JsonValue × List Char)
  | 0, _ => none
  | fuel + 1, cs => do
    let (v, r) ← readValue fuel cs
    match skipSpace r with
    | ']' :: rest => return ([v], rest)
    | ',' :: r => do
      let (vs, rest) ← readItems fuel r
      return (v :: vs, rest)
    | _ => none

def readMembers : Nat → List Char → Option (List (Option String × JsonValue) × List Char)
  | 0, _ => none
  | fuel + 1, cs =>
    match skipSpace cs with
    | '"' :: r => do
      let (k, r) ← readText r
      match skipSpace r with
      | ':' :: r => do
        let (v, r) ← readValue fuel r
        match skipSpace r with
        | '}' :: rest => return ([(k, v)], rest)
        | ',' :: r => do
          let (ms, rest) ← readMembers fuel r
          return ((k, v) :: ms, rest)
        | _ => none
      | _ => none
    | _ => none

end

def ofText? (s : String) : Option JsonValue := do
  let cs := s.toList
  let (v, rest) ← readValue (2 * cs.length + 2) cs
  if (skipSpace rest).isEmpty then some v else none

end PixelFont.JsonValue
