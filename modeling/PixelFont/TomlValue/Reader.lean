import PixelFont.Text
import PixelFont.TomlValue

/-!
Reading TOML. A reader gives what it read and the text that follows. Bounds on the number of steps
come from the length of the text; the bound on how deep values nest is the format's own.
-/

set_option autoImplicit false

namespace PixelFont.TomlValue

/-- How many lists and inline tables may stand in one another, and how many parts a key may have. -/
def maxDepth : Nat := 79

def isSpace (c : Char) : Bool := c = ' ' || c = '\t'

def skipSpace (cs : List Char) : List Char := cs.dropWhile isSpace

def isControl (c : Char) : Bool := (c.toNat < 0x20 && c != '\t') || c.toNat = 0x7F

def newLine? : List Char → Option (List Char)
  | '\n' :: cs => some cs
  | '\r' :: '\n' :: cs => some cs
  | _ => none

def skipComment : List Char → List Char
  | '#' :: cs => cs.dropWhile fun c => !isControl c
  | cs => cs

def lineEnd? (cs : List Char) : Option (List Char) :=
  match skipComment (skipSpace cs) with
  | [] => some []
  | cs => newLine? cs

def skipBlank : Nat → List Char → List Char
  | 0, cs => cs
  | fuel + 1, cs =>
    let cs := skipSpace cs
    match newLine? (skipComment cs) with
    | some rest => skipBlank fuel rest
    | none => cs

def skipWhite : List Char → List Char
  | '\r' :: '\n' :: cs => skipWhite cs
  | c :: cs => if isSpace c || c = '\n' then skipWhite cs else c :: cs
  | [] => []

/-! Texts -/

def scalar? (digits : List Char) : Option Char := do
  let n ← Text.natural? 16 digits
  if n.isValidChar then some (Char.ofNat n) else none

def escape? : List Char → Option (Char × List Char)
  | 'u' :: a :: b :: c :: d :: cs => (scalar? [a, b, c, d]).map (·, cs)
  | 'U' :: a :: b :: c :: d :: e :: f :: g :: h :: cs =>
    (scalar? [a, b, c, d, e, f, g, h]).map (·, cs)
  | 'b' :: cs => some ('\x08', cs)
  | 't' :: cs => some ('\t', cs)
  | 'n' :: cs => some ('\n', cs)
  | 'f' :: cs => some ('\x0c', cs)
  | 'r' :: cs => some ('\r', cs)
  | '"' :: cs => some ('"', cs)
  | '\\' :: cs => some ('\\', cs)
  | _ => none

def readBasic : Nat → List Char → Option (List Char × List Char)
  | 0, _ => none
  | fuel + 1, cs =>
    match cs with
    | '"' :: rest => some ([], rest)
    | '\\' :: cs => do
      let (c, cs) ← escape? cs
      let (s, rest) ← readBasic fuel cs
      return (c :: s, rest)
    | c :: cs => do
      if isControl c then none
      let (s, rest) ← readBasic fuel cs
      return (c :: s, rest)
    | [] => none

def readLiteral (cs : List Char) : Option (List Char × List Char) :=
  match cs.span fun c => !isControl c && c != '\x27' with
  | (s, '\x27' :: rest) => some (s, rest)
  | _ => none

/-- What ends a text after three quotes: up to two more belong to the text. -/
def closeLong (quote : Char) (cs : List Char) : List Char × List Char :=
  let more := (cs.takeWhile (· = quote)).take 2
  (more, cs.drop more.length)

def skipFirstBreak (cs : List Char) : List Char := (newLine? cs).getD cs

/-- The rest of a text that may run over lines. A backslash at the end of a line joins it to the
next text that is not white. -/
def readLongBasic : Nat → List Char → Option (List Char × List Char)
  | 0, _ => none
  | fuel + 1, cs =>
    match cs with
    | '"' :: '"' :: '"' :: cs => some (closeLong '"' cs)
    | '\\' :: cs =>
      match newLine? (skipSpace cs) with
      | some cs => readLongBasic fuel (skipWhite cs)
      | none => do
        let (c, cs) ← escape? cs
        let (s, rest) ← readLongBasic fuel cs
        return (c :: s, rest)
    | c :: tail => do
      match newLine? cs with
      | some cs =>
        let (s, rest) ← readLongBasic fuel cs
        return ('\n' :: s, rest)
      | none =>
        if isControl c then none
        let (s, rest) ← readLongBasic fuel tail
        return (c :: s, rest)
    | [] => none

def readLongLiteral : Nat → List Char → Option (List Char × List Char)
  | 0, _ => none
  | fuel + 1, cs =>
    match cs with
    | '\x27' :: '\x27' :: '\x27' :: cs => some (closeLong '\x27' cs)
    | c :: tail => do
      match newLine? cs with
      | some cs =>
        let (s, rest) ← readLongLiteral fuel cs
        return ('\n' :: s, rest)
      | none =>
        if isControl c then none
        let (s, rest) ← readLongLiteral fuel tail
        return (c :: s, rest)
    | [] => none

/-! Numbers and dates -/

def readDigits (isDigit : Char → Bool) : List Char → List Char × List Char
  | '_' :: c :: cs =>
    if isDigit c then
      let (ds, rest) := readDigits isDigit cs
      (c :: ds, rest)
    else ([], '_' :: c :: cs)
  | c :: cs =>
    if isDigit c then
      let (ds, rest) := readDigits isDigit cs
      (c :: ds, rest)
    else ([], c :: cs)
  | [] => ([], [])

def readDigits? (isDigit : Char → Bool) (cs : List Char) : Option (List Char × List Char) :=
  if cs.head?.any isDigit then some (readDigits isDigit cs) else none

def readDecimal? (cs : List Char) : Option (Bool × List Char × List Char) := do
  let signed := cs.head? = some '-' || cs.head? = some '+'
  let (ds, rest) ← match if signed then cs.tail else cs with
    | '0' :: rest => some (['0'], rest)
    | cs => readDigits? Char.isDigit cs
  return (cs.head? = some '-', ds, rest)

def ofInteger? (i : Int) : Option TomlValue :=
  if -0x8000000000000000 ≤ i ∧ i < 0x8000000000000000 then some (.integer i) else none

def readRadix? (radix : Nat) (cs : List Char) : Option (TomlValue × List Char) := do
  let (ds, rest) ← readDigits? (fun c => (Text.digit? radix c).isSome) cs
  return (← ofInteger? (← Text.natural? radix ds), rest)

def readInteger? : List Char → Option (TomlValue × List Char)
  | '0' :: 'x' :: cs => readRadix? 16 cs
  | '0' :: 'o' :: cs => readRadix? 8 cs
  | '0' :: 'b' :: cs => readRadix? 2 cs
  | cs => do
    let (negative, ds, rest) ← readDecimal? cs
    let n ← Text.natural? 10 ds
    return (← ofInteger? (if negative then -(n : Int) else n), rest)

def readFraction? : List Char → Option (List Char × List Char)
  | '.' :: cs => readDigits? Char.isDigit cs
  | _ => none

def readExponent? : List Char → Option (Int × List Char)
  | e :: cs => do
    if e ≠ 'e' ∧ e ≠ 'E' then none
    let signed := cs.head? = some '-' || cs.head? = some '+'
    let (ds, rest) ← readDigits? Char.isDigit (if signed then cs.tail else cs)
    let n ← Text.natural? 10 ds
    return (if cs.head? = some '-' then -(n : Int) else n, rest)
  | [] => none

/-- Whether `digits * 10 ^ exponent` is too large for a double. The least such number lies half a
step beyond the greatest double. What has no more binary digits than the exponent takes off in
decimal ones is less than one. -/
def overflows (digits : Nat) (exponent : Int) : Bool :=
  if digits = 0 || digits.log2 < (-exponent).toNat then false
  else if 1024 < exponent then true
  else Nat.pow 2 1024 - Nat.pow 2 970 ≤
    digits * Nat.pow 10 exponent.toNat / Nat.pow 10 (-exponent).toNat

/-- A number with a fraction or an exponent, or one of the words for what is not a number. What is
positive and too large for a double is refused. -/
def readFloat? (cs : List Char) : Option (TomlValue × List Char) :=
  let float (rest : List Char) :=
    (TomlValue.float (String.ofList (cs.take (cs.length - rest.length))), rest)
  let signed := cs.head? = some '-' || cs.head? = some '+'
  match if signed then cs.tail else cs with
  | 'i' :: 'n' :: 'f' :: rest => some (float rest)
  | 'n' :: 'a' :: 'n' :: rest => some (float rest)
  | _ => do
    let (negative, whole, r) ← readDecimal? cs
    let (fraction, r') := (readFraction? r).getD ([], r)
    let (exponent, rest) := (readExponent? r').getD (0, r')
    if fraction.isEmpty && (readExponent? r').isNone then none
    let digits ← Text.natural? 10 (whole ++ fraction)
    if !negative && overflows digits (exponent - fraction.length) then none
    return float rest

def twoDigits? (least greatest : Nat) : List Char → Option (Nat × List Char)
  | a :: b :: rest => do
    let n ← Text.natural? 10 [a, b]
    if least ≤ n ∧ n ≤ greatest then some (n, rest) else none
  | _ => none

def expect? (c : Char) : List Char → Option (List Char)
  | d :: cs => if c = d then some cs else none
  | [] => none

def daysIn (year month : Nat) : Nat :=
  let leap := year % 4 = 0 ∧ (year % 100 ≠ 0 ∨ year % 400 = 0)
  if month = 2 then (if leap then 29 else 28) else if month ∈ [4, 6, 9, 11] then 30 else 31

def skipDate? : List Char → Option (List Char)
  | a :: b :: c :: d :: cs => do
    let year ← Text.natural? 10 [a, b, c, d]
    let (month, cs) ← twoDigits? 1 12 (← expect? '-' cs)
    let (_, cs) ← twoDigits? 1 (daysIn year month) (← expect? '-' cs)
    return cs
  | _ => none

/-- The text after a time of day. A minute may have a leap second. -/
def skipTime? (cs : List Char) : Option (List Char) := do
  let (_, cs) ← twoDigits? 0 23 cs
  let (_, cs) ← twoDigits? 0 59 (← expect? ':' cs)
  let (_, cs) ← twoDigits? 0 60 (← expect? ':' cs)
  match cs with
  | '.' :: d :: rest => if d.isDigit then some (rest.dropWhile Char.isDigit) else some cs
  | _ => some cs

def skipOffset? : List Char → Option (List Char)
  | 'Z' :: cs => some cs
  | 'z' :: cs => some cs
  | s :: cs => do
    if s ≠ '+' ∧ s ≠ '-' then none
    let (_, cs) ← twoDigits? 0 23 cs
    let (_, cs) ← twoDigits? 0 59 (← expect? ':' cs)
    return cs
  | [] => none

def skipDateTime? (cs : List Char) : Option (List Char) :=
  match skipDate? cs with
  | none => skipTime? cs
  | some rest =>
    match rest with
    | d :: tail =>
      if d = 'T' || d = 't' || d = ' ' then
        match skipTime? tail with
        | some rest => (skipOffset? rest).getD rest
        | none => rest
      else rest
    | [] => rest

def readNumber? (cs : List Char) : Option (TomlValue × List Char) :=
  match skipDateTime? cs with
  | some rest => some (.dateTime (String.ofList (cs.take (cs.length - rest.length))), rest)
  | none => readFloat? cs <|> readInteger? cs

/-! Keys, values and documents -/

def isBare (c : Char) : Bool := c.isAlphanum || c = '_' || c = '-'

def readSimpleKey : List Char → Option (String × List Char)
  | '"' :: cs => (readBasic (cs.length + 1) cs).map fun (s, rest) => (String.ofList s, rest)
  | '\x27' :: cs => (readLiteral cs).map fun (s, rest) => (String.ofList s, rest)
  | cs =>
    let (s, rest) := cs.span isBare
    if s.isEmpty then none else some (String.ofList s, rest)

def readKey : Nat → List Char → Option (List String × List Char)
  | 0, _ => none
  | bound + 1, cs => do
    let (k, r) ← readSimpleKey (skipSpace cs)
    match skipSpace r with
    | '.' :: r =>
      let (ks, rest) ← readKey bound r
      return (k :: ks, rest)
    | rest => return ([k], rest)

def readPath (cs : List Char) : Option (List String × String × List Char) := do
  let (ks, rest) ← readKey maxDepth cs
  return (ks.dropLast, ← ks.getLast?, rest)

/-- The items of a list up to its closing bracket; the last may be followed by a comma. A step reads
more than one character, so its bound also bounds the lines to skip. -/
def readItems (one : List Char → Option (TomlValue × List Char)) :
    Nat → List Char → Option (List TomlValue × List Char)
  | 0, _ => none
  | fuel + 1, cs =>
    match skipBlank fuel cs with
    | ']' :: rest => some ([], rest)
    | cs => do
      let (v, r) ← one cs
      match skipBlank fuel r with
      | ']' :: rest => return ([v], rest)
      | ',' :: r =>
        let (vs, rest) ← readItems one fuel r
        return (v :: vs, rest)
      | _ => none

def readEntries (one : List Char → Option (TomlValue × List Char)) :
    Nat → TomlTable → List Char → Option (TomlTable × List Char)
  | 0, _, _ => none
  | fuel + 1, es, cs => do
    let (path, k, r) ← readPath cs
    let (v, r) ← one (skipSpace (← expect? '=' r))
    let es ← TomlTable.insert .inline es path k v
    match skipSpace r with
    | '}' :: rest => return (es, rest)
    | ',' :: r => readEntries one fuel es r
    | _ => none

def readValue : Nat → List Char → Option (TomlValue × List Char)
  | bound, '[' :: cs =>
    match bound with
    | 0 => none
    | bound + 1 => (readItems (readValue bound) (cs.length + 1) cs).map fun (vs, rest) =>
      (.list vs, rest)
  | bound, '{' :: cs =>
    match bound with
    | 0 => none
    | bound + 1 =>
      match skipSpace cs with
      | '}' :: rest => some (.table .inline [], rest)
      | cs => (readEntries (readValue bound) (cs.length + 1) [] cs).map fun (es, rest) =>
        (.table .inline es, rest)
  | _, '"' :: '"' :: '"' :: cs =>
    (readLongBasic (cs.length + 1) (skipFirstBreak cs)).map fun (s, rest) =>
      (.text (String.ofList s), rest)
  | _, '"' :: cs =>
    (readBasic (cs.length + 1) cs).map fun (s, rest) => (.text (String.ofList s), rest)
  | _, '\x27' :: '\x27' :: '\x27' :: cs =>
    (readLongLiteral (cs.length + 1) (skipFirstBreak cs)).map fun (s, rest) =>
      (.text (String.ofList s), rest)
  | _, '\x27' :: cs => (readLiteral cs).map fun (s, rest) => (.text (String.ofList s), rest)
  | _, 't' :: 'r' :: 'u' :: 'e' :: rest => some (.bool true, rest)
  | _, 'f' :: 'a' :: 'l' :: 's' :: 'e' :: rest => some (.bool false, rest)
  | _, cs => readNumber? cs

def readDocument : Nat → TomlDocument → List Char → Option TomlDocument
  | 0, _, _ => none
  | fuel + 1, d, cs =>
    match skipSpace cs with
    | [] => some d
    | '[' :: '[' :: r => do
      let (path, k, r) ← readPath r
      let rest ← lineEnd? (← expect? ']' (← expect? ']' r))
      readDocument fuel (← d.openItem path k) rest
    | '[' :: r => do
      let (path, k, r) ← readPath r
      let rest ← lineEnd? (← expect? ']' r)
      readDocument fuel (← d.openTable path k) rest
    | '#' :: r => do readDocument fuel d (← lineEnd? ('#' :: r))
    | r =>
      match newLine? r with
      | some rest => readDocument fuel d rest
      | none => do
        let (path, k, r) ← readPath r
        let (v, r) ← readValue maxDepth (skipSpace (← expect? '=' r))
        readDocument fuel (← d.insert path k v) (← lineEnd? r)

def skipMark : List Char → List Char
  | '\uFEFF' :: cs => cs
  | cs => cs

def ofText? (s : String) : Option TomlTable := do
  let cs := skipMark s.toList
  (← readDocument (cs.length + 1) {} cs).close

end PixelFont.TomlValue
