set_option autoImplicit false

namespace PixelFont

/-- A value. The members of an object keep their order and may repeat a key. -/
inductive JsonValue where
  | null
  | bool (b : Bool)
  | integer (i : Int)
  | text (s : String)
  | list (items : List JsonValue)
  | object (members : List (String × JsonValue))
  /-- A well-formed value that is none of these, as it is written: a number with a fraction, an
  exponent or a negative zero, or a text with half of a surrogate pair. -/
  | other (written : String)
  deriving Repr

namespace JsonValue

def escape (c : Char) : List Char :=
  match c.toNat with
  | 0x08 => ['\\', 'b']
  | 0x09 => ['\\', 't']
  | 0x0A => ['\\', 'n']
  | 0x0C => ['\\', 'f']
  | 0x0D => ['\\', 'r']
  | 0x22 => ['\\', '"']
  | 0x5C => ['\\', '\\']
  | n => if n < 0x20 then ['\\', 'u', '0', '0', Nat.digitChar (n / 16), Nat.digitChar (n % 16)]
    else [c]

def quote (s : String) : List Char := '"' :: s.toList.flatMap escape ++ ['"']

def atom : JsonValue → List Char
  | .null => "null".toList
  | .bool b => (toString b).toList
  | .integer i => (toString i).toList
  | .text s => quote s
  | .list _ => []
  | .object _ => []
  | .other written => written.toList

mutual

def compact : JsonValue → List Char
  | .list items => '[' :: compactItems items ++ [']']
  | .object members => '{' :: compactMembers members ++ ['}']
  | v => v.atom

def compactItems : List JsonValue → List Char
  | [] => []
  | [v] => compact v
  | v :: vs => compact v ++ ',' :: compactItems vs

def compactMembers : List (String × JsonValue) → List Char
  | [] => []
  | [(k, v)] => quote k ++ ':' :: compact v
  | (k, v) :: ms => quote k ++ ':' :: compact v ++ ',' :: compactMembers ms

end

def newLine (depth : Nat) : List Char := '\n' :: List.replicate (2 * depth) ' '

mutual

def pretty (depth : Nat) : JsonValue → List Char
  | .list (v :: vs) => '[' :: prettyItems depth (v :: vs) ++ newLine (depth - 1) ++ [']']
  | .list [] => ['[', ']']
  | .object (m :: ms) => '{' :: prettyMembers depth (m :: ms) ++ newLine (depth - 1) ++ ['}']
  | .object [] => ['{', '}']
  | v => v.atom

def prettyItems (depth : Nat) : List JsonValue → List Char
  | [] => []
  | [v] => newLine depth ++ pretty (depth + 1) v
  | v :: vs => newLine depth ++ pretty (depth + 1) v ++ ',' :: prettyItems depth vs

def prettyMembers (depth : Nat) : List (String × JsonValue) → List Char
  | [] => []
  | [(k, v)] => newLine depth ++ quote k ++ ':' :: ' ' :: pretty (depth + 1) v
  | (k, v) :: ms =>
    newLine depth ++ quote k ++ ':' :: ' ' :: pretty (depth + 1) v ++
      ',' :: prettyMembers depth ms

end

def compactText (v : JsonValue) : String := String.ofList v.compact

def prettyText (v : JsonValue) : String := String.ofList (v.pretty 1)

end JsonValue
end PixelFont
