import PixelFont.Batch
import PixelFont.BigEndian
import PixelFont.JsonForm

set_option autoImplicit false

namespace PixelFont

namespace CompiledFont

def identifierChar (c : Char) : Char := if c.isAlphanum then c else '_'

def arrayName (f : CompiledFont) : String :=
  let name := s!"{f.font.name}_{f.font.header.size}_pt"
  String.ofList (name.toList.map identifierChar)

/-- The bytes are written as a text, which one more byte ends. -/
def arraySize (f : CompiledFont) : Nat := f.bytes.length + 1

def array (f : CompiledFont) : String := s!"uint8_t {f.arrayName}[{f.arraySize}]"

end CompiledFont

namespace GeneratedCode

def unlines (ls : List String) : String := String.join (ls.map (· ++ "\n"))

def bytesPerLine : Nat := 20

/-- A list cut into parts of `n + 1`, the last of which may be shorter. -/
def chunks {α : Type} (n : Nat) : List α → List (List α)
  | [] => []
  | x :: xs => (x :: xs.take n) :: chunks n (xs.drop n)
  termination_by xs => xs.length
  decreasing_by simp only [List.length_drop, List.length_cons]; omega

def commentLine (text : List Char) : String :=
  if text.isEmpty then "//" else "// " ++ String.ofList text

def licenseLines (c : Catalogue) : List String :=
  match c.license with
  | none => []
  | some text => (Text.lines text.toList).map (fun l => commentLine (Text.trimEnd l)) ++ [""]

def defineLines (name : String) (s : Slot) : List String :=
  s!"#define {name} {s.offset}" :: match s.format with
    | some f => [s!"#define {name}_TYPE {f.cName}"]
    | none => []

def closingLines (c : Catalogue) : List String := ["", "\x7d // namespace " ++ c.scope]

def headerText (c : Catalogue) (t : OffsetTable) (fonts : List CompiledFont) : String :=
  let defines := t.entries.flatMap fun (name, s) => defineLines name s
  let declarations := fonts.map fun f => s!"\n{f.font.comment}extern {f.array};\n"
  unlines (licenseLines c ++ ["#pragma once", "", s!"#include \"{c.platformInclude}\"", "",
    s!"namespace {c.scope} \x7b", ""] ++ defines) ++
  String.join declarations ++ unlines (closingLines c)

def literal (bs : List UInt8) : String :=
  "\"" ++ String.join (bs.map fun b => "\\x" ++ String.ofList (Hex.pair b)) ++ "\""

def definition (f : CompiledFont) : String :=
  let literals := (chunks (bytesPerLine - 1) f.bytes).map fun bs => "\n  " ++ literal bs
  s!"\n{f.font.comment}{f.array} =" ++ String.join literals ++ ";\n"

def sourceText (c : Catalogue) (header : String) (fonts : List CompiledFont) : String :=
  unlines (licenseLines c ++ [s!"#include \"{header}\"", "", s!"namespace {c.scope} \x7b"]) ++
  String.join (fonts.map definition) ++ unlines (closingLines c)

def layoutText (t : OffsetTable) : String := t.toJson.prettyText

end GeneratedCode
end PixelFont
