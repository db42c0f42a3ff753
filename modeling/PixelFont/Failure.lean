import PixelFont.Bdf
import PixelFont.Catalogue
import PixelFont.FileTree

set_option autoImplicit false

namespace PixelFont

inductive Failure where
  | unreadable (path : String) (fault : FileFault)
  | unwritable (path : String) (fault : FileFault)
  | noDirectory (path : String) (fault : FileFault)
  | badCatalogue (path : String) (fault : Catalogue.Fault)
  | badSource (path text : String) (fault : Bdf.ParseFault)
  | notCompiled (path : String) (fault : CompileFault)
  deriving DecidableEq, Repr

namespace Text

/-- The text after its first `n` lines, which end at line feeds only. -/
def afterLines : Nat → List Char → List Char
  | 0, cs => cs
  | n + 1, cs => afterLines n ((cs.dropWhile (· ≠ '\n')).drop 1)

def byteSize (cs : List Char) : Nat := (String.ofList cs).utf8ByteSize

/-- Where the line numbered `n` starts, counted in bytes, and its length without its end. -/
def lineSpan (cs : List Char) (n : Nat) : Nat × Nat :=
  (byteSize cs - byteSize (afterLines (n - 1) cs),
   ((lines cs)[n - 1]?.map byteSize).getD 0)

end Text

namespace Failure

def message : Failure → String
  | .unreadable path e => s!"error reading '{path}': {e.message}"
  | .unwritable path e => s!"error writing '{path}': {e.message}"
  | .noDirectory path e => s!"failed to create directory '{path}': {e.message}"
  | .badCatalogue path e => s!"failed to parse '{path}': {e.message}"
  | .badSource path _ _ => s!"failed to parse '{path}'"
  | .notCompiled path e => s!"failed to compile '{path}': {e.message}"

def label? : Failure → Option String
  | .badSource _ _ e => some e.cause.message
  | _ => none

def span? : Failure → Option (Nat × Nat)
  | .badSource _ text e => some (Text.lineSpan text.toList e.line)
  | _ => none

end Failure
end PixelFont
