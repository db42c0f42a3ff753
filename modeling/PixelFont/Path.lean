import PixelFont.Text

set_option autoImplicit false

namespace PixelFont.Path

def isAbsolute (p : String) : Bool := p.toList.head? = some '/'

/-- The second path as seen from the first. An absolute path is the same from everywhere. -/
def join (base p : String) : String :=
  if isAbsolute p || base.isEmpty then p
  else if base.toList.getLast? = some '/' then base ++ p
  else base ++ "/" ++ p

def segments (p : String) : List String :=
  (Text.pieces (· = '/') p.toList).map String.ofList

def relativeSegments (p : String) : List String :=
  if isAbsolute p then (segments p).tail else segments p

/-- Cuts off the segments at the end that lead nowhere. One dot leads nowhere unless a relative path
starts with it. -/
def cutIdle (absolute : Bool) (ss : List String) : List String :=
  let idle (s : String) := s.isEmpty || s = "."
  let cut := (ss.reverse.dropWhile idle).reverse
  if cut.isEmpty && !absolute && ss.head? = some "." then ["."] else cut

def parent? (p : String) : Option String :=
  let absolute := isAbsolute p
  let ss := cutIdle absolute (relativeSegments p)
  if ss.isEmpty then none
  else
    let above := "/".intercalate (cutIdle absolute ss.dropLast)
    some (if absolute then "/" ++ above else above)

def name? (p : String) : Option String :=
  match (cutIdle (isAbsolute p) (relativeSegments p)).getLast? with
  | some s => if s = "." || s = ".." then none else some s
  | none => none

end PixelFont.Path
