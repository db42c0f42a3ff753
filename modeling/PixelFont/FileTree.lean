import PixelFont.Path

set_option autoImplicit false

namespace PixelFont

inductive FileFault where
  | notFound
  | exists
  | isDirectory
  | notDirectory
  | nameTooLong
  | nulInPath
  | notText
  | other (message : String)
  deriving DecidableEq, Repr

def FileFault.message : FileFault → String
  | .notFound => "No such file or directory (os error 2)"
  | .exists => "File exists (os error 17)"
  | .notDirectory => "Not a directory (os error 20)"
  | .isDirectory => "Is a directory (os error 21)"
  | .nameTooLong => "File name too long (os error 36)"
  | .nulInPath => "file name contained an unexpected NUL byte"
  | .notText => "stream did not contain valid UTF-8"
  | .other message => message

abbrev TreePath := List String

structure FileTree where
  directories : List TreePath := []
  files : List (TreePath × List UInt8) := []
  deriving DecidableEq, Repr

namespace FileTree

def maxName : Nat := 255

def maxPath : Nat := 4095

def route (p : String) : Except FileFault (List String) :=
  if p.toList.contains '\x00' then .error .nulInPath
  else if p.isEmpty then .error .notFound
  else if maxPath < p.utf8ByteSize then .error .nameTooLong
  else .ok (Path.segments p)

/-- Where a walk is: in a directory of the tree, at a file of it, or somewhere outside. -/
inductive Spot where
  | directory (place : TreePath)
  | file (place : TreePath)
  | outside
  deriving DecidableEq, Repr

def step (t : FileTree) (spot : Spot) (s : String) : Except FileFault Spot :=
  match spot with
  | .file _ => .error .notDirectory
  | .outside =>
    if s.isEmpty || s = "." || s = ".." then .ok .outside
    else if maxName < s.utf8ByteSize then .error .nameTooLong
    else .error .notFound
  | .directory place =>
    if s.isEmpty || s = "." then .ok (.directory place)
    else if s = ".." then .ok (if place.isEmpty then .outside else .directory place.dropLast)
    else if maxName < s.utf8ByteSize then .error .nameTooLong
    else
      let inner := place ++ [s]
      if (t.files.lookup inner).isSome then .ok (.file inner)
      else if t.directories.contains inner then .ok (.directory inner)
      else .error .notFound

/-- An absolute path starts outside. -/
def start (p : String) : Spot := if Path.isAbsolute p then .outside else .directory []

def find (t : FileTree) (p : String) : Except FileFault Spot := do
  (← route p).foldlM t.step (start p)

def readBytes (t : FileTree) (p : String) : Except FileFault (List UInt8) := do
  match ← t.find p with
  | .file place => .ok ((t.files.lookup place).getD [])
  | _ => .error .isDirectory

def readText (t : FileTree) (p : String) : Except FileFault String := do
  match String.fromUTF8? (ByteArray.mk (← t.readBytes p).toArray) with
  | some s => .ok s
  | none => .error .notText

def makeAlong (t : FileTree) (spot : Spot) : List String → Except FileFault FileTree
  | [] =>
    match spot with
    | .file _ => .error .exists
    | _ => .ok t
  | s :: ss =>
    match spot, t.step spot s with
    | _, .ok next => makeAlong t next ss
    | .directory place, .error .notFound =>
      let inner := place ++ [s]
      makeAlong { t with directories := t.directories ++ [inner] } (.directory inner) ss
    | _, .error e => .error e

def makeDirectories (t : FileTree) (p : String) : Except FileFault FileTree := do
  t.makeAlong (start p) (← route p)

def putFile (t : FileTree) (place : TreePath) (bytes : List UInt8) : FileTree :=
  if (t.files.lookup place).isSome then
    { t with files := t.files.map fun f => if f.1 = place then (place, bytes) else f }
  else { t with files := t.files ++ [(place, bytes)] }

def writeBytes (t : FileTree) (p : String) (bytes : List UInt8) : Except FileFault FileTree := do
  let ss ← route p
  let name := ss.getLast?.getD ""
  let above ← ss.dropLast.foldlM t.step (start p)
  match above, t.step above name with
  | _, .ok (.file place) => .ok (t.putFile place bytes)
  | _, .ok _ => .error .isDirectory
  | .directory place, .error .notFound => .ok (t.putFile (place ++ [name]) bytes)
  | _, .error e => .error e

def newer (t before : FileTree) : List (TreePath × List UInt8) :=
  t.files.filter fun (place, bytes) => before.files.lookup place != some bytes

end FileTree
end PixelFont
