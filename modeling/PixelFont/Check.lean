import PixelFont.IntFormat

/-!
Checks made before anything is written, and the report of what they find. A check is data; run
in some place it adds its findings to those already there, and leaves the place as it was.
-/

set_option autoImplicit false

namespace PixelFont

inductive PathPart where
  | table (name : String)
  | field (name : String)
  | item (index : Nat)
  deriving DecidableEq, Repr

structure Finding where
  message : String
  path : List PathPart
  deriving DecidableEq, Repr

inductive Check where
  | pass
  | both (first second : Check)
  | within (part : PathPart) (inner : Check)
  | report (message : String)
  | range (format : IntFormat) (value : Int)
  deriving DecidableEq, Repr

structure Survey where
  place : List PathPart := []
  findings : Array Finding := #[]
  deriving DecidableEq, Repr

namespace Survey

def enter (s : Survey) (p : PathPart) : Survey := { s with place := s.place ++ [p] }

def leave (s : Survey) : Survey := { s with place := s.place.dropLast }

def report (s : Survey) (message : String) : Survey :=
  { s with findings := s.findings.push ⟨message, s.place⟩ }

end Survey

namespace Check

def run : Check → Survey → Survey
  | .pass, s => s
  | .both a b, s => b.run (a.run s)
  | .within p c, s => (c.run (s.enter p)).leave
  | .report message, s => s.report message
  | .range f v, s => if f.admits v then s else s.report (f.rangeMessage v)

def findings (c : Check) : List Finding := (c.run {}).findings.toList

def validate (c : Check) : Except (List Finding) Unit :=
  match c.findings with
  | [] => .ok ()
  | fs => .error fs

def all (cs : List Check) : Check := cs.foldr both pass

def table (name : String) (cs : List Check) : Check := .within (.table name) (all cs)

def field (name : String) (c : Check) : Check := .within (.field name) c

def items (cs : List Check) : Check := all (cs.zipIdx.map fun (c, i) => .within (.item i) c)

end Check

/-- Tables after the outermost start a line of their own, each further in than the one before;
`depth` counts them. -/
def pathText (depth : Nat) : List PathPart → String
  | [] => ""
  | .table name :: ps =>
    "\n" ++ String.ofList (List.replicate (2 * depth) ' ') ++ name ++ pathText (depth + 1) ps
  | .field name :: ps => "." ++ name ++ pathText depth ps
  | .item i :: ps => s!"[{i}]" ++ pathText depth ps

namespace Finding

def location (f : Finding) : String :=
  match f.path with
  | .table name :: ps => "in: " ++ name ++ pathText 1 ps
  | ps => pathText 1 ps

def text (f : Finding) : String := s!"\"{f.message}\"\n{f.location}\n"

def reportText : List Finding → String
  | [f] => s!"Validation error:\n{f.text}\n"
  | fs =>
    let numbered := fs.zipIdx.map fun (f, i) => s!"#{i + 1}\n{f.text}\n"
    s!"{fs.length} validation errors:\n" ++ String.join numbered

end Finding
end PixelFont
