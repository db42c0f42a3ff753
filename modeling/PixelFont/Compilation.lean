import PixelFont.Check
import PixelFont.Record.Plan

set_option autoImplicit false

namespace PixelFont

inductive LogLevel where
  | warning
  | info
  | debug
  | trace
  deriving DecidableEq, Repr

def LogLevel.name : LogLevel → String
  | .warning => "WARN"
  | .info => "INFO"
  | .debug => "DEBUG"
  | .trace => "TRACE"

structure LogLine where
  level : LogLevel
  message : String
  deriving DecidableEq, Repr

def LogLine.text (l : LogLine) : String := s!"{l.level.name}: {l.message}"

inductive CompileFault where
  | invalid (findings : List Finding)
  | unencodable (fault : EncodeFault)
  deriving DecidableEq, Repr

def CompileFault.message : CompileFault → String
  | .invalid fs => Finding.reportText fs
  | .unencodable e => e.message

structure Compilation where
  result : Except CompileFault (List UInt8)
  table : OffsetTable
  /-- The changes made to slots that the table already had. -/
  changes : List Change

namespace Compilation

def log (c : Compilation) : List LogLine := c.changes.map fun change => ⟨.warning, change.message⟩

end Compilation

namespace Plan

/-- Writes a plan to a new buffer. Its recordings go to the table even if it fails. -/
def compile (p : Plan 0) (t : OffsetTable) : Compilation :=
  let (outcome, b) := p.write {}
  { result := match outcome with
      | .ok _ => .ok b.bytes.toList
      | .error e => .error (.unencodable e)
    table := t.recordAll b.notes.toList
    changes := t.changes b.notes.toList }

def compileChecked (p : Plan 0) (c : Check) (t : OffsetTable) : Compilation :=
  match c.findings with
  | [] => p.compile t
  | fs => { result := .error (.invalid fs), table := t, changes := [] }

end Plan
end PixelFont
