import PixelFont.Failure

set_option autoImplicit false

namespace PixelFont

structure CompiledFont where
  font : Font
  bytes : List UInt8
  deriving DecidableEq, Repr

structure Batch where
  fonts : List CompiledFont := []
  table : OffsetTable := .empty
  deriving DecidableEq

structure SourceResult where
  result : Except Failure CompiledFont
  table : OffsetTable
  log : List LogLine

def SourceResult.ofText (name path text : String) (t : OffsetTable) : SourceResult :=
  let (events, source) := Bdf.read text
  let log := events.map Bdf.Event.logLine
  match source with
  | .error e => ⟨.error (.badSource path text e), t, log⟩
  | .ok source =>
    match Font.ofBdf name source with
    | .error e => ⟨.error (.notCompiled path e), t, log⟩
    | .ok font =>
      let c := font.compile t
      { result := match c.result with
          | .ok bytes => .ok ⟨font, bytes⟩
          | .error e => .error (.notCompiled path e)
        table := c.table
        log := log ++ font.compileLog c }

namespace Listing

/-- A source may declare another size than it is listed with; its own counts. -/
def sizeLog (l : Listing) (f : CompiledFont) : List LogLine :=
  let declared := f.font.header.size
  if declared = l.size then []
  else [⟨.warning, s!"'{l.path}' is listed at size {l.size} but declares size {declared}"⟩]

end Listing

namespace Batch

def log (b : Batch) : LogLine :=
  ⟨.info, s!"compiled {b.fonts.length} fonts, {b.table.size} layout entries"⟩

def addAll (read : String → Except FileFault String) :
    List Listing → Batch → List LogLine → List LogLine × Except Failure Batch
  | [], b, log => (log ++ [b.log], .ok b)
  | l :: ls, b, log =>
    match read l.path with
    | .error e => (log, .error (.unreadable l.path e))
    | .ok text =>
      let s := SourceResult.ofText l.name l.path text b.table
      match s.result with
      | .error e => (log ++ s.log, .error e)
      | .ok f => addAll read ls ⟨b.fonts ++ [f], s.table⟩ (log ++ s.log ++ l.sizeLog f)

end Batch

namespace Catalogue

def load (file : String) (contents : Except FileFault String) : Except Failure Catalogue :=
  match contents with
  | .error e => .error (.unreadable file e)
  | .ok text =>
    match parse text with
    | .error e => .error (.badCatalogue file e)
    | .ok c => .ok (c.relativeTo file)

def compile (c : Catalogue) (read : String → Except FileFault String) :
    List LogLine × Except Failure Batch :=
  Batch.addAll read c.listings {} []

end Catalogue
end PixelFont
