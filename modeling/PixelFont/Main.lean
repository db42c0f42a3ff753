import PixelFont.Command

set_option autoImplicit false

namespace PixelFont

def FileFault.ofError : IO.Error → FileFault
  | .noFileOrDirectory .. => .notFound
  | .alreadyExists .. => .exists
  | .inappropriateType _ code _ => if code = 21 then .isDirectory else .notDirectory
  | e => .other (toString e)

def readText (path : String) : IO (Except FileFault String) := do
  try
    let bytes ← IO.FS.readBinFile path
    return match String.fromUTF8? bytes with
      | some s => .ok s
      | none => .error .notText
  catch e => return .error (.ofError e)

def writeText (path text : String) : IO (Except Failure Unit) := do
  if let some above := (Path.parent? path).filter (!·.isEmpty) then
    try IO.FS.createDirAll above
    catch e => return .error (.noDirectory above (.ofError e))
  try
    IO.FS.writeFile path text
    return .ok ()
  catch e => return .error (.unwritable path (.ofError e))

def complain (message : String) : IO UInt32 := do
  IO.eprintln message
  return 1

def emit : List Output → IO UInt32
  | [] => return 0
  | .print text :: outputs => do
    IO.print text
    emit outputs
  | .file path text :: outputs => do
    match ← writeText path text with
    | .ok () => emit outputs
    | .error e => complain e.message

def compileAndEmit (o : Options) : IO UInt32 := do
  match Catalogue.load o.catalogue (← readText o.catalogue) with
  | .error e => complain e.message
  | .ok c =>
    let texts ← c.listings.mapM fun l => return (l.path, ← readText l.path)
    match (c.compile fun path => (texts.lookup path).getD (.error .notFound)).2 with
    | .error e => complain e.message
    | .ok b => emit (o.outputs c b)

end PixelFont

def main (args : List String) : IO UInt32 := do
  match PixelFont.Options.ofArguments args with
  | .error e => PixelFont.complain e.message
  | .ok o => PixelFont.compileAndEmit o
