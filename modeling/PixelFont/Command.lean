import PixelFont.GeneratedCode

/-!
The command: its arguments, what it writes, and a run of it on a tree of files. All that it writes
is settled before anything is written.
-/

set_option autoImplicit false

namespace PixelFont

structure Options where
  catalogue : String
  header : Option String := none
  source : Option String := none
  layout : Option String := none
  includeName : Option String := none
  deriving DecidableEq, Repr

inductive UsageFault where
  | unknownFlag (flag : String)
  | noValue (flag : String)
  | repeatedFlag (flag : String)
  | tooMany (argument : String)
  | noCatalogue
  deriving DecidableEq, Repr

def UsageFault.message : UsageFault → String
  | .unknownFlag flag => s!"unexpected flag: `{flag}`"
  | .noValue flag => s!"expected a value for `{flag}`"
  | .repeatedFlag flag => s!"flag specified more than once: `{flag}`"
  | .tooMany argument => s!"unexpected argument: `{argument}`"
  | .noCatalogue => "flag is required: `config`"

namespace Options

def flags : List String := ["--header", "--source", "--layout-json", "--include"]

/-- The arguments that are not flags, and the values of the flags. A flag takes the argument after
it, whatever that is; after two dashes there are no more flags. -/
def split : List String → Except UsageFault (List String × List (String × String))
  | [] => .ok ([], [])
  | [arg] =>
    if arg = "--" then .ok ([], [])
    else if !arg.startsWith "-" then .ok ([arg], [])
    else .error (if flags.contains arg then .noValue arg else .unknownFlag arg)
  | arg :: next :: args => do
    if arg = "--" then return (next :: args, [])
    else if !arg.startsWith "-" then
      let (plain, values) ← split (next :: args)
      return (arg :: plain, values)
    else if flags.contains arg then
      let (plain, values) ← split args
      return (plain, (arg, next) :: values)
    else throw (.unknownFlag arg)

def value (values : List (String × String)) (flag : String) :
    Except UsageFault (Option String) :=
  match values.filter (·.1 = flag) with
  | [] => .ok none
  | [(_, v)] => .ok (some v)
  | _ => .error (.repeatedFlag flag)

def ofArguments (args : List String) : Except UsageFault Options := do
  let (plain, values) ← split args
  match plain with
  | [] => throw .noCatalogue
  | [catalogue] =>
    return { catalogue, header := ← value values "--header", source := ← value values "--source",
             layout := ← value values "--layout-json", includeName := ← value values "--include" }
  | _ :: extra :: _ => throw (.tooMany extra)

end Options

inductive Output where
  | print (text : String)
  | file (path text : String)
  deriving DecidableEq, Repr

/-- With no file to write, the header is printed. The source includes the header by the name of
its file unless told otherwise. -/
def Options.outputs (o : Options) (c : Catalogue) (b : Batch) : List Output :=
  let header := GeneratedCode.headerText c b.table b.fonts
  let name := o.includeName.getD ((o.header.bind Path.name?).getD "Fonts.hpp")
  if o.header.isNone && o.source.isNone && o.layout.isNone then [.print header]
  else
    (o.header.map fun path => .file path header).toList ++
    (o.source.map fun path => .file path (GeneratedCode.sourceText c name b.fonts)).toList ++
    (o.layout.map fun path => .file path (GeneratedCode.layoutText b.table)).toList

namespace FileTree

def write (t : FileTree) (path : String) (bytes : List UInt8) : Except Failure FileTree := do
  match (Path.parent? path).filter (!·.isEmpty) with
  | none => (t.writeBytes path bytes).mapError (.unwritable path)
  | some above =>
    let t ← (t.makeDirectories above).mapError (.noDirectory above)
    (t.writeBytes path bytes).mapError (.unwritable path)

end FileTree

structure CommandRun where
  printed : String := ""
  complaint : Option String := none
  tree : FileTree

namespace CommandRun

def exitCode (r : CommandRun) : Nat := if r.complaint.isSome then 1 else 0

def emit (r : CommandRun) : List Output → CommandRun
  | [] => r
  | .print text :: outputs => emit { r with printed := r.printed ++ text } outputs
  | .file path text :: outputs =>
    match r.tree.write path text.toUTF8.toList with
    | .ok tree => emit { r with tree } outputs
    | .error e => { r with complaint := some e.message }

def ofArguments (args : List String) (tree : FileTree) : CommandRun :=
  match Options.ofArguments args with
  | .error e => { complaint := some e.message, tree }
  | .ok o =>
    let outputs := do
      let c ← Catalogue.load o.catalogue (tree.readText o.catalogue)
      return o.outputs c (← (c.compile tree.readText).2)
    match outputs with
    | .error e => { complaint := some e.message, tree }
    | .ok outputs => emit { tree } outputs

end CommandRun
end PixelFont
