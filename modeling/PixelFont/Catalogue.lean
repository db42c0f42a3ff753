import PixelFont.IntFormat
import PixelFont.Path
import PixelFont.TomlValue.Reader

set_option autoImplicit false

namespace PixelFont

structure Family where
  name : String
  sizes : List UInt32
  deriving DecidableEq, Repr

structure Catalogue where
  sourceDir : String := ".make-cache/bdf-fonts"
  scope : String := "Display::Font"
  platformInclude : String := "esp_types.h"
  license : Option String := none
  families : List Family := []
  deriving DecidableEq, Repr

structure Listing where
  name : String
  size : UInt32
  path : String
  deriving DecidableEq, Repr

namespace Catalogue

/-- Each family has a directory, and in it a source for each size. -/
def listings (c : Catalogue) : List Listing :=
  c.families.flatMap fun family => family.sizes.map fun size =>
    let path := Path.join (Path.join c.sourceDir family.name) s!"{family.name}.{size}.bdf"
    ⟨family.name, size, path⟩

inductive Fault where
  | malformed
  | wrongType (key : String)
  | unknownKey (key : String) (known : List String)
  | missingKey (key : String)
  deriving DecidableEq, Repr

def Fault.message : Fault → String
  | .malformed => "malformed text"
  | .wrongType key => s!"invalid value for `{key}`"
  | .unknownKey key known =>
    s!"unknown field `{key}`, expected " ++ match known.map fun k => s!"`{k}`" with
      | [a, b] => s!"{a} or {b}"
      | ks => "one of " ++ ", ".intercalate ks
  | .missingKey key => s!"missing field `{key}`"

def textOf (key : String) : TomlValue → Except Fault String
  | .text s => .ok s
  | _ => .error (.wrongType key)

def itemsOf (key : String) : TomlValue → Except Fault (List TomlValue)
  | .list items => .ok items
  | .tables items => .ok (items.map (.table .header))
  | _ => .error (.wrongType key)

def sizesOf (key : String) (v : TomlValue) : Except Fault (List UInt32) := do
  (← itemsOf key v).mapM fun
    | .integer i =>
      match toUInt32? i with
      | some n => .ok n
      | none => .error (.wrongType key)
    | _ => .error (.wrongType key)

def required {α : Type} (key : String) : Option α → Except Fault α
  | some a => .ok a
  | none => .error (.missingKey key)

structure FamilyDraft where
  name : Option String := none
  sizes : Option (List UInt32) := none

namespace FamilyDraft

def keys : List String := ["name", "sizes"]

def add (d : FamilyDraft) : String × TomlValue → Except Fault FamilyDraft
  | ("name", v) => do return { d with name := ← textOf "name" v }
  | ("sizes", v) => do return { d with sizes := ← sizesOf "sizes" v }
  | (key, _) => .error (.unknownKey key keys)

def complete (d : FamilyDraft) : Except Fault Family := do
  return { name := ← required "name" d.name, sizes := ← required "sizes" d.sizes }

end FamilyDraft

/-- A table, or a list of its values in order. A date counts as a table with one reserved key. -/
def familyOf : TomlValue → Except Fault Family
  | .table _ es => do (← es.foldlM FamilyDraft.add {}).complete
  | .list (name :: sizes :: _) => do
    return { name := ← textOf "name" name, sizes := ← sizesOf "sizes" sizes }
  | .dateTime _ => .error (.unknownKey "$__toml_private_datetime" FamilyDraft.keys)
  | _ => .error (.wrongType "fonts")

structure Draft where
  catalogue : Catalogue := {}
  families : Option (List Family) := none

namespace Draft

def keys : List String := ["source_dir", "namespace", "platform_include", "license", "fonts"]

def add (d : Draft) : String × TomlValue → Except Fault Draft
  | ("source_dir", v) => do
    return { d with catalogue.sourceDir := ← textOf "source_dir" v }
  | ("namespace", v) => do return { d with catalogue.scope := ← textOf "namespace" v }
  | ("platform_include", v) => do
    return { d with catalogue.platformInclude := ← textOf "platform_include" v }
  | ("license", v) => do return { d with catalogue.license := some (← textOf "license" v) }
  | ("fonts", v) => do return { d with families := some (← (← itemsOf "fonts" v).mapM familyOf) }
  | (key, _) => .error (.unknownKey key keys)

def complete (d : Draft) : Except Fault Catalogue := do
  return { d.catalogue with families := ← required "fonts" d.families }

end Draft

/-- Entries are looked at in the order of the text, so the first bad one is reported. Only the
families have no default. -/
def parse (text : String) : Except Fault Catalogue :=
  match TomlValue.ofText? text with
  | none => .error .malformed
  | some es => do (← es.foldlM Draft.add {}).complete

/-- The same catalogue as seen from where the file it came from is seen. -/
def relativeTo (c : Catalogue) (file : String) : Catalogue :=
  match Path.parent? file with
  | some dir => if Path.isAbsolute c.sourceDir then c
    else { c with sourceDir := Path.join dir c.sourceDir }
  | none => c

end Catalogue
end PixelFont
