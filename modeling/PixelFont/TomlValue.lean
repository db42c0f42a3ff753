/-!
Values of the TOML data format, and the rules by which a document builds up its tables: a table is
opened once, and a dotted key extends no table but those made by dotted keys.
-/

set_option autoImplicit false

namespace PixelFont

inductive TableOrigin where
  | inline
  | header
  /-- Named only on the way to another table's header. -/
  | implied
  | dotted
  deriving DecidableEq, Repr

inductive TomlValue where
  | text (s : String)
  | integer (i : Int)
  | bool (b : Bool)
  | float (written : String)
  | dateTime (written : String)
  | list (items : List TomlValue)
  | table (origin : TableOrigin) (entries : List (String × TomlValue))
  | tables (items : List (List (String × TomlValue)))
  deriving Repr

abbrev TomlTable := List (String × TomlValue)

namespace TomlTable

def has (es : TomlTable) (k : String) : Bool := es.any fun e => e.1 = k

def set (es : TomlTable) (k : String) (v : TomlValue) : TomlTable :=
  es.map fun e => if e.1 = k then (k, v) else e

/-- Changes the table at the end of a path. Tables missing on the way are made, as dotted ones if
the path is part of a key and as implied ones if it is part of a header. -/
def edit (dotted : Bool) (change : TableOrigin → TomlTable → Option TomlTable) :
    List String → TableOrigin → TomlTable → Option TomlTable
  | [], origin, es => change origin es
  | k :: path, _, es =>
    match es.lookup k with
    | none => do
      let origin := if dotted then .dotted else .implied
      return es ++ [(k, .table origin (← edit dotted change path origin []))]
    | some (.table origin inner) => do
      if origin = .inline || (dotted && origin = .header) then none
      return es.set k (.table origin (← edit dotted change path origin inner))
    | some (.tables items) => do
      let last ← edit dotted change path .header (← items.getLast?)
      return es.set k (.tables (items.dropLast ++ [last]))
    | some _ => none

def insert (origin : TableOrigin) (es : TomlTable) (path : List String) (k : String)
    (v : TomlValue) : Option TomlTable :=
  edit true (fun origin es =>
    if (origin == .dotted) == path.isEmpty || has es k then none else some (es ++ [(k, v)]))
    path origin es

end TomlTable

/-- A document being read. The table under the latest header is kept apart until the next one. -/
structure TomlDocument where
  root : TomlTable := []
  current : TomlTable := []
  path : List String := []
  repeated : Bool := false

namespace TomlDocument

def close (d : TomlDocument) : Option TomlTable :=
  match d.path.getLast? with
  | none => some d.current
  | some k =>
    d.root.edit false (fun _ es =>
      match es.lookup k with
      | none =>
        some (es ++ [(k, if d.repeated then .tables [d.current] else .table .header d.current)])
      | some (.tables items) =>
        if d.repeated then some (es.set k (.tables (items ++ [d.current]))) else none
      | some _ => none) d.path.dropLast .header

/-- The table, if any, that a header may still open: one that is there only by implication. -/
def reopened (root : TomlTable) (k : String) : List String → Option TomlTable
  | [] =>
    match root.lookup k with
    | some (.table .implied es) => some es
    | _ => none
  | p :: path =>
    match root.lookup p with
    | some (.table _ es) => reopened es k path
    | some (.tables items) => reopened (items.getLast?.getD []) k path
    | _ => none

def openTable (d : TomlDocument) (path : List String) (k : String) : Option TomlDocument := do
  let root ← d.close
  let current := (reopened root k path).getD []
  let root ← root.edit false (fun _ es =>
    match es.lookup k with
    | none => some es
    | some (.table .implied _) => some (es.filter fun e => e.1 ≠ k)
    | some _ => none) path .header
  return { root, current, path := path ++ [k] }

def openItem (d : TomlDocument) (path : List String) (k : String) : Option TomlDocument := do
  let root ← d.close
  let root ← root.edit false (fun _ es =>
    match es.lookup k with
    | none => some (es ++ [(k, .tables [])])
    | some (.tables _) => some es
    | some _ => none) path .header
  return { root, path := path ++ [k], repeated := true }

def insert (d : TomlDocument) (path : List String) (k : String) (v : TomlValue) :
    Option TomlDocument := do
  return { d with current := ← TomlTable.insert .header d.current path k v }

end TomlDocument
end PixelFont
