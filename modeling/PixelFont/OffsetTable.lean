import PixelFont.IntFormat

/-!
The offset table: where each named field of a record sits, and with which format. It keeps the
order in which names first appeared; recording a name again replaces its slot in place.
Main statements: `keys_place` and `get?_record`, which say what recording does to the order of
names and to the slot of each name.
-/

set_option autoImplicit false

namespace PixelFont

/-- The place of a field, counted in bytes from the start of its record. A slot with no format
marks a position and holds no value. -/
structure Slot where
  offset : Nat
  format : Option IntFormat
  deriving DecidableEq, Repr

def Slot.describe (s : Slot) : String :=
  let format := match s.format with
    | some f => s!"Some({f.describe})"
    | none => "None"
  "LedgerEntry \x7b offset: " ++ toString s.offset ++ ", ty: " ++ format ++ " \x7d"

structure Note where
  name : String
  slot : Slot
  deriving DecidableEq, Repr

structure Change where
  name : String
  before : Slot
  after : Slot
  deriving DecidableEq, Repr

def Change.message (c : Change) : String :=
  s!"layout of '{c.name}' changed from {c.before.describe} to {c.after.describe}; " ++
    "all fonts in a batch should share one layout"

/-- Replaces the slot of a name where it stands, or adds the name at the end. -/
def place (n : Note) : List (String × Slot) → List (String × Slot)
  | [] => [(n.name, n.slot)]
  | e :: es => if e.1 = n.name then (n.name, n.slot) :: es else e :: place n es

theorem keys_place (n : Note) (es : List (String × Slot)) :
    (place n es).map Prod.fst =
      if n.name ∈ es.map Prod.fst then es.map Prod.fst else es.map Prod.fst ++ [n.name] := by
  induction es with
  | nil => simp [place]
  | cons e es ih =>
    by_cases h : e.1 = n.name
    · simp [place, h]
    · have h' : n.name ≠ e.1 := fun e => h e.symm
      simp only [place, h, if_false, List.map_cons, List.mem_cons, h', false_or, ih]
      split <;> simp

theorem lookup_cons_eq (key name : String) (slot : Slot) (es : List (String × Slot)) :
    ((key, slot) :: es).lookup name = if name = key then some slot else es.lookup name := by
  by_cases h : name = key
  · simp [h]
  · simp [List.lookup_cons, beq_false_of_ne h, h]

theorem lookup_place (n : Note) (es : List (String × Slot)) (name : String) :
    (place n es).lookup name = if name = n.name then some n.slot else es.lookup name := by
  induction es with
  | nil => exact lookup_cons_eq n.name name n.slot []
  | cons e es ih =>
    obtain ⟨key, slot⟩ := e
    by_cases hk : key = n.name
    · by_cases h : name = n.name <;> simp [place, hk, lookup_cons_eq, h]
    · by_cases h : name = key <;> simp [place, hk, lookup_cons_eq, h, ih]

structure OffsetTable where
  entries : List (String × Slot)
  distinct : (entries.map Prod.fst).Nodup
  deriving DecidableEq

namespace OffsetTable

def empty : OffsetTable := ⟨[], .nil⟩

def size (t : OffsetTable) : Nat := t.entries.length

def get? (t : OffsetTable) (name : String) : Option Slot := t.entries.lookup name

def offset? (t : OffsetTable) (name : String) : Option Nat := (t.get? name).map Slot.offset

def record (t : OffsetTable) (n : Note) : OffsetTable where
  entries := place n t.entries
  distinct := by
    have h := t.distinct
    rw [keys_place]
    split
    · exact h
    · next hn =>
      refine List.nodup_append.2 ⟨h, by simp, fun a ha b hb hab => hn ?_⟩
      rwa [← List.mem_singleton.1 hb, ← hab]

theorem get?_record (t : OffsetTable) (n : Note) (name : String) :
    (t.record n).get? name = if name = n.name then some n.slot else t.get? name :=
  lookup_place n t.entries name

def recordAll (t : OffsetTable) (ns : List Note) : OffsetTable := ns.foldl record t

def change? (t : OffsetTable) (n : Note) : Option Change :=
  match t.get? n.name with
  | some s => if s = n.slot then none else some ⟨n.name, s, n.slot⟩
  | none => none

def changes (t : OffsetTable) : List Note → List Change
  | [] => []
  | n :: ns => (t.change? n).toList ++ changes (t.record n) ns

def ofEntries (es : List (String × Slot)) : OffsetTable :=
  recordAll empty (es.map fun (name, slot) => ⟨name, slot⟩)

/-- The same names at the same slots, whatever their order. -/
def agrees (a b : OffsetTable) : Bool :=
  a.size == b.size && a.entries.all fun (name, slot) => b.get? name == some slot

end OffsetTable
end PixelFont
