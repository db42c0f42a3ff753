import PixelFont.Proofs.Font

set_option autoImplicit false

namespace PixelFont

/-- A condition on a value: the way to the value, whether it is met, and what is said if not. -/
structure Demand where
  path : List PathPart
  met : Bool
  message : String
  deriving DecidableEq, Repr

namespace Demand

def finding (d : Demand) : Finding := ⟨d.message, d.path⟩

def range (cType : String) (least greatest : Int) (path : List PathPart) (v : Int) : Demand :=
  ⟨path, least ≤ v && v ≤ greatest,
    s!"value {v} out of range for {cType} ({least}..={greatest})"⟩

def u8 : List PathPart → Int → Demand := range "uint8_t" 0 255
def i8 : List PathPart → Int → Demand := range "int8_t" (-128) 127
def u16 : List PathPart → Int → Demand := range "uint16_t" 0 65535

end Demand

def violations (ds : List Demand) : List Finding :=
  (ds.filter fun d => !d.met).map Demand.finding

def Box.demands (b : Box) (path : List PathPart) : List Demand :=
  [.u8 (path ++ [.field "width"]) b.width.toNat, .u8 (path ++ [.field "height"]) b.height.toNat,
    .i8 (path ++ [.field "x_offset"]) b.xOffset.toInt,
    .i8 (path ++ [.field "y_offset"]) b.yOffset.toInt]

def Advance.demands (a : Advance) (path : List PathPart) : List Demand :=
  [.u8 (path ++ [.field "x"]) a.x.toNat, .u8 (path ++ [.field "y"]) a.y.toNat]

def FontHeader.demands (h : FontHeader) (path : List PathPart) : List Demand :=
  let part (name : String) := path ++ [.table "FontMetrics", .field name]
  [.u8 (part "size") h.size.toNat, .u16 (part "declared_char_count") h.characters.toNat] ++
    h.box.demands (part "bounding_box") ++
    [.u8 (part "ascent") h.ascent.toNat, .u8 (part "descent") h.descent.toNat]

namespace Glyph

def rowCountDemand (g : Glyph) (path : List PathPart) : Demand :=
  ⟨path, g.rows.length = g.box.height.toNat,
    s!"glyph {g.code.text} has {g.rows.length} rows, expected {g.box.height}"⟩

/-- The rows have the path of the bitmap and are told apart by what is said of them. -/
def rowDemand (g : Glyph) (path : List PathPart) : List Bool × Nat → Demand
  | (row, i) => ⟨path, row.length = g.box.width.toNat,
      s!"row {i} of glyph {g.code.text} has {row.length} pixels, expected {g.box.width}"⟩

def demands (g : Glyph) (path : List PathPart) : List Demand :=
  let part (name : String) := path ++ [.table "GlyphRecord", .field name]
  g.advance.demands (part "device_width") ++ g.box.demands (part "bounding_box") ++
    [g.rowCountDemand (part "bitmap")] ++ g.rows.zipIdx.map (g.rowDemand (part "bitmap"))

end Glyph

def Font.demands (f : Font) : List Demand :=
  f.header.demands [.table "FontRecord", .field "metrics"] ++
    f.glyphs.zipIdx.flatMap fun (g, i) =>
      g.demands [.table "FontRecord", .field "glyphs", .item i]

theorem violations_append (ds es : List Demand) :
    violations (ds ++ es) = violations ds ++ violations es := by
  rw [violations, List.filter_append, List.map_append]
  rfl

theorem violations_flatMap {α : Type} (as : List α) (ds : α → List Demand) :
    violations (as.flatMap ds) = as.flatMap fun a => violations (ds a) := by
  induction as with
  | nil => rfl
  | cons a as ih => rw [List.flatMap_cons, violations_append, ih, List.flatMap_cons]

theorem violations_singleton (d : Demand) :
    violations [d] = if d.met then [] else [d.finding] := by
  cases h : d.met <;> simp [violations, h]

namespace Check

theorem foundAt_range (f : IntFormat) (v : Int) (place : List PathPart) :
    (range f v).foundAt place = violations [.range f.cName f.least f.greatest place v] := by
  rw [violations_singleton]
  rfl

/-- Named values, each checked for a format of its own. -/
theorem foundAt_ranges (place : List PathPart) (fs : List (String × IntFormat × Int)) :
    (all (fs.map fun (name, f, v) => .field name (.range f v))).foundAt place =
      violations (fs.map fun (name, f, v) =>
        .range f.cName f.least f.greatest (place ++ [.field name]) v) := by
  rw [foundAt_all, List.flatMap_map, List.map_eq_flatMap, violations_flatMap]
  exact congrArg (List.flatMap · fs) (funext fun (_, f, v) => foundAt_range f v _)

end Check

theorem violations_cons (d : Demand) (ds : List Demand) :
    violations (d :: ds) = violations [d] ++ violations ds := violations_append [d] ds

section Parts

variable (path : List PathPart)

theorem Box.foundAt_check (b : Box) : b.check.foundAt path = violations (b.demands path) :=
  Check.foundAt_ranges path [("width", .u8, b.width.toNat), ("height", .u8, b.height.toNat),
    ("x_offset", .i8, b.xOffset.toInt), ("y_offset", .i8, b.yOffset.toInt)]

theorem Advance.foundAt_check (a : Advance) :
    a.check.foundAt path = violations (a.demands path) :=
  Check.foundAt_ranges path [("x", .u8, a.x.toNat), ("y", .u8, a.y.toNat)]

theorem FontHeader.foundAt_check (h : FontHeader) :
    h.check.foundAt path = violations (h.demands path) := by
  rw [check, demands, Check.foundAt_table]
  simp only [List.flatMap_cons, List.flatMap_nil, Check.foundAt_field, Check.foundAt_range,
    Box.foundAt_check, violations_append, violations_cons _ (_ :: _),
    List.append_assoc, List.append_nil]
  rfl

namespace Glyph

theorem foundAt_checkRowCount (g : Glyph) :
    g.checkRowCount.foundAt path = violations [g.rowCountDemand path] := by
  rw [violations_singleton, checkRowCount, rowCountDemand]
  split <;> simp [*, Check.foundAt, Demand.finding]

theorem foundAt_checkRow (g : Glyph) (row : List Bool) (i : Nat) :
    (g.checkRow i row).foundAt path = violations [g.rowDemand path (row, i)] := by
  rw [violations_singleton, checkRow, rowDemand]
  split <;> simp [*, Check.foundAt, Demand.finding]

theorem foundAt_checkRows (g : Glyph) :
    (Check.all (g.rows.zipIdx.map fun (row, i) => g.checkRow i row)).foundAt path =
      violations (g.rows.zipIdx.map (g.rowDemand path)) := by
  rw [Check.foundAt_all, List.flatMap_map, List.map_eq_flatMap, violations_flatMap]
  exact congrArg (List.flatMap · g.rows.zipIdx)
    (funext fun (row, i) => g.foundAt_checkRow path row i)

theorem foundAt_check (g : Glyph) : g.check.foundAt path = violations (g.demands path) := by
  have hbitmap (place : List PathPart) :
      (Check.both g.checkRowCount
        (.all (g.rows.zipIdx.map fun (row, i) => g.checkRow i row))).foundAt place =
      violations [g.rowCountDemand place] ++
        violations (g.rows.zipIdx.map (g.rowDemand place)) := by
    rw [Check.foundAt, foundAt_checkRowCount, foundAt_checkRows]
  rw [check, demands, Check.foundAt_table]
  simp only [List.flatMap_cons, List.flatMap_nil, Check.foundAt_field, Advance.foundAt_check,
    Box.foundAt_check, hbitmap, violations_append, List.append_assoc, List.append_nil]
  rfl

theorem foundAt_items_check (gs : List Glyph) :
    (Check.items (gs.map check)).foundAt path =
      violations (gs.zipIdx.flatMap fun (g, i) => g.demands (path ++ [.item i])) := by
  rw [Check.foundAt_items, List.zipIdx_map, List.flatMap_map, violations_flatMap]
  exact congrArg (List.flatMap · gs.zipIdx) (funext fun (g, i) => g.foundAt_check _)

end Glyph

end Parts

namespace Font

theorem findings_check (f : Font) : f.check.findings = violations f.demands := by
  rw [Check.findings_eq, check, demands, Check.foundAt_table, violations_append]
  simp only [List.flatMap_cons, List.flatMap_nil, List.append_nil, Check.foundAt_field,
    FontHeader.foundAt_check, Glyph.foundAt_items_check]
  rfl

/-- One thing is found for each demand that is not met, in their order, and nothing else. The font
passes if and only if this is nothing, which is when it fits. -/
theorem findings_complete (f : Font) :
    f.check.findings = violations f.demands ∧
      (f.check.validate = .ok () ↔ violations f.demands = []) ∧
      (∀ fs, f.check.validate = .error fs ↔ fs ≠ [] ∧ fs = violations f.demands) ∧
      (violations f.demands = [] ↔ f.Fits) := by
  have h := f.findings_check
  refine ⟨h, ?_, fun fs => ?_, ?_⟩
  · rw [Check.validate_eq_ok_iff, h]
  · rw [Check.validate_eq_error_iff, h, eq_comm (b := fs)]
  · rw [← h, Check.findings_eq_nil_iff, passes_check]

example :
    ({ header := { ascent := 256 }, glyphs := [{}, { rows := [[true]] }] } : Font).check.findings =
      [⟨"value 256 out of range for uint8_t (0..=255)",
          [.table "FontRecord", .field "metrics", .table "FontMetrics", .field "ascent"]⟩,
        ⟨"glyph 0000 has 1 rows, expected 0", [.table "FontRecord", .field "glyphs", .item 1,
          .table "GlyphRecord", .field "bitmap"]⟩,
        ⟨"row 0 of glyph 0000 has 1 pixels, expected 0", [.table "FontRecord", .field "glyphs",
          .item 1, .table "GlyphRecord", .field "bitmap"]⟩] := by
  decide +kernel

end Font
end PixelFont
