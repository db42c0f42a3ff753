import PixelFont.Proofs.JsonValue.Layout

set_option autoImplicit false

namespace PixelFont.JsonValue

/-- No part of the value is kept only as it was written. -/
inductive Plain : JsonValue → Prop
  | null : Plain .null
  | bool (b : Bool) : Plain (.bool b)
  | integer (i : Int) : Plain (.integer i)
  | text (s : String) : Plain (.text s)
  | list {items : List JsonValue} (h : ∀ v ∈ items, Plain v) : Plain (.list items)
  | object {members : List (String × JsonValue)} (h : ∀ m ∈ members, Plain m.2) :
    Plain (.object members)

theorem compactItems_eq (vs : List JsonValue) :
    compactItems vs = [','].intercalate (vs.map compact) := by
  induction vs with
  | nil => rfl
  | cons v vs ih => cases vs with
    | nil => exact List.intercalate_singleton.symm
    | cons w vs =>
      calc compactItems (v :: w :: vs) = compact v ++ ',' :: compactItems (w :: vs) := rfl
        _ = [','].intercalate ((v :: w :: vs).map compact) := by simp [ih]

theorem compactMembers_eq (ms : List (String × JsonValue)) :
    compactMembers ms = [','].intercalate (ms.map fun (k, v) => quote k ++ ':' :: compact v) := by
  induction ms with
  | nil => rfl
  | cons m ms ih => cases ms with
    | nil => exact List.intercalate_singleton.symm
    | cons n ms =>
      calc compactMembers (m :: n :: ms) =
          quote m.1 ++ ':' :: compact m.2 ++ ',' :: compactMembers (n :: ms) := rfl
        _ = [','].intercalate ((m :: n :: ms).map fun (k, v) => quote k ++ ':' :: compact v) := by
          simp [ih]

theorem prettyItems_eq (depth : Nat) (vs : List JsonValue) :
    prettyItems depth vs =
      [','].intercalate (vs.map fun v => newLine depth ++ v.pretty (depth + 1)) := by
  induction vs with
  | nil => rfl
  | cons v vs ih => cases vs with
    | nil => exact List.intercalate_singleton.symm
    | cons w vs =>
      calc prettyItems depth (v :: w :: vs) =
          newLine depth ++ v.pretty (depth + 1) ++ ',' :: prettyItems depth (w :: vs) := rfl
        _ = [','].intercalate
            ((v :: w :: vs).map fun v => newLine depth ++ v.pretty (depth + 1)) := by simp [ih]

theorem prettyMembers_eq (depth : Nat) (ms : List (String × JsonValue)) :
    prettyMembers depth ms =
      [','].intercalate (ms.map fun (k, v) =>
        newLine depth ++ (quote k ++ ':' :: ' ' :: v.pretty (depth + 1))) := by
  induction ms with
  | nil => rfl
  | cons m ms ih =>
    have hlast : newLine depth ++ quote m.1 ++ ':' :: ' ' :: m.2.pretty (depth + 1) =
        newLine depth ++ (quote m.1 ++ ':' :: ' ' :: m.2.pretty (depth + 1)) :=
      List.append_assoc _ _ _
    cases ms with
    | nil => exact hlast.trans List.intercalate_singleton.symm
    | cons n ms =>
      calc prettyMembers depth (m :: n :: ms) =
          newLine depth ++ quote m.1 ++ ':' :: ' ' :: m.2.pretty (depth + 1) ++
            ',' :: prettyMembers depth (n :: ms) := rfl
        _ = [','].intercalate ((m :: n :: ms).map fun (k, v) =>
            newLine depth ++ (quote k ++ ':' :: ' ' :: v.pretty (depth + 1))) := by simp [ih]

theorem spaces_nil : Spaces [] := by
  simp [Spaces]

theorem spaces_blank : Spaces [' '] := by
  simp [Spaces, isSpace]

theorem spaces_newLine (depth : Nat) : Spaces (newLine depth) := by
  intro c hc
  obtain rfl | hc := List.mem_cons.mp hc
  · rfl
  · rw [List.eq_of_mem_replicate hc]
    rfl

theorem Plain.reads_compact {v : JsonValue} (h : v.Plain) : Reads v v.compact := by
  induction h with
  | null => exact reads_null
  | bool b => exact reads_bool b
  | integer i => exact reads_integer i
  | text s => exact reads_text s
  | @list items _ ih =>
    cases items with
    | nil => exact fun _ _ _ _ => rfl
    | cons v vs =>
      have htexts : List.Forall₂ Reads (v :: vs) ((v :: vs).map compact) :=
        List.forall₂_map_right_iff.mpr (List.forall₂_same.mpr ih)
      rw [compact, compactItems_eq]
      simpa using reads_list spaces_nil htexts (List.cons_ne_nil v vs)
  | @object members _ ih =>
    cases members with
    | nil => exact fun _ _ _ _ => rfl
    | cons m ms =>
      have htexts : List.Forall₂ ReadsMember (m :: ms)
          ((m :: ms).map fun (k, v) => quote k ++ ':' :: compact v) :=
        List.forall₂_map_right_iff.mpr <| List.forall₂_same.mpr fun m hm =>
          ⟨[], _, rfl, spaces_nil, ih m hm⟩
      rw [compact, compactMembers_eq]
      simpa using reads_object spaces_nil htexts (List.cons_ne_nil m ms)

theorem Plain.reads_pretty {v : JsonValue} (h : v.Plain) (depth : Nat) :
    Reads v (v.pretty depth) := by
  induction h generalizing depth with
  | null => exact reads_null
  | bool b => exact reads_bool b
  | integer i => exact reads_integer i
  | text s => exact reads_text s
  | @list items _ ih =>
    cases items with
    | nil => exact fun _ _ _ _ => rfl
    | cons v vs =>
      have htexts : List.Forall₂ Reads (v :: vs)
          ((v :: vs).map fun v => newLine depth ++ v.pretty (depth + 1)) :=
        List.forall₂_map_right_iff.mpr <| List.forall₂_same.mpr fun v hv =>
          (ih v hv (depth + 1)).space (spaces_newLine depth)
      rw [pretty, prettyItems_eq]
      simpa using reads_list (spaces_newLine (depth - 1)) htexts (List.cons_ne_nil v vs)
  | @object members _ ih =>
    cases members with
    | nil => exact fun _ _ _ _ => rfl
    | cons m ms =>
      have htexts : List.Forall₂ ReadsMember (m :: ms)
          ((m :: ms).map fun (k, v) =>
            newLine depth ++ (quote k ++ ':' :: ' ' :: v.pretty (depth + 1))) :=
        List.forall₂_map_right_iff.mpr <| List.forall₂_same.mpr fun m hm =>
          ⟨newLine depth, _, rfl, spaces_newLine depth, (ih m hm (depth + 1)).space spaces_blank⟩
      rw [pretty, prettyMembers_eq]
      simpa using reads_object (spaces_newLine (depth - 1)) htexts (List.cons_ne_nil m ms)

theorem ofText?_compactText {v : JsonValue} (h : v.Plain) : ofText? v.compactText = some v :=
  h.reads_compact.ofText?

theorem ofText?_prettyText {v : JsonValue} (h : v.Plain) : ofText? v.prettyText = some v :=
  (h.reads_pretty 1).ofText?

end PixelFont.JsonValue
