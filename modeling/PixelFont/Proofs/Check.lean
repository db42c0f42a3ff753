import PixelFont.Check

set_option autoImplicit false

namespace PixelFont.Check

def foundAt (place : List PathPart) : Check → List Finding
  | .pass => []
  | .both a b => a.foundAt place ++ b.foundAt place
  | .within p c => c.foundAt (place ++ [p])
  | .report message => [⟨message, place⟩]
  | .range f v => if f.admits v then [] else [⟨f.rangeMessage v, place⟩]

def Passes : Check → Prop
  | .pass => True
  | .both a b => a.Passes ∧ b.Passes
  | .within _ c => c.Passes
  | .report _ => False
  | .range f v => f.admits v = true

theorem run_eq (c : Check) (s : Survey) :
    c.run s = { s with findings := s.findings ++ c.foundAt s.place } := by
  induction c generalizing s with
  | pass => simp [run, foundAt]
  | both a b iha ihb =>
    rw [run, iha, ihb]
    simp only [foundAt, Survey.mk.injEq, true_and]
    apply Array.ext'
    simp
  | within p c ih =>
    rw [run, ih]
    simp [Survey.enter, Survey.leave, foundAt]
  | report message => simp [run, Survey.report, foundAt]
  | range f v =>
    cases h : f.admits v <;> simp [run, Survey.report, foundAt, h]

theorem findings_eq (c : Check) : c.findings = c.foundAt [] := by
  rw [findings, run_eq]
  simp

theorem foundAt_all (cs : List Check) (place : List PathPart) :
    (all cs).foundAt place = cs.flatMap (foundAt place) := by
  induction cs with
  | nil => rfl
  | cons c cs ih =>
    show c.foundAt place ++ (all cs).foundAt place = _
    rw [ih, List.flatMap_cons]

theorem foundAt_table (name : String) (cs : List Check) (place : List PathPart) :
    (table name cs).foundAt place = cs.flatMap (foundAt (place ++ [.table name])) :=
  foundAt_all cs _

theorem foundAt_field (name : String) (c : Check) (place : List PathPart) :
    (field name c).foundAt place = c.foundAt (place ++ [.field name]) := rfl

theorem foundAt_items (cs : List Check) (place : List PathPart) :
    (items cs).foundAt place = cs.zipIdx.flatMap fun (c, i) => c.foundAt (place ++ [.item i]) := by
  rw [items, foundAt_all, List.flatMap_map]
  rfl

theorem foundAt_eq_nil_iff (c : Check) (place : List PathPart) :
    c.foundAt place = [] ↔ c.Passes := by
  induction c generalizing place with
  | pass => simp [foundAt, Passes]
  | both a b iha ihb => simp [foundAt, Passes, iha, ihb]
  | within p c ih => simp [foundAt, Passes, ih]
  | report message => simp [foundAt, Passes]
  | range f v => simp [foundAt, Passes]

theorem findings_eq_nil_iff (c : Check) : c.findings = [] ↔ c.Passes := by
  rw [findings_eq, foundAt_eq_nil_iff]

theorem validate_eq_ok_iff (c : Check) : c.validate = .ok () ↔ c.findings = [] := by
  rw [validate]
  split
  · next h => simp [h]
  · next h => exact iff_of_false (by simp) h

theorem validate_eq_error_iff (c : Check) (fs : List Finding) :
    c.validate = .error fs ↔ fs ≠ [] ∧ c.findings = fs := by
  rw [validate]
  split
  · next h => simp [h, eq_comm]
  · next h =>
    constructor
    · rintro ⟨⟩
      exact ⟨h, rfl⟩
    · rintro ⟨-, rfl⟩
      rfl

theorem passes_all (cs : List Check) : (all cs).Passes ↔ ∀ c ∈ cs, c.Passes := by
  induction cs with
  | nil => simp [all, Passes]
  | cons c cs ih =>
    show c.Passes ∧ (all cs).Passes ↔ _
    rw [ih]
    simp

theorem passes_field (name : String) (c : Check) : (field name c).Passes ↔ c.Passes := Iff.rfl

theorem passes_table (name : String) (cs : List Check) :
    (table name cs).Passes ↔ ∀ c ∈ cs, c.Passes := passes_all cs

theorem passes_all_zipIdx {α : Type} {f : α × Nat → Check} {P : α → Prop}
    (h : ∀ a i, (f (a, i)).Passes ↔ P a) (as : List α) :
    (all (as.zipIdx.map f)).Passes ↔ ∀ a ∈ as, P a := by
  rw [passes_all]
  constructor
  · intro hp a ha
    obtain ⟨i, hi, rfl⟩ := List.getElem_of_mem ha
    have hz : (as[i], i) ∈ as.zipIdx :=
      List.mem_zipIdx_iff_getElem?.mpr (List.getElem?_eq_getElem hi)
    exact (h as[i] i).mp (hp _ (List.mem_map_of_mem hz))
  · intro hp c hc
    obtain ⟨⟨a, i⟩, ha, rfl⟩ := List.mem_map.mp hc
    exact (h a i).mpr (hp a (List.fst_mem_of_mem_zipIdx ha))

theorem passes_items (cs : List Check) : (items cs).Passes ↔ ∀ c ∈ cs, c.Passes :=
  passes_all_zipIdx (fun _ _ => Iff.rfl) cs

end PixelFont.Check
