import PixelFont.Proofs.Check
import PixelFont.Proofs.Machine.Codec

set_option autoImplicit false

namespace PixelFont

namespace IntFormat

def Spans (f : IntFormat) (v : Int) : Prop :=
  if f.signed then -2 ^ (8 * f.bytes - 1) ≤ v ∧ v < 2 ^ (8 * f.bytes - 1)
  else 0 ≤ v ∧ v < 2 ^ (8 * f.bytes)

theorem admits_iff_spans (f : IntFormat) (v : Int) : f.admits v = true ↔ f.Spans v := by
  rw [admits, Spans, least, greatest, bits, ← natCast_valueCount, ← natCast_valueCount,
    Bool.and_eq_true, decide_eq_true_iff, decide_eq_true_iff]
  cases f.signed with
  | true =>
    simp only [if_true]
    omega
  | false =>
    simp only [Bool.false_eq_true, if_false]
    omega

instance (f : IntFormat) (v : Int) : Decidable (f.Spans v) :=
  decidable_of_iff _ (f.admits_iff_spans v)

end IntFormat

namespace Check

inductive Leaf where
  | report (message : String)
  | range (format : IntFormat) (value : Int)
  deriving DecidableEq, Repr

namespace Leaf

def message? : Leaf → Option String
  | .report message => some message
  | .range f v => if f.Spans v then none else some (f.rangeMessage v)

def Bounded : Leaf → Prop
  | .report _ => True
  | .range f _ => 1 ≤ f.bytes ∧ f.bytes ≤ 7

instance : (l : Leaf) → Decidable l.Bounded
  | .report _ => inferInstanceAs (Decidable True)
  | .range f _ => inferInstanceAs (Decidable (1 ≤ f.bytes ∧ f.bytes ≤ 7))

end Leaf

/-- A leaf and the parts that are around it, outermost first. -/
structure Site where
  around : List PathPart
  leaf : Leaf
  deriving DecidableEq, Repr

namespace Site

def inside (p : PathPart) (s : Site) : Site := { s with around := p :: s.around }

def finding? (place : List PathPart) (s : Site) : Option Finding :=
  s.leaf.message?.map (⟨·, place ++ s.around⟩)

theorem finding?_inside (place : List PathPart) (p : PathPart) (s : Site) :
    (s.inside p).finding? place = s.finding? (place ++ [p]) := by
  rw [inside, finding?, finding?, List.append_assoc]
  rfl

end Site

/-- The leaves in the order in which they are come to, wherever they are. -/
def sites : Check → List Site
  | .pass => []
  | .both a b => a.sites ++ b.sites
  | .within p c => c.sites.map (Site.inside p)
  | .report message => [⟨[], .report message⟩]
  | .range f v => [⟨[], .range f v⟩]

theorem foundAt_eq_filterMap (c : Check) (place : List PathPart) :
    c.foundAt place = c.sites.filterMap (Site.finding? place) := by
  induction c generalizing place with
  | pass => rfl
  | both a b iha ihb => rw [foundAt, sites, List.filterMap_append, iha, ihb]
  | within p c ih =>
    rw [foundAt, sites, List.filterMap_map, ih]
    exact congrArg (List.filterMap · c.sites) (funext (Site.finding?_inside place p)).symm
  | report message => simp [foundAt, sites, Site.finding?, Leaf.message?]
  | range f v =>
    rw [foundAt]
    simp only [f.admits_iff_spans v]
    by_cases h : f.Spans v <;> simp [sites, Site.finding?, Leaf.message?, h]

end Check

namespace Machine

def survey : Check → Survey → Checked Survey
  | .pass, s => return s
  | .both a b, s => do survey b (← survey a s)
  | .within p c, s => return (← survey c (s.enter p)).leave
  | .report message, s => return s.report message
  | .range f v, s => do
    if ← admits f v then return s else return s.report (f.rangeMessage v)

theorem survey_eq {c : Check} (h : ∀ site ∈ c.sites, site.leaf.Bounded) (s : Survey) :
    survey c s = .ok (c.run s) := by
  induction c generalizing s with
  | pass => rfl
  | both a b iha ihb =>
    obtain ⟨ha, hb⟩ := List.forall_mem_append.mp h
    rw [survey, iha ha, ok_bind, ihb hb, Check.run]
  | within p c ih =>
    have hc : ∀ site ∈ c.sites, site.leaf.Bounded := fun site hsite =>
      h (site.inside p) (List.mem_map_of_mem hsite)
    rw [survey, ih hc, ok_bind, Check.run]
    rfl
  | report message => rfl
  | range f v =>
    obtain ⟨h₁, h₂⟩ := h ⟨[], .range f v⟩ (List.mem_singleton_self _)
    rw [survey, admits_eq h₁ h₂, ok_bind, Check.run]
    cases f.admits v <;> rfl

end Machine

namespace Check

/-- A check leaves its place as it was and adds to the findings, in the order of its leaves, those
of them that have something to say; each has the parts around its leaf after the place at the start.
A list is the checks of its items in turn, each with its index around it. -/
theorem run_balanced :
    (∀ (c : Check) (s : Survey), (c.run s).place = s.place ∧
      (c.run s).findings.toList =
        s.findings.toList ++ c.sites.filterMap (Site.finding? s.place) ∧
      ((∀ site ∈ c.sites, site.leaf.Bounded) → Machine.survey c s = .ok (c.run s))) ∧
    ∀ (cs : List Check) (s : Survey), ((items cs).run s).findings.toList =
      s.findings.toList ++ cs.zipIdx.flatMap fun (c, i) =>
        c.sites.filterMap (Site.finding? (s.place ++ [.item i])) := by
  have hfindings (c : Check) (s : Survey) :
      (c.run s).findings.toList = s.findings.toList ++ c.foundAt s.place := by
    rw [run_eq]
    simp
  refine ⟨fun c s => ⟨?_, ?_, fun h => Machine.survey_eq h s⟩, fun cs s => ?_⟩
  · rw [run_eq]
  · rw [hfindings, foundAt_eq_filterMap]
  · rw [hfindings, foundAt_items]
    simp only [foundAt_eq_filterMap]

theorem run_balanced_nested :
    let wide : IntFormat := ⟨7, true⟩
    let c : Check := table "Outer" [
      field "items" (items [.range .u8 255,
        .both (field "value" (.range wide (2 ^ 55))) (.report "odd")]), .report "last"]
    let s : Survey := ⟨[.item 3], #[⟨"earlier", []⟩]⟩
    (∀ site ∈ c.sites, site.leaf.Bounded) ∧ (c.run s).place = [.item 3] ∧
      (c.run s).findings.toList = [⟨"earlier", []⟩,
        ⟨"value 36028797018963968 out of range for int56_t " ++
            "(-36028797018963968..=36028797018963967)",
          [.item 3, .table "Outer", .field "items", .item 1, .field "value"]⟩,
        ⟨"odd", [.item 3, .table "Outer", .field "items", .item 1]⟩,
        ⟨"last", [.item 3, .table "Outer"]⟩] ∧
      Machine.survey c s = .ok (c.run s) := by
  intro wide c s
  have hbounded : ∀ site ∈ c.sites, site.leaf.Bounded := by decide
  obtain ⟨hplace, hfindings, hwords⟩ := run_balanced.1 c s
  refine ⟨hbounded, hplace, hfindings.trans ?_, hwords hbounded⟩
  decide +kernel

end Check
end PixelFont
