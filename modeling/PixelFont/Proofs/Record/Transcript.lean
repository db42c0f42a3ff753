import Mathlib.Algebra.Ring.Nat
import Mathlib.Data.List.Induction
import PixelFont.Proofs.Record.Fields

/-!
Records that are written call by call, with none nested in them. A transcript lists the calls; it
settles the bytes of the record, holes that are filled later included, and its recordings. Main
statements: `spell_append`, by which the bytes of each call stand apart from those of all others,
and `value_of_fill`, which gives the value of a hole.
-/

set_option autoImplicit false

namespace PixelFont

/-- One call on a buffer. Holes are numbered in the order in which they are reserved. -/
inductive Call where
  | field (name : String) (format : IntFormat) (value : Int)
  | mark (name : String)
  | bytes (bs : List UInt8)
  | reserve (name : String) (format : IntFormat)
  | fill (hole : Nat) (value : Int)
  deriving DecidableEq, Repr

namespace Call

def name? : Call → Option String
  | .field name _ _ | .mark name | .reserve name _ => some name
  | .bytes _ | .fill _ _ => none

def filled? : Call → Option Nat
  | .fill hole _ => some hole
  | _ => none

def width : Call → Nat
  | .field _ f _ | .reserve _ f => f.bytes
  | .bytes bs => bs.length
  | .mark _ | .fill _ _ => 0

def holes : Call → Nat
  | .reserve _ _ => 1
  | _ => 0

/-- The bytes that a call stands for in the end, if the next hole is the one numbered `n` and each
hole is filled with its `value`. -/
def spell (value : Nat → Int) (n : Nat) : Call → List UInt8
  | .field _ f v => f.spell v
  | .bytes bs => bs
  | .reserve _ f => f.spell (value n)
  | .mark _ | .fill _ _ => []

def note? (offset : Nat) : Call → Option Note
  | .field name f _ | .reserve name f => some ⟨name, offset, some f⟩
  | .mark name => some ⟨name, offset, none⟩
  | .bytes _ | .fill _ _ => none

def hole? (place : Nat) : Call → Option Hole
  | .reserve name f => some ⟨name, place, f⟩
  | _ => none

def settle (hole : Nat) (v : Int) : Call → Int
  | .fill i w => if i = hole then w else v
  | _ => v

@[simp] theorem length_spell (value : Nat → Int) (n : Nat) (c : Call) :
    (c.spell value n).length = c.width := by
  cases c <;> simp [spell, width]

theorem map_name_note? (offset : Nat) (c : Call) : (c.note? offset).map Note.name = c.name? := by
  cases c <;> rfl

theorem settle_of_not_fill {c : Call} (h : c.filled? = none) (hole : Nat) (v : Int) :
    c.settle hole v = v := by
  cases c with
  | fill i w => cases h
  | _ => rfl

end Call

abbrev Transcript := List Call

/-- The calls that a plan makes when its record has come to `position`. A plan that nests a record
or fails of its own accord has none. -/
def Plan.transcript? : {n : Nat} → Plan n → (position : Nat) → Option Transcript
  | _, .done, _ => some []
  | _, .fail _, _ => none
  | _, .field name f v next, k => (next.transcript? (k + f.bytes)).map (.field name f v :: ·)
  | _, .mark name next, k => (next.transcript? k).map (.mark name :: ·)
  | _, .bytes bs next, k => (next.transcript? (k + bs.length)).map (.bytes bs :: ·)
  | _, .reserve name f next, k => (next.transcript? (k + f.bytes)).map (.reserve name f :: ·)
  | _, .fill i v next, k => (next.transcript? k).map (.fill i v :: ·)
  | _, .position next, k => (next k).transcript? k
  | _, .record _ _, _ => none

namespace Transcript

def width (cs : Transcript) : Nat := (cs.map Call.width).sum

def holeCount (cs : Transcript) : Nat := (cs.map Call.holes).sum

def value (cs : Transcript) (hole : Nat) : Int := cs.foldl (Call.settle hole) 0

def spell (value : Nat → Int) : Nat → Transcript → List UInt8
  | _, [] => []
  | n, c :: cs => c.spell value n ++ spell value (n + c.holes) cs

def placed : Nat → Transcript → List (Nat × Call)
  | _, [] => []
  | k, c :: cs => (k, c) :: placed (k + c.width) cs

def noted (cs : Transcript) : List Note := (placed 0 cs).filterMap fun (k, c) => c.note? k

def holesFrom (start : Nat) (cs : Transcript) : List Hole :=
  (placed start cs).filterMap fun (k, c) => c.hole? k

@[simp] theorem width_append (as bs : Transcript) : width (as ++ bs) = width as + width bs := by
  simp [width]

theorem value_concat (cs : Transcript) (c : Call) (hole : Nat) :
    value (cs ++ [c]) hole = c.settle hole (cs.value hole) := List.foldl_append

@[simp] theorem length_spell (value : Nat → Int) (n : Nat) (cs : Transcript) :
    (spell value n cs).length = width cs := by
  induction cs generalizing n with
  | nil => rfl
  | cons c cs ih => simp [spell, width, ih]

theorem spell_append (value : Nat → Int) (n : Nat) (as bs : Transcript) :
    spell value n (as ++ bs) = spell value n as ++ spell value (n + holeCount as) bs := by
  induction as generalizing n with
  | nil => simp [spell, holeCount]
  | cons a as ih => simp [spell, holeCount, ih, Nat.add_assoc]

theorem spell_congr {value value' : Nat → Int} {n : Nat} {cs : Transcript}
    (h : ∀ k, n ≤ k → k < n + holeCount cs → value k = value' k) :
    spell value n cs = spell value' n cs := by
  induction cs generalizing n with
  | nil => rfl
  | cons c cs ih =>
    have hc : c.spell value n = c.spell value' n := by
      cases c with
      | reserve name f =>
        have hn : n < n + holeCount (.reserve name f :: cs) := by
          simp only [holeCount, List.map_cons, List.sum_cons, Call.holes]
          omega
        simp only [Call.spell, h n (Nat.le_refl n) hn]
      | _ => rfl
    have hcs : spell value (n + c.holes) cs = spell value' (n + c.holes) cs := by
      refine ih fun k hn hk => h k (by omega) ?_
      simp only [holeCount, List.map_cons, List.sum_cons] at hk ⊢
      omega
    rw [spell, spell, hc, hcs]

theorem spell_reserve (value : Nat → Int) (before : Transcript) (name : String) (f : IntFormat)
    (later : Transcript) :
    spell value 0 (before ++ .reserve name f :: later) =
      spell value 0 before ++ (f.spell (value (holeCount before)) ++
        spell value (holeCount before + 1) later) := by
  rw [spell_append, Nat.zero_add]
  rfl

/-- Another value for one hole changes the bytes of that hole and no others. -/
theorem spell_refill {value value' : Nat → Int} {before later : Transcript} {v : Int}
    (h : ∀ k, value' k = if holeCount before = k then v else value k) (name : String)
    (f : IntFormat) :
    spell value' 0 (before ++ .reserve name f :: later) =
      spell value 0 before ++ (f.spell v ++ spell value (holeCount before + 1) later) := by
  have hbefore : spell value' 0 before = spell value 0 before :=
    spell_congr fun k _ hk => by rw [h, if_neg (by omega)]
  have hlater : spell value' (holeCount before + 1) later =
      spell value (holeCount before + 1) later :=
    spell_congr fun k hk _ => by rw [h, if_neg (by omega)]
  rw [spell_reserve, hbefore, hlater, h, if_pos rfl]

theorem placed_append (k : Nat) (as bs : Transcript) :
    placed k (as ++ bs) = placed k as ++ placed (k + width as) bs := by
  induction as generalizing k with
  | nil => simp [placed, width]
  | cons a as ih => simp [placed, width, ih, Nat.add_assoc]

theorem noted_concat (cs : Transcript) (c : Call) :
    noted (cs ++ [c]) = noted cs ++ (c.note? (width cs)).toList := by
  cases h : c.note? (width cs) <;> simp [noted, placed_append, placed, h]

theorem mem_noted {before later : Transcript} {c : Call} {n : Note}
    (h : c.note? (width before) = some n) : n ∈ noted (before ++ c :: later) := by
  rw [noted, placed_append, Nat.zero_add, placed]
  exact List.mem_filterMap.mpr ⟨(width before, c), by simp, h⟩

theorem map_name_noted (cs : Transcript) : cs.noted.map Note.name = cs.filterMap Call.name? := by
  unfold noted
  generalize 0 = k
  induction cs generalizing k with
  | nil => rfl
  | cons c cs ih =>
    have hc := Call.map_name_note? k c
    cases hn : c.note? k with
    | none =>
      rw [hn] at hc
      simp [placed, hn, ih, ← hc]
    | some n =>
      rw [hn] at hc
      simp [placed, hn, ih, ← hc]

theorem holesFrom_append (start : Nat) (as bs : Transcript) :
    holesFrom start (as ++ bs) = holesFrom start as ++ holesFrom (start + width as) bs := by
  simp [holesFrom, placed_append]

theorem holesFrom_concat (start : Nat) (cs : Transcript) (c : Call) :
    holesFrom start (cs ++ [c]) = holesFrom start cs ++ (c.hole? (start + width cs)).toList := by
  cases h : c.hole? (start + width cs) <;> simp [holesFrom, placed_append, placed, h]

theorem holesFrom_cons (start : Nat) (c : Call) (cs : Transcript) :
    holesFrom start (c :: cs) = (c.hole? start).toList ++ holesFrom (start + c.width) cs := by
  cases h : c.hole? start <;> simp [holesFrom, placed, h]

theorem length_holesFrom (start : Nat) (cs : Transcript) :
    (holesFrom start cs).length = holeCount cs := by
  induction cs generalizing start with
  | nil => rfl
  | cons c cs ih =>
    rw [holesFrom_cons, List.length_append, ih]
    cases c <;> simp [holeCount, Call.holes, Call.hole?]

theorem exists_of_holesFrom {start i : Nat} {cs : Transcript} {h : Hole}
    (hi : (holesFrom start cs)[i]? = some h) :
    ∃ before later, cs = before ++ .reserve h.name h.format :: later ∧
      holeCount before = i ∧ h.place = start + width before := by
  induction cs generalizing start i with
  | nil => cases hi
  | cons c cs ih =>
    rw [holesFrom_cons] at hi
    cases hc : c.hole? start with
    | none =>
      rw [hc] at hi
      obtain ⟨before, later, rfl, hn, hp⟩ := ih hi
      have h0 : c.holes = 0 := by cases c <;> first | rfl | cases hc
      refine ⟨c :: before, later, rfl, ?_, ?_⟩
      · simp only [holeCount, List.map_cons, List.sum_cons] at hn ⊢
        omega
      · simp only [width, List.map_cons, List.sum_cons] at hp ⊢
        omega
    | some hole =>
      cases c with
      | reserve name f =>
        cases hc
        cases i with
        | zero =>
          cases hi
          exact ⟨[], cs, rfl, rfl, rfl⟩
        | succ i =>
          obtain ⟨before, later, rfl, hn, hp⟩ := ih hi
          refine ⟨.reserve name f :: before, later, rfl, ?_, ?_⟩
          · simp only [holeCount, List.map_cons, List.sum_cons, Call.holes] at hn ⊢
            omega
          · simp only [width, List.map_cons, List.sum_cons] at hp ⊢
            omega
      | _ => cases hc

theorem holesFrom_reserve (start : Nat) (before : Transcript) (name : String) (f : IntFormat)
    (later : Transcript) :
    (holesFrom start (before ++ .reserve name f :: later))[holeCount before]? =
      some ⟨name, start + width before, f⟩ := by
  rw [holesFrom_append, ← length_holesFrom start before, List.getElem?_append_right (Nat.le_refl _),
    Nat.sub_self, holesFrom_cons]
  rfl

theorem value_cases (cs : Transcript) (i : Nat) :
    .fill i (cs.value i) ∈ cs ∨ (∀ v, .fill i v ∉ cs) ∧ cs.value i = 0 := by
  induction cs using List.reverseRecOn with
  | nil => exact .inr ⟨fun _ => List.not_mem_nil, rfl⟩
  | append_singleton cs c ih =>
    rw [value_concat]
    by_cases hc : ∃ w, c = .fill i w
    · obtain ⟨w, rfl⟩ := hc
      exact .inl (by simp [Call.settle])
    · have hs : c.settle i (value cs i) = value cs i := by
        cases c with
        | fill j w => exact if_neg fun hj => hc ⟨w, by rw [hj]⟩
        | _ => rfl
      rw [hs]
      cases ih with
      | inl hm => exact .inl (List.mem_append_left _ hm)
      | inr hm =>
        refine .inr ⟨fun v hv => ?_, hm.2⟩
        rcases List.mem_append.mp hv with h | h
        · exact hm.1 v h
        · exact hc ⟨v, (List.mem_singleton.mp h).symm⟩

theorem value_of_fill {cs : Transcript} (h : (cs.filterMap Call.filled?).Nodup) {i : Nat} {v : Int}
    (hv : .fill i v ∈ cs) : cs.value i = v := by
  have unique : ∀ {cs : Transcript}, (cs.filterMap Call.filled?).Nodup → ∀ {v w : Int},
      .fill i v ∈ cs → .fill i w ∈ cs → v = w := by
    intro cs h v w hv hw
    induction cs with
    | nil => cases hv
    | cons c cs ih =>
      have hin : ∀ {u : Int}, .fill i u ∈ cs → i ∈ cs.filterMap Call.filled? :=
        fun hu => List.mem_filterMap.mpr ⟨_, hu, rfl⟩
      rcases List.mem_cons.mp hv with rfl | hv'
      · rcases List.mem_cons.mp hw with he | hw'
        · cases he
          rfl
        · exact absurd (hin hw') (List.nodup_cons.mp h).1
      · rcases List.mem_cons.mp hw with rfl | hw'
        · exact absurd (hin hv') (List.nodup_cons.mp h).1
        · refine ih ?_ hv' hw'
          exact h.sublist ((List.sublist_cons_self c cs).filterMap _)
  cases value_cases cs i with
  | inl hm => exact unique h hm hv
  | inr hm => exact absurd hv (hm.1 v)

end Transcript
end PixelFont
