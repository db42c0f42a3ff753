import PixelFont.Proofs.Machine.Field

set_option autoImplicit false

namespace PixelFont

namespace Bound

def Below (i : Nat) : Bound → Prop
  | .unbounded => True
  | .included n => n ≤ i
  | .excluded n => n < i

def Above (i : Nat) : Bound → Prop
  | .unbounded => True
  | .included n => i ≤ n
  | .excluded n => i < n

theorem below_iff {i : Nat} {lo : Bound} : lo.Below i ↔ lo.first ≤ i := by
  cases lo with
  | unbounded => exact (true_iff _).mpr (Nat.zero_le i)
  | included n => exact Iff.rfl
  | excluded n => exact Iff.rfl

theorem above_iff {i length : Nat} {hi : Bound} (h : i < length) :
    hi.Above i ↔ i < hi.stop length := by
  cases hi with
  | unbounded => exact (true_iff _).mpr h
  | included n => exact Nat.lt_succ_iff.symm
  | excluded n => exact Iff.rfl

end Bound

inductive Cut where
  | after (start : Nat)
  | slice (lo hi : Bound)
  deriving DecidableEq, Repr

namespace Cut

def lower : Cut → Bound
  | .after start => .included start
  | .slice lo _ => lo

def upper : Cut → Bound
  | .after _ => .unbounded
  | .slice _ hi => hi

def Has (c : Cut) (i : Nat) : Prop := c.lower.Below i ∧ c.upper.Above i

def first (c : Cut) : Nat := c.lower.first

def stop (length : Nat) (c : Cut) : Nat := c.upper.stop length

theorem has_iff {c : Cut} {i length : Nat} (h : i < length) :
    c.Has i ↔ c.first ≤ i ∧ i < c.stop length :=
  and_congr Bound.below_iff (Bound.above_iff h)

end Cut

namespace View

def cut? (v : View) : Cut → Option View
  | .after start => v.after? start
  | .slice lo hi => v.slice? lo hi

/-- The last of several parts, each taken of the one before it. -/
def cuts? (v : View) (cs : List Cut) : Option View := cs.foldlM cut? v

/-- The view shows what stands at its position in the data. -/
structure LiesIn (v : View) (data : List UInt8) : Prop where
  stop_le : v.position + v.length ≤ data.length
  bytes_eq : v.bytes = (data.drop v.position).take v.length

section Cut

variable {v w : View} {c : Cut} {data : List UInt8}

theorem cut?_eq_some_iff :
    v.cut? c = some w ↔ c.first ≤ c.stop v.length ∧ c.stop v.length ≤ v.length ∧
      w = ⟨v.position + c.first, (v.bytes.drop c.first).take (c.stop v.length - c.first)⟩ := by
  cases c with
  | after start => exact part?_eq_some_iff
  | slice lo hi => exact part?_eq_some_iff

theorem cut?_eq_none_iff :
    v.cut? c = none ↔ c.stop v.length < c.first ∨ v.length < c.stop v.length := by
  simp only [Option.eq_none_iff_forall_ne_some, ne_eq, cut?_eq_some_iff, not_and]
  constructor
  · intro h
    by_contra hin
    exact h _ (by omega) (by omega) rfl
  · intro hout w hle hstop
    omega

theorem position_of_cut? (h : v.cut? c = some w) : w.position = v.position + c.first := by
  obtain ⟨-, -, rfl⟩ := cut?_eq_some_iff.mp h
  rfl

theorem length_of_cut? (h : v.cut? c = some w) : c.first + w.length = c.stop v.length := by
  obtain ⟨hle, hstop, rfl⟩ := cut?_eq_some_iff.mp h
  show c.first + ((v.bytes.drop c.first).take _).length = _
  have hdrop : (v.bytes.drop c.first).length = v.length - c.first := List.length_drop
  rw [List.length_take_of_le (by omega), Nat.add_sub_cancel' hle]

theorem has_iff_of_cut? (h : v.cut? c = some w) {i : Nat} (hi : i < v.length) :
    c.Has i ↔ w.position ≤ v.position + i ∧ v.position + i < w.position + w.length := by
  have hposition := position_of_cut? h
  have hlength := length_of_cut? h
  rw [Cut.has_iff hi]
  omega

theorem liesIn_whole (data : List UInt8) : LiesIn ⟨0, data⟩ data where
  stop_le := Nat.le_of_eq (Nat.zero_add data.length)
  bytes_eq := List.take_length.symm

theorem LiesIn.cut? (h : v.LiesIn data) (hw : v.cut? c = some w) : w.LiesIn data := by
  have hposition := position_of_cut? hw
  have hlength := length_of_cut? hw
  have hin := h.stop_le
  obtain ⟨hle, hstop, hview⟩ := cut?_eq_some_iff.mp hw
  have hbytes : w.bytes = (v.bytes.drop c.first).take w.length := by
    rw [← Nat.sub_eq_of_eq_add' hlength.symm]
    exact congrArg View.bytes hview
  constructor
  · omega
  · rw [hbytes, hposition, h.bytes_eq, List.drop_take, List.drop_drop, List.take_take,
      Nat.min_eq_left (by omega)]

theorem LiesIn.cuts? {cs : List Cut} (h : v.LiesIn data) (hw : v.cuts? cs = some w) :
    w.LiesIn data := by
  induction cs generalizing v with
  | nil =>
    obtain rfl := Option.some.inj hw
    exact h
  | cons c cs ih =>
    obtain ⟨part, hpart, hrest⟩ := Option.bind_eq_some_iff.mp hw
    exact ih (h.cut? hpart) hrest

end Cut

end View

namespace Machine

def add? (bits a b : Nat) : Option Nat := (add bits a b).toOption

section Sum

variable {m : Type → Type} [Monad m] (sum : Nat → Nat → m Nat)

/-- The first index in a range, by this way to add words. -/
def firstBy : Bound → m Nat
  | .unbounded => pure 0
  | .included n => pure n
  | .excluded n => sum n 1

def stopBy (length : Nat) : Bound → m Nat
  | .unbounded => pure length
  | .included n => sum n 1
  | .excluded n => pure n

def positionBy (v : View) (c : Cut) : m Nat := do sum v.position (← firstBy sum c.lower)

end Sum

def range? (bs : List UInt8) (lo hi : Bound) : Option (List UInt8) := do
  let start ← firstBy (add? 64) lo
  let stop ← stopBy (add? 64) bs.length hi
  if start ≤ stop ∧ stop ≤ bs.length then some ((bs.drop start).take (stop - start)) else none

def position (v : View) (c : Cut) : Nat :=
  Id.run (positionBy (fun a b => pure (saturatingAdd 64 a b)) v c)

/-- The position and the bytes are found apart from each other. -/
def cut? (v : View) (c : Cut) : Option View :=
  (range? v.bytes c.lower c.upper).map fun bs => ⟨position v c, bs⟩

def cuts? (v : View) (cs : List Cut) : Option View := cs.foldlM cut? v

theorem cut?_after (v : View) (start : Nat) : cut? v (.after start) = after? v start :=
  apply_ite (Option.map _) (start ≤ v.length ∧ v.length ≤ v.length) _ _

theorem cut?_before (v : View) (stop : Nat) :
    cut? v (.slice .unbounded (.excluded stop)) = before? v stop :=
  apply_ite (Option.map _) (0 ≤ stop ∧ stop ≤ v.length) _ _

theorem add?_eq_some_iff {a b n : Nat} : add? 64 a b = some n ↔ a + b < 2 ^ 64 ∧ n = a + b := by
  rw [add?, add, word]
  split
  · next h => exact ⟨fun hn => ⟨h, (Option.some.inj hn).symm⟩, fun hn => congrArg some hn.2.symm⟩
  · next h => exact ⟨fun hn => (nomatch hn), fun hn => absurd hn.1 h⟩

theorem add?_eq {a b : Nat} (h : a + b < 2 ^ 64) : add? 64 a b = some (a + b) :=
  add?_eq_some_iff.mpr ⟨h, rfl⟩

section Exact

-- sums may be stopped at the greatest word or fail there, and are exact where there is a word
variable {m : Type → Type} [Monad m] {sum : Nat → Nat → m Nat}
  (hs : ∀ a b, a + b < 2 ^ 64 → sum a b = pure (a + b))
include hs

theorem firstBy_eq {lo : Bound} (h : lo.first < 2 ^ 64) : firstBy sum lo = pure lo.first := by
  cases lo with
  | unbounded => rfl
  | included n => rfl
  | excluded n => exact hs n 1 h

theorem stopBy_eq {length : Nat} {hi : Bound} (h : hi.stop length < 2 ^ 64) :
    stopBy sum length hi = pure (hi.stop length) := by
  cases hi with
  | unbounded => rfl
  | included n => exact hs n 1 h
  | excluded n => rfl

theorem positionBy_eq [LawfulMonad m] {v : View} {c : Cut} (h : v.position + c.first < 2 ^ 64) :
    positionBy sum v c = pure (v.position + c.first) := by
  have hfirst : c.lower.first < 2 ^ 64 := Nat.lt_of_le_of_lt (Nat.le_add_left _ _) h
  rw [positionBy, firstBy_eq hs hfirst, pure_bind]
  exact hs v.position c.first h

end Exact

theorem position_eq {v : View} {c : Cut} (h : v.position + c.first < 2 ^ 64) :
    position v c = v.position + c.first := by
  have hs : ∀ a b, a + b < 2 ^ 64 → (pure (saturatingAdd 64 a b) : Id Nat) = pure (a + b) :=
    fun a b h => congrArg pure (saturatingAdd_eq h)
  exact congrArg Id.run (positionBy_eq hs h)

theorem eq_first_of_firstBy {lo : Bound} {n : Nat} (h : firstBy (add? 64) lo = some n) :
    n = lo.first := by
  cases lo with
  | unbounded => exact (Option.some.inj h).symm
  | included k => exact (Option.some.inj h).symm
  | excluded k => exact (add?_eq_some_iff.mp h).2

theorem eq_stop_of_stopBy {hi : Bound} {length n : Nat}
    (h : stopBy (add? 64) length hi = some n) : n = hi.stop length := by
  cases hi with
  | unbounded => exact (Option.some.inj h).symm
  | included k => exact (add?_eq_some_iff.mp h).2
  | excluded k => exact (Option.some.inj h).symm

theorem range?_eq_some_iff {bs part : List UInt8} {lo hi : Bound} (hbs : bs.length < 2 ^ 64) :
    range? bs lo hi = some part ↔ lo.first ≤ hi.stop bs.length ∧ hi.stop bs.length ≤ bs.length ∧
      part = (bs.drop lo.first).take (hi.stop bs.length - lo.first) := by
  simp only [range?, Option.bind_eq_bind, Option.bind_eq_some_iff]
  constructor
  · rintro ⟨start, hstart, stop, hstop, h⟩
    obtain rfl := eq_first_of_firstBy hstart
    obtain rfl := eq_stop_of_stopBy hstop
    split at h
    · next hin => exact ⟨hin.1, hin.2, (Option.some.inj h).symm⟩
    · cases h
  · rintro ⟨hle, hstop, rfl⟩
    have hs : ∀ a b, a + b < 2 ^ 64 → add? 64 a b = pure (a + b) := fun _ _ => add?_eq
    exact ⟨_, firstBy_eq hs (by omega), _, stopBy_eq hs (by omega), if_pos ⟨hle, hstop⟩⟩

section Data

variable {data : List UInt8} (hd : data.length < 2 ^ 64) {v : View} (hv : v.LiesIn data)
include hd hv

theorem cut?_eq (c : Cut) : cut? v c = v.cut? c := by
  have hin := hv.stop_le
  have hbytes : v.bytes.length < 2 ^ 64 := by
    show v.length < 2 ^ 64
    omega
  have hrange : ∀ bs, range? v.bytes c.lower c.upper = some bs ↔
      c.first ≤ c.stop v.length ∧ c.stop v.length ≤ v.length ∧
        bs = (v.bytes.drop c.first).take (c.stop v.length - c.first) :=
    fun bs => range?_eq_some_iff hbytes
  ext w
  simp only [View.cut?_eq_some_iff, cut?, Option.map_eq_some_iff, hrange]
  constructor
  · rintro ⟨bs, ⟨hle, hstop, rfl⟩, rfl⟩
    rw [position_eq (by omega)]
    exact ⟨hle, hstop, rfl⟩
  · rintro ⟨hle, hstop, rfl⟩
    rw [position_eq (by omega)]
    exact ⟨_, ⟨hle, hstop, rfl⟩, rfl⟩

theorem cuts?_eq (cs : List Cut) : cuts? v cs = v.cuts? cs := by
  induction cs generalizing v with
  | nil => rfl
  | cons c cs ih =>
    rw [cuts?, View.cuts?, List.foldlM_cons, List.foldlM_cons, cut?_eq hd hv]
    cases hw : v.cut? c with
    | none => rfl
    | some w => exact ih (hv.cut? hw)

/-- Sums that fail where there is no word give the position too. -/
theorem positionBy_add? {c : Cut} {w : View} (hw : v.cut? c = some w) :
    positionBy (add? 64) v c = some w.position := by
  obtain ⟨hle, hstop, rfl⟩ := View.cut?_eq_some_iff.mp hw
  have hin := hv.stop_le
  exact positionBy_eq (fun _ _ => add?_eq) (by omega)

end Data

/-- Data have no more bytes than a word can count. That no sum is stopped at the greatest word is
said by way of sums that fail there instead. -/
theorem cuts_keep_track (data : List UInt8) (hd : data.length < 2 ^ 64) (cs : List Cut) :
    cuts? ⟨0, data⟩ cs = View.cuts? ⟨0, data⟩ cs ∧
      ∀ v, View.cuts? ⟨0, data⟩ cs = some v →
        v.LiesIn data ∧
          ∀ c, cut? v c = v.cut? c ∧
            (cut? v c = none ↔ c.stop v.length < c.first ∨ v.length < c.stop v.length) ∧
            ∀ w, cut? v c = some w →
              w.position = v.position + c.first ∧
                (∀ i < v.length, c.Has i ↔
                  w.position ≤ v.position + i ∧ v.position + i < w.position + w.length) ∧
                positionBy (add? 64) v c = some w.position := by
  have hwhole := View.liesIn_whole data
  refine ⟨cuts?_eq hd hwhole cs, fun v hv => ?_⟩
  have hlies := hwhole.cuts? hv
  refine ⟨hlies, fun c => ⟨cut?_eq hd hlies c, ?_⟩⟩
  rw [cut?_eq hd hlies]
  exact ⟨View.cut?_eq_none_iff, fun w hw => ⟨View.position_of_cut? hw,
    fun i hi => View.has_iff_of_cut? hw hi, positionBy_add? hd hlies hw⟩⟩

theorem cuts_keep_track_greatest :
    let data : List UInt8 := [10, 11, 12, 13, 14, 15]
    let v : View := ⟨3, [13, 14]⟩
    cuts? ⟨0, data⟩ [.after 2, .slice (.excluded 0) (.included 2)] = some v ∧ v.LiesIn data ∧
      cut? v (.slice (.excluded (2 ^ 64 - 1)) .unbounded) = none ∧
      cut? v (.slice .unbounded (.included (2 ^ 64 - 1))) = none ∧
      cut? v (.slice (.included 1) (.excluded 0)) = none ∧
      v.cut? (.slice (.excluded 1) .unbounded) = some ⟨5, []⟩ ∧
      positionBy (add? 64) v (.slice (.excluded 1) .unbounded) = some 5 := by
  intro data v
  obtain ⟨hwords, hviews⟩ :=
    cuts_keep_track data (by decide) [.after 2, .slice (.excluded 0) (.included 2)]
  obtain ⟨hlies, hcut⟩ := hviews v (by decide)
  obtain ⟨-, hfar, -⟩ := hcut (.slice (.excluded (2 ^ 64 - 1)) .unbounded)
  obtain ⟨-, hlong, -⟩ := hcut (.slice .unbounded (.included (2 ^ 64 - 1)))
  obtain ⟨-, hreversed, -⟩ := hcut (.slice (.included 1) (.excluded 0))
  obtain ⟨hempty, -, hgiven⟩ := hcut (.slice (.excluded 1) .unbounded)
  have hpart : cut? v (.slice (.excluded 1) .unbounded) = some ⟨5, []⟩ := by decide
  obtain ⟨-, -, hsums⟩ := hgiven _ hpart
  exact ⟨hwords.trans (by decide), hlies, hfar.mpr (by decide), hlong.mpr (by decide),
    hreversed.mpr (by decide), hempty.symm.trans hpart, hsums⟩

end Machine
end PixelFont
