import PixelFont.FieldName

/-!
Recording many notes. Notes that agree with one layout give, recorded in any table, the slots of
that layout for their names and change nothing else; a table that has them already stays as it is.
-/

set_option autoImplicit false

namespace PixelFont.OffsetTable

def Has (t : OffsetTable) (n : Note) : Prop := t.get? n.name = some n.slot

def Within (t layout : OffsetTable) : Prop :=
  ∀ (name : String) (slot : Slot), t.get? name = some slot → layout.get? name = some slot

theorem ext {a b : OffsetTable} (h : a.entries = b.entries) : a = b := by
  cases a
  cases b
  cases h
  rfl

def names (t : OffsetTable) : List String := t.entries.map Prod.fst

theorem names_record (t : OffsetTable) (n : Note) : t.names <+: (t.record n).names := by
  rw [names, names, record, keys_place]
  split
  · exact List.prefix_rfl
  · exact List.prefix_append _ _

theorem names_recordAll (t : OffsetTable) (ns : List Note) :
    t.names <+: (t.recordAll ns).names := by
  induction ns generalizing t with
  | nil => exact List.prefix_rfl
  | cons n ns ih => exact (t.names_record n).trans (ih (t.record n))

theorem recordAll_append (t : OffsetTable) (ms ns : List Note) :
    t.recordAll (ms ++ ns) = (t.recordAll ms).recordAll ns := List.foldl_append

theorem get?_recordAll {layout : OffsetTable} {ns : List Note} (h : ∀ n ∈ ns, layout.Has n)
    (t : OffsetTable) (name : String) :
    (t.recordAll ns).get? name =
      if name ∈ ns.map Note.name then layout.get? name else t.get? name := by
  induction ns generalizing t with
  | nil => rfl
  | cons n ns ih =>
    have hn : layout.get? n.name = some n.slot := h n (by simp)
    have ht := ih (fun m hm => h m (by simp [hm])) (t.record n)
    rw [get?_record] at ht
    refine ht.trans ?_
    by_cases hm : name ∈ ns.map Note.name
    · rw [if_pos hm, if_pos (by rw [List.map_cons]; exact List.mem_cons_of_mem _ hm)]
    · rw [if_neg hm]
      by_cases he : name = n.name
      · rw [if_pos he, if_pos (by simp [he]), he, hn]
      · rw [if_neg he, if_neg (by rw [List.map_cons, List.mem_cons]; exact not_or.mpr ⟨he, hm⟩)]

/-- Notes of one layout stand in the table that they were recorded in, whatever it held before. -/
theorem recordAll_has {layout : OffsetTable} {ns : List Note} (h : ∀ n ∈ ns, layout.Has n)
    (t : OffsetTable) {n : Note} (hn : n ∈ ns) : (t.recordAll ns).Has n := by
  unfold Has
  rw [get?_recordAll h, if_pos (List.mem_map_of_mem hn)]
  exact h n hn

theorem recordAll_within {t layout : OffsetTable} {ns : List Note} (ht : t.Within layout)
    (h : ∀ n ∈ ns, layout.Has n) : (t.recordAll ns).Within layout := by
  intro name slot hs
  rw [get?_recordAll h] at hs
  split at hs
  · exact hs
  · exact ht name slot hs

theorem place_of_lookup {n : Note} {es : List (String × Slot)}
    (h : es.lookup n.name = some n.slot) : place n es = es := by
  induction es with
  | nil => cases h
  | cons e es ih =>
    obtain ⟨key, slot⟩ := e
    rw [lookup_cons_eq] at h
    by_cases hk : n.name = key
    · rw [if_pos hk] at h
      cases h
      simp [place, hk]
    · rw [if_neg hk] at h
      have hk' : key ≠ n.name := fun e => hk e.symm
      simp [place, hk', ih h]

theorem record_of_has {t : OffsetTable} {n : Note} (h : t.Has n) : t.record n = t :=
  ext (place_of_lookup h)

theorem recordAll_of_has {t : OffsetTable} {ns : List Note} (h : ∀ n ∈ ns, t.Has n) :
    t.recordAll ns = t := by
  induction ns with
  | nil => rfl
  | cons n ns ih =>
    have hr : t.recordAll (n :: ns) = t.recordAll ns := congrArg (recordAll · ns)
      (record_of_has (h n (by simp)))
    rw [hr, ih fun m hm => h m (by simp [hm])]

theorem recordAll_recordAll {layout : OffsetTable} {ms ns : List Note}
    (h : ∀ n ∈ ns, layout.Has n) (t : OffsetTable) (hm : ms ⊆ ns) :
    (t.recordAll ns).recordAll ms = t.recordAll ns :=
  recordAll_of_has fun _ hn => recordAll_has h t (hm hn)

theorem change?_of_within {t layout : OffsetTable} {n : Note} (ht : t.Within layout)
    (h : layout.Has n) : t.change? n = none := by
  unfold change?
  cases hg : t.get? n.name with
  | none => rfl
  | some slot =>
    have hs := (ht n.name slot hg).symm.trans h
    simp [Option.some.inj hs]

theorem changes_of_within {t layout : OffsetTable} {ns : List Note} (ht : t.Within layout)
    (h : ∀ n ∈ ns, layout.Has n) : t.changes ns = [] := by
  induction ns generalizing t with
  | nil => rfl
  | cons n ns ih =>
    have hn := h n (by simp)
    have hr : (t.record n).Within layout := by
      show (t.recordAll [n]).Within layout
      exact recordAll_within ht (by simpa using hn)
    rw [changes, change?_of_within ht hn, ih hr fun m hm => h m (by simp [hm])]
    rfl

theorem empty_within (layout : OffsetTable) : empty.Within layout := by
  intro name slot h
  cases h

end PixelFont.OffsetTable
