import Mathlib.Data.Finset.Card
import Mathlib.Data.Finset.Dedup
import PixelFont.Proofs.OffsetTable

set_option autoImplicit false

namespace PixelFont

theorem lookup_eq_some_iff_mem {es : List (String × Slot)} (h : (es.map Prod.fst).Nodup)
    {name : String} {slot : Slot} : es.lookup name = some slot ↔ (name, slot) ∈ es := by
  induction es with
  | nil => simp
  | cons e es ih =>
    obtain ⟨key, first⟩ := e
    rw [List.map_cons, List.nodup_cons] at h
    rw [lookup_cons_eq, List.mem_cons, Prod.mk.injEq]
    split
    · next hkey =>
      have hnone : (key, slot) ∉ es := fun hmem => h.1 (List.mem_map.mpr ⟨(key, slot), hmem, rfl⟩)
      simp [hkey, hnone, eq_comm]
    · next hkey => simp [hkey, ih h.2]

namespace OffsetTable

def lastSlot? (ns : List Note) (name : String) : Option Slot :=
  (ns.findRev? fun n => n.name = name).map Note.slot

/-- The change that a note makes after these: its name was last at another slot. -/
def changeAfter? (ns : List Note) (n : Note) : Option Change :=
  ((lastSlot? ns n.name).filter (· ≠ n.slot)).map fun before => ⟨n.name, before, n.slot⟩

theorem lastSlot?_concat (ns : List Note) (n : Note) (name : String) :
    lastSlot? (ns ++ [n]) name = if name = n.name then some n.slot else lastSlot? ns name := by
  by_cases h : name = n.name
  · simp [lastSlot?, List.findRev?_eq_find?_reverse, h]
  · have h' : n.name ≠ name := fun e => h e.symm
    simp [lastSlot?, List.findRev?_eq_find?_reverse, h, h']

theorem recordAll_concat (t : OffsetTable) (ns : List Note) (n : Note) :
    t.recordAll (ns ++ [n]) = (t.recordAll ns).record n := recordAll_append t ns [n]

theorem changes_concat (t : OffsetTable) (ns : List Note) (n : Note) :
    t.changes (ns ++ [n]) = t.changes ns ++ ((t.recordAll ns).change? n).toList := by
  induction ns generalizing t with
  | nil => simp [changes, recordAll]
  | cons m ns ih =>
    rw [List.cons_append, changes, ih, changes, List.append_assoc]
    rfl

theorem mem_entries_iff {t : OffsetTable} {name : String} {slot : Slot} :
    (name, slot) ∈ t.entries ↔ t.get? name = some slot := (lookup_eq_some_iff_mem t.distinct).symm

theorem get?_eq_none_iff {t : OffsetTable} {name : String} :
    t.get? name = none ↔ name ∉ t.names := by
  rw [Option.eq_none_iff_forall_ne_some, names, List.mem_map]
  refine ⟨fun h => ?_, fun h slot hs => h ⟨(name, slot), mem_entries_iff.mpr hs, rfl⟩⟩
  rintro ⟨⟨_, slot⟩, hmem, rfl⟩
  exact h slot (mem_entries_iff.mp hmem)

theorem names_record_eq (t : OffsetTable) (n : Note) :
    (t.record n).names = if n.name ∈ t.names then t.names else t.names ++ [n.name] :=
  keys_place n t.entries

variable {ns : List Note} {name : String}

theorem get?_recordAll_empty (ns : List Note) (name : String) :
    (empty.recordAll ns).get? name = lastSlot? ns name := by
  induction ns using List.reverseRecOn with
  | nil => rfl
  | append_singleton ns n ih => rw [recordAll_concat, get?_record, lastSlot?_concat, ih]

theorem mem_names_recordAll_empty :
    name ∈ (empty.recordAll ns).names ↔ name ∈ ns.map Note.name := by
  induction ns using List.reverseRecOn with
  | nil => rfl
  | append_singleton ns n ih =>
    rw [recordAll_concat, names_record_eq, List.map_append, List.mem_append, ← ih]
    split
    · next hold =>
      refine ⟨.inl, fun h => h.elim id fun hn => ?_⟩
      rwa [List.mem_singleton.mp hn]
    · rw [List.mem_append]
      rfl

theorem ordered_names_recordAll_empty (ns : List Note) :
    (empty.recordAll ns).names.Pairwise fun a b =>
      (ns.map Note.name).idxOf a < (ns.map Note.name).idxOf b := by
  induction ns using List.reverseRecOn with
  | nil => exact .nil
  | append_singleton ns n ih =>
    -- one more note leaves alone where the names before it were recorded first
    have hindex : ∀ a ∈ (empty.recordAll ns).names,
        ((ns ++ [n]).map Note.name).idxOf a = (ns.map Note.name).idxOf a := fun a ha => by
      rw [List.map_append, List.idxOf_append, if_pos (mem_names_recordAll_empty.mp ha)]
    have hbefore : (empty.recordAll ns).names.Pairwise fun a b =>
        ((ns ++ [n]).map Note.name).idxOf a < ((ns ++ [n]).map Note.name).idxOf b :=
      ih.imp_of_mem fun ha hb h => by rwa [hindex _ ha, hindex _ hb]
    rw [recordAll_concat, names_record_eq]
    split
    · exact hbefore
    · next hnew =>
      refine List.pairwise_append.mpr ⟨hbefore, List.pairwise_singleton _ _, fun a ha b hb => ?_⟩
      have hlt := List.idxOf_lt_length_of_mem (mem_names_recordAll_empty.mp ha)
      rw [mem_names_recordAll_empty] at hnew
      rw [hindex a ha, List.mem_singleton.mp hb, List.map_append, List.idxOf_append, if_neg hnew]
      exact Nat.lt_of_lt_of_le hlt (Nat.le_add_left _ _)

theorem size_recordAll_empty (ns : List Note) :
    (empty.recordAll ns).size = (ns.map Note.name).toFinset.card := by
  have hnames : (empty.recordAll ns).names.toFinset = (ns.map Note.name).toFinset := by
    ext name
    rw [List.mem_toFinset, List.mem_toFinset, mem_names_recordAll_empty]
  have hdistinct : (empty.recordAll ns).names.Nodup := (empty.recordAll ns).distinct
  rw [← hnames, List.toFinset_card_of_nodup hdistinct, names, List.length_map, size]

theorem change?_recordAll_empty (ns : List Note) (n : Note) :
    (empty.recordAll ns).change? n = changeAfter? ns n := by
  rw [change?, get?_recordAll_empty, changeAfter?]
  cases lastSlot? ns n.name with
  | none => rfl
  | some before => by_cases h : before = n.slot <;> simp [h]

theorem changes_empty (ns : List Note) :
    empty.changes ns = ns.zipIdx.filterMap fun (n, i) => changeAfter? (ns.take i) n := by
  induction ns using List.reverseRecOn with
  | nil => rfl
  | append_singleton ns n ih =>
    have hbefore : ns.zipIdx.filterMap (fun (m, i) => changeAfter? ((ns ++ [n]).take i) m) =
        ns.zipIdx.filterMap fun (m, i) => changeAfter? (ns.take i) m := by
      refine List.filterMap_congr fun (m, i) hm => ?_
      have hi : i ≤ ns.length := (List.snd_lt_of_mem_zipIdx hm).le
      simp only [List.take_append_of_le_length hi]
    have hlast : (ns ++ [n]).take ns.length = ns := List.take_left
    rw [changes_concat, change?_recordAll_empty, ih, List.zipIdx_append, List.filterMap_append,
      hbefore]
    simp only [List.zipIdx_cons, List.zipIdx_nil, List.filterMap_cons, List.filterMap_nil,
      Nat.zero_add, hlast]
    cases changeAfter? ns n <;> rfl

theorem place_of_notMem {n : Note} {es : List (String × Slot)} (h : n.name ∉ es.map Prod.fst) :
    place n es = es ++ [(n.name, n.slot)] := by
  induction es with
  | nil => rfl
  | cons e es ih =>
    rw [List.map_cons, List.mem_cons, not_or] at h
    rw [place, if_neg fun he => h.1 he.symm, ih h.2, List.cons_append]

theorem entries_ofEntries {es : List (String × Slot)} (h : (es.map Prod.fst).Nodup) :
    (ofEntries es).entries = es := by
  induction es using List.reverseRecOn with
  | nil => rfl
  | append_singleton es e ih =>
    obtain ⟨name, slot⟩ := e
    rw [List.map_append, List.nodup_append_comm] at h
    have hname : name ∉ es.map Prod.fst := (List.nodup_cons.mp h).1
    have hrest := ih (List.nodup_cons.mp h).2
    have hrecord : ofEntries (es ++ [(name, slot)]) = (ofEntries es).record ⟨name, slot⟩ := by
      rw [ofEntries, List.map_append]
      exact recordAll_concat _ _ _
    rw [hrecord]
    show place ⟨name, slot⟩ (ofEntries es).entries = _
    rw [hrest, place_of_notMem hname]

theorem ofEntries_entries (t : OffsetTable) : ofEntries t.entries = t :=
  ext (entries_ofEntries t.distinct)

/-- The table lists each name once, in the order of the first notes, at the slot of its last note. A
change is reported for each note of a name that was last at another slot, in the order of the notes,
and for no other. -/
theorem recordAll_empty_lists (ns : List Note) :
    let t := empty.recordAll ns
    (t.names.Nodup ∧ (∀ name, name ∈ t.names ↔ name ∈ ns.map Note.name) ∧
      t.names.Pairwise fun a b => (ns.map Note.name).idxOf a < (ns.map Note.name).idxOf b) ∧
    (∀ name slot, (name, slot) ∈ t.entries ↔ lastSlot? ns name = some slot) ∧
    (∀ name, t.get? name = lastSlot? ns name ∧
      t.offset? name = (lastSlot? ns name).map Slot.offset ∧
      (t.get? name = none ↔ name ∉ ns.map Note.name)) ∧
    t.size = (ns.map Note.name).toFinset.card ∧
    empty.changes ns = ns.zipIdx.filterMap fun (n, i) => changeAfter? (ns.take i) n := by
  intro t
  have hget : ∀ name, t.get? name = lastSlot? ns name := get?_recordAll_empty ns
  have hnames : ∀ name, name ∈ t.names ↔ name ∈ ns.map Note.name := fun _ =>
    mem_names_recordAll_empty
  refine ⟨⟨t.distinct, hnames, ordered_names_recordAll_empty ns⟩, fun name slot => ?_,
    fun name => ⟨hget name, by rw [offset?, hget], ?_⟩, size_recordAll_empty ns, changes_empty ns⟩
  · rw [mem_entries_iff, hget]
  · rw [get?_eq_none_iff, hnames]

end OffsetTable

end PixelFont
