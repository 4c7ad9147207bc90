import Mathlib.Data.List.Basic

/-!
# Grouped indexes

A map from keys to the lists of values pushed under them, as an association
list in the order of first insertion.  An index over a list of pairs has a
bucket for each key that occurs, and the bucket lists the values of the key in
the order of the pairs.
-/

namespace SlangNetlist.Library

variable {Key Value : Type} [DecidableEq Key]

/-- `index[key].push_back(value)`. -/
def pushBack (key : Key) (value : Value) : List (Key × List Value) → List (Key × List Value)
  | [] => [(key, [value])]
  | entry :: rest =>
      if entry.1 = key then (entry.1, entry.2 ++ [value]) :: rest
      else entry :: pushBack key value rest

/-- `find`: the bucket of a key, if it has one. -/
def findBucket (index : List (Key × List Value)) (key : Key) : Option (List Value) :=
  (index.find? fun entry => entry.1 = key).map Prod.snd

/-- The values of a key among the pairs. -/
def valuesOf (pairs : List (Key × Value)) (key : Key) : List Value :=
  (pairs.filter fun pair => pair.1 = key).map Prod.snd

/-- The index has one bucket for each key of the pairs, with its values in order. -/
structure Indexes (pairs : List (Key × Value)) (index : List (Key × List Value)) : Prop where
  nodup : (index.map Prod.fst).Nodup
  bucket : ∀ entry ∈ index, entry.2 = valuesOf pairs entry.1
  keys : ∀ key, key ∈ index.map Prod.fst ↔ ∃ value, (key, value) ∈ pairs

variable {index : List (Key × List Value)} {pairs : List (Key × Value)} {key other : Key}
  {value : Value}

theorem valuesOf_append (pairs others : List (Key × Value)) (key : Key) :
    valuesOf (pairs ++ others) key = valuesOf pairs key ++ valuesOf others key := by
  simp [valuesOf]

theorem mem_valuesOf : value ∈ valuesOf pairs key ↔ (key, value) ∈ pairs := by
  simp [valuesOf]

theorem valuesOf_eq_nil : valuesOf pairs key = [] ↔ ∀ value, (key, value) ∉ pairs := by
  simp only [List.eq_nil_iff_forall_not_mem, mem_valuesOf]

theorem keys_pushBack : (pushBack key value index).map Prod.fst =
    if key ∈ index.map Prod.fst then index.map Prod.fst else index.map Prod.fst ++ [key] := by
  induction index with
  | nil => simp [pushBack]
  | cons entry rest ih =>
      by_cases same : entry.1 = key
      · simp [pushBack, same]
      · simp only [pushBack, same, if_false, List.map_cons, ih, List.mem_cons, Ne.symm same,
          false_or]
        split <;> simp

/-- An entry of the index after a push is old, or it is the one that grew, or it is new. -/
theorem mem_pushBack {entry : Key × List Value} (nodup : (index.map Prod.fst).Nodup)
    (member : entry ∈ pushBack key value index) :
    (entry ∈ index ∧ entry.1 ≠ key) ∨ (∃ values, (key, values) ∈ index ∧
        entry = (key, values ++ [value])) ∨
      (key ∉ index.map Prod.fst ∧ entry = (key, [value])) := by
  induction index with
  | nil => exact .inr (.inr ⟨by simp, by simpa [pushBack] using member⟩)
  | cons head rest ih =>
      obtain ⟨fresh, nodup⟩ := List.nodup_cons.mp (List.map_cons (f := Prod.fst) ▸ nodup)
      by_cases same : head.1 = key
      · simp only [pushBack, same, if_true, List.mem_cons] at member
        rcases member with grown | old
        · exact .inr (.inl ⟨head.2, by simp [← same], grown⟩)
        · refine .inl ⟨List.mem_cons_of_mem _ old, fun isKey => fresh ?_⟩
          rw [same, ← isKey]
          exact List.mem_map_of_mem old
      · simp only [pushBack, same, if_false, List.mem_cons] at member
        rcases member with rfl | member
        · exact .inl ⟨List.mem_cons_self, same⟩
        · rcases ih nodup member with ⟨old, differs⟩ | ⟨values, old, grown⟩ | ⟨absent, isNew⟩
          · exact .inl ⟨List.mem_cons_of_mem _ old, differs⟩
          · exact .inr (.inl ⟨values, List.mem_cons_of_mem _ old, grown⟩)
          · refine .inr (.inr ⟨?_, isNew⟩)
            simpa [Ne.symm same] using absent

theorem indexes_nil : Indexes ([] : List (Key × Value)) [] :=
  ⟨by simp, by simp, by simp⟩

/-- Pushing a value indexes one more pair. -/
theorem Indexes.pushBack (indexes : Indexes pairs index) (key : Key) (value : Value) :
    Indexes (pairs ++ [(key, value)]) (Library.pushBack key value index) := by
  have known := @keys_pushBack _ _ _ index key value
  refine ⟨?_, fun entry member => ?_, fun other => ?_⟩
  · rw [known]
    split
    · exact indexes.nodup
    · next absent => exact List.nodup_append.mpr ⟨indexes.nodup, by simp, by grind⟩
  · have last : ∀ other, valuesOf [(key, value)] other = if key = other then [value] else [] := by
      intro other
      by_cases same : key = other <;> simp [valuesOf, same]
    rw [valuesOf_append, last]
    rcases mem_pushBack indexes.nodup member with ⟨old, differs⟩ | ⟨values, old, rfl⟩ |
      ⟨absent, rfl⟩
    · rw [if_neg (Ne.symm differs), List.append_nil, indexes.bucket entry old]
    · simp only [if_true, ← indexes.bucket _ old]
    · have noValue : valuesOf pairs key = [] :=
        valuesOf_eq_nil.mpr fun value present => absent ((indexes.keys key).mpr ⟨value, present⟩)
      simp [noValue]
  · rw [known]
    have old := indexes.keys other
    have oldKey := indexes.keys key
    by_cases same : other = key
    · subst same
      split <;> simp_all
    · split <;> simp_all

/-- `find` in an index is a scan of the pairs. -/
theorem Indexes.findBucket (indexes : Indexes pairs index) (key : Key) :
    (Library.findBucket index key).getD [] = valuesOf pairs key := by
  unfold Library.findBucket
  cases found : index.find? fun entry => entry.1 = key with
  | none =>
      have absent : key ∉ index.map Prod.fst := by
        rintro member
        obtain ⟨entry, entryMem, isKey⟩ := List.mem_map.mp member
        exact absurd (List.find?_eq_none.mp found entry entryMem) (by simp [isKey])
      exact (valuesOf_eq_nil.mpr fun value present =>
        absent ((indexes.keys key).mpr ⟨value, present⟩)).symm
  | some entry =>
      have isKey : entry.1 = key := by simpa using List.find?_some found
      simpa [isKey] using indexes.bucket entry (List.mem_of_find?_eq_some found)

end SlangNetlist.Library
