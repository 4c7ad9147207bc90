import Mathlib.Data.List.Basic

/-!
# Places in a filtered list

The elements of a list that satisfy a predicate keep their order, so that an
element at an index of the list is at the number of such elements before it in
the filtered list.  They can be moved to the front of the list.
-/

namespace SlangNetlist.Library

variable {α : Type} {keep : α → Bool} {list later : List α} {element : α} {index other : Nat}
  {change : α → α}

/-- The number of elements before the index that satisfy the predicate. -/
def rank (keep : α → Bool) (list : List α) (index : Nat) : Nat :=
  (list.take index).countP keep

@[simp] theorem rank_nil : rank keep [] index = 0 := by
  simp [rank]

@[simp] theorem rank_zero : rank keep list 0 = 0 := by
  simp [rank]

theorem rank_cons_succ {head : α} {rest : List α} : rank keep (head :: rest) (index + 1) =
    rank keep rest index + if keep head then 1 else 0 := by
  simp [rank, List.countP_cons]

theorem rank_append (within : index ≤ list.length) :
    rank keep (list ++ later) index = rank keep list index := by
  rw [rank, List.take_append_of_le_length within, rank]

theorem rank_length : rank keep list list.length = (list.filter keep).length := by
  rw [rank, List.take_length, List.countP_eq_length_filter]

/-- No element before the first one that satisfies the predicate does. -/
theorem rank_findIdx : rank keep list (list.findIdx keep) = 0 := by
  induction list with
  | nil => rfl
  | cons head rest ih =>
      cases holds : keep head with
      | true => simp [List.findIdx_cons, holds]
      | false =>
          have next : (head :: rest).findIdx keep = rest.findIdx keep + 1 := by
            simp [List.findIdx_cons, holds]
          rw [next, rank_cons_succ, ih, holds]
          rfl

/-- A kept element is at its rank. -/
theorem getElem?_filter (found : list[index]? = some element) (kept : keep element = true) :
    (list.filter keep)[rank keep list index]? = some element := by
  induction list generalizing index with
  | nil => cases found
  | cons head rest ih =>
      cases index with
      | zero =>
          obtain rfl : head = element := Option.some.inj found
          simp [kept]
      | succ index =>
          have inRest := ih (show rest[index]? = some element from found)
          rw [rank_cons_succ]
          cases holds : keep head with
          | true => simpa [holds] using inRest
          | false => simpa [holds] using inRest

/-- Changing an element that is not kept, and is not kept afterwards either. -/
theorem filter_modify_of_neg (found : list[index]? = some element)
    (dropped : keep element = false) (still : keep (change element) = false) :
    (list.modify index change).filter keep = list.filter keep := by
  induction list generalizing index with
  | nil => cases found
  | cons head rest ih =>
      cases index with
      | zero =>
          obtain rfl : head = element := Option.some.inj found
          simp [dropped, still]
      | succ index =>
          rw [List.modify_succ_cons, List.filter_cons, List.filter_cons,
            ih (show rest[index]? = some element from found)]

/-- Changing a kept element changes the filtered list at its rank. -/
theorem filter_modify_of_pos (found : list[index]? = some element)
    (kept : keep element = true) (still : keep (change element) = true) :
    (list.modify index change).filter keep =
      (list.filter keep).modify (rank keep list index) change := by
  induction list generalizing index with
  | nil => cases found
  | cons head rest ih =>
      cases index with
      | zero =>
          obtain rfl : head = element := Option.some.inj found
          simp [kept, still]
      | succ index =>
          have inRest := ih (show rest[index]? = some element from found)
          rw [List.modify_succ_cons, List.filter_cons, List.filter_cons, inRest, rank_cons_succ]
          cases holds : keep head <;> simp

/-- A change that respects the predicate leaves the ranks alone. -/
theorem rank_modify (found : list[index]? = some element)
    (respects : keep (change element) = keep element) :
    rank keep (list.modify index change) other = rank keep list other := by
  induction list generalizing index other with
  | nil => cases found
  | cons head rest ih =>
      cases other with
      | zero => simp
      | succ other =>
          cases index with
          | zero =>
              obtain rfl : head = element := Option.some.inj found
              rw [List.modify_zero_cons, rank_cons_succ, rank_cons_succ, respects]
          | succ index =>
              rw [List.modify_succ_cons, rank_cons_succ, rank_cons_succ,
                ih (show rest[index]? = some element from found)]

theorem modify_concat_length :
    (list ++ [element]).modify list.length change = list ++ [change element] := by
  induction list with
  | nil => rfl
  | cons head rest ih => exact congrArg (head :: ·) ih

/-- A kept element is moved ahead, with the other kept ones behind it and the rest at the end. -/
theorem exists_perm_ahead (keep : α → Bool) (member : element ∈ list)
    (kept : keep element = true) :
    ∃ like, (element :: like ++ list.filter fun other => !keep other).Perm list ∧
      ∀ other ∈ like, keep other = true := by
  obtain ⟨front, back, split⟩ := List.append_of_mem (List.mem_filter.mpr ⟨member, kept⟩)
  have ahead : (element :: (front ++ back)).Perm (list.filter keep) :=
    split ▸ List.perm_middle.symm
  refine ⟨front ++ back, (ahead.append_right _).trans (List.filter_append_perm keep list),
    fun other among => ?_⟩
  have inFilter : other ∈ list.filter keep := ahead.subset (List.mem_cons_of_mem _ among)
  exact (List.mem_filter.mp inFilter).2

/-- The items grouped by their keys are the items with these keys in another order. -/
theorem flatMap_filter_perm {Key Item : Type} [DecidableEq Key] {key : Item → Key}
    {keys : List Key} {items : List Item} (nodup : keys.Nodup) :
    (keys.flatMap fun name => items.filter fun item => key item = name).Perm
      (items.filter fun item => key item ∈ keys) := by
  induction keys with
  | nil => simp
  | cons name rest ih =>
      obtain ⟨fresh, restNodup⟩ := List.nodup_cons.mp nodup
      have split := List.filter_append_perm (fun item => key item = name)
        (items.filter fun item => key item ∈ name :: rest)
      rw [List.filter_filter, List.filter_filter] at split
      have first : items.filter (fun item => decide (key item = name) &&
          decide (key item ∈ name :: rest)) = items.filter fun item => key item = name := by
        refine List.filter_congr fun item _ => ?_
        by_cases same : key item = name <;> simp [same]
      have others : items.filter (fun item => !decide (key item = name) &&
          decide (key item ∈ name :: rest)) = items.filter fun item => key item ∈ rest := by
        refine List.filter_congr fun item _ => ?_
        by_cases same : key item = name
        · simp [same, fresh]
        · simp [same]
      rw [first, others] at split
      exact ((ih restNodup).append_left _).trans split

end SlangNetlist.Library
