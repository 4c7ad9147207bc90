import SlangNetlist.Graph.NetlistNode
import SlangNetlist.Library.IntervalMap

/-!
# The variable tracker

The nodes that stand for ranges of symbols.  The symbols are the keys, named by
their identities; ports and value symbols are both keys.
-/

namespace SlangNetlist

open Library

structure VariableTracker where
  variableMap : Nat → IntervalMap NodeRef := fun _ => IntervalMap.nil

namespace VariableTracker

/-- Insert a node for a range of a symbol. -/
def insert (tracker : VariableTracker) (symbol : Nat) (bounds : DriverBitRange)
    (node : NodeRef) : VariableTracker :=
  ⟨fun other =>
    if other = symbol then (tracker.variableMap symbol).insert bounds.lower bounds.upper node
    else tracker.variableMap other⟩

/-- The node of the first overlapping entry whose bounds are exactly the given ones. -/
def lookup (tracker : VariableTracker) (symbol : Nat) (bounds : DriverBitRange) :
    Option NodeRef :=
  (((tracker.variableMap symbol).find bounds.lower bounds.upper).find? fun entry =>
    entry.first = bounds.left ∧ entry.second = bounds.right).map Interval.value

/-- The nodes of all ranges of a symbol. -/
def lookupAll (tracker : VariableTracker) (symbol : Nat) : List NodeRef :=
  (tracker.variableMap symbol).entries.map Interval.value

/-- The node is registered for a range of the symbol that contains the bit. -/
def Registered (tracker : VariableTracker) (symbol : Nat) (bit : Int) (node : NodeRef) : Prop :=
  ∃ entry ∈ (tracker.variableMap symbol).entries, entry.value = node ∧ entry.Covers bit

section Lemmas

variable {tracker : VariableTracker} {symbol : Nat} {bounds : DriverBitRange} {node : NodeRef}

/-- A node that is found is registered for exactly the bounds. -/
theorem mem_of_lookup (found : tracker.lookup symbol bounds = some node) :
    (⟨bounds.left, bounds.right, node⟩ : Interval NodeRef) ∈
      (tracker.variableMap symbol).entries := by
  obtain ⟨⟨first, second, value⟩, entryFound, rfl⟩ := Option.map_eq_some_iff.mp found
  have exactly := List.find?_some entryFound
  have member := (IntervalMap.mem_find.mp (List.mem_of_find?_eq_some entryFound)).1
  simp only [decide_eq_true_eq] at exactly
  rw [← exactly.1, ← exactly.2]
  exact member

/-- Inserting leaves the other symbols alone. -/
theorem lookup_insert_of_ne {other : Nat} (ne : other ≠ symbol) (inserted : DriverBitRange) :
    (tracker.insert symbol inserted node).lookup other bounds = tracker.lookup other bounds := by
  simp [lookup, insert, ne]

end Lemmas

end VariableTracker

end SlangNetlist
