import SlangNetlist.Serialization.NetlistSerializer

/-!
# Reading back single records

Each reader inverts its writer: enumerations, locations, symbols, ranges, the
fields of every kind of node, and the annotations of an edge.
-/

namespace SlangNetlist

namespace NetlistSerializer

@[simp] theorem nodeKindFromString_toString (kind : NodeKind) :
    nodeKindFromString (nodeKindToString kind) = kind := by
  cases kind <;> decide

@[simp] theorem edgeKindFromString_toString (kind : EdgeKind) :
    edgeKindFromString (edgeKindToString kind) = kind := by
  cases kind <;> decide

@[simp] theorem dependencyRoleFromString_toString (role : DependencyRole) :
    dependencyRoleFromString (dependencyRoleToString role) = role := by
  cases role <;> decide

@[simp] theorem dependencyPrecisionFromString_toString (precision : DependencyPrecision) :
    dependencyPrecisionFromString (dependencyPrecisionToString precision) = precision := by
  cases precision <;> decide

@[simp] theorem directionFromString_toString (direction : ArgumentDirection) :
    directionFromString (directionToString direction) = direction := by
  cases direction <;> decide

@[simp] theorem locationFromJson_toJson (location : TextLocation) :
    locationFromJson (locationToJson location) = .ok location := by
  rfl

@[simp] theorem symbolFromJson_toJson (symbol : SymbolReference) :
    symbolFromJson (symbolToJson symbol) = .ok symbol := by
  rfl

/-- An ascending range is read back as it is. -/
theorem boundsFromJson_toJson {bounds : DriverBitRange} (ascending : bounds.Ascending) :
    boundsFromJson (boundsToJson bounds) = .ok bounds := by
  obtain ⟨left, right⟩ := bounds
  have lower : (⟨left, right⟩ : DriverBitRange).lower = left :=
    DriverBitRange.lower_mk ascending
  have upper : (⟨left, right⟩ : DriverBitRange).upper = right :=
    DriverBitRange.upper_mk ascending
  rw [boundsToJson, lower, upper]
  rfl

section Node

variable {valueToString : ConstantValue → String} {svIntFromString : String → Option SVInt}

/-- The integer constants are read back from their texts. -/
def ReadsBack (valueToString : ConstantValue → String) (svIntFromString : String → Option SVInt)
    (data : NodeData) : Prop :=
  match data with
  | .constant (.integer value) _ _ => valueToString (.integer value) ≠ "" ∧
      svIntFromString (valueToString (.integer value)) = some value
  | _ => True

instance (data : NodeData) : Decidable (ReadsBack valueToString svIntFromString data) :=
  match data with
  | .constant (.integer value) _ _ =>
      inferInstanceAs (Decidable (valueToString (.integer value) ≠ "" ∧
        svIntFromString (valueToString (.integer value)) = some value))
  | .constant .bad _ _ | .constant (.other _) _ _ => inferInstanceAs (Decidable True)
  | .none | .port .. | .variable .. | .assignment _ | .conditional _ | .case _ | .merge
  | .state .. => inferInstanceAs (Decidable True)

/-- The fields of a node are read back. -/
theorem nodeDataFromJson_toJson {node : NetlistNode} (proper : node.data.Proper)
    (reads : ReadsBack valueToString svIntFromString node.data) :
    nodeDataFromJson svIntFromString node.data.kind (nodeToJson valueToString node) =
      .ok node.data := by
  obtain ⟨ref, ID, data⟩ := node
  match data, proper, reads with
  | .port name path location direction bounds, ascending, _ =>
      have range := boundsFromJson_toJson ascending
      simp only [nodeDataFromJson, NodeData.kind, nodeToJson, nodeFields, Json.field,
        List.cons_append, List.nil_append, List.find?_cons, String.reduceEq, decide_false,
        decide_true, Json.getString, locationFromJson_toJson, range, bind, Except.bind,
        directionFromString_toString]
  | .variable name path location bounds, ascending, _ =>
      have range := boundsFromJson_toJson ascending
      simp only [nodeDataFromJson, NodeData.kind, nodeToJson, nodeFields, Json.field,
        List.cons_append, List.nil_append, List.find?_cons, String.reduceEq, decide_false,
        decide_true, Json.getString, locationFromJson_toJson, range, bind, Except.bind]
  | .state name path location bounds, ascending, _ =>
      have range := boundsFromJson_toJson ascending
      simp only [nodeDataFromJson, NodeData.kind, nodeToJson, nodeFields, Json.field,
        List.cons_append, List.nil_append, List.find?_cons, String.reduceEq, decide_false,
        decide_true, Json.getString, locationFromJson_toJson, range, bind, Except.bind]
  | .constant (.integer value) width location, _, ⟨nonempty, read⟩ =>
      have restored : valueFromString svIntFromString (valueToString (.integer value)) =
          .integer value := by simp [valueFromString, nonempty, read]
      have constant : nodeDataFromJson svIntFromString .constant (nodeToJson valueToString
          ⟨ref, ID, .constant (.integer value) width location⟩) = .ok (.constant
            (valueFromString svIntFromString (valueToString (.integer value))) width
            location) := rfl
      exact constant.trans (by rw [restored])
  | .assignment location, _, _ => rfl
  | .conditional location, _, _ => rfl
  | .case location, _, _ => rfl
  | .merge, _, _ => rfl
  | .none, _, _ => rfl

end Node

end NetlistSerializer

end SlangNetlist
