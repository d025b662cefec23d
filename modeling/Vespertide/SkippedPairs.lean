import Vespertide.RenameRead

/-!
The pairs of a model document that no reader looks at, and which of them the
editor's rename changes: the walk goes by keys and depth, through them as well.
-/
namespace Vespertide
open Documents

/-! What a node is read as -/

inductive ModelPart where
  | table | columns | column | columnType | numValues | numValue | primaryKey | foreignKey
  | constraints | constraint | keepStrategy | orphanStrategy | checkStrategy
  | value
  deriving DecidableEq

def ModelPart.item : ModelPart → ModelPart
  | .columns => .column
  | .numValues => .numValue
  | .constraints => .constraint
  | _ => .value

def complexFields : ComplexKind → List (String × ModelPart)
  | .varchar => [("length", .value)]
  | .numeric => [("precision", .value), ("scale", .value)]
  | .char => [("length", .value)]
  | .custom => [("custom_type", .value)]
  | .enum => [("name", .value), ("values", .numValues)]

def constraintFields : ConstraintKind → List (String × ModelPart)
  | .primaryKey => [("auto_increment", .value), ("columns", .value), ("strategy", .keepStrategy)]
  | .unique => [("name", .value), ("columns", .value), ("strategy", .keepStrategy)]
  | .foreignKey => [("name", .value), ("columns", .value), ("ref_table", .value),
      ("ref_columns", .value), ("on_delete", .value), ("on_update", .value),
      ("orphan_strategy", .orphanStrategy)]
  | .check => [("name", .value), ("expr", .value), ("strategy", .checkStrategy)]
  | .index => [("name", .value), ("columns", .value)]

def checkStrategyFields : CheckStrategyKind → List (String × ModelPart)
  | .nullifyViolatingColumn => [("column", .value)]
  | .deleteViolatingRows => []

/-- The keys that are read of a mapping, with what their values are read as. -/
def ModelPart.fields (part : ModelPart) (pairs : List (String × Node)) :
    List (String × ModelPart) :=
  match part with
  | .table => [("name", .value), ("description", .value), ("columns", .columns),
      ("constraints", .constraints)]
  | .column => [("name", .value), ("type", .columnType), ("nullable", .value),
      ("default", .value), ("comment", .value), ("primary_key", .primaryKey), ("unique", .value),
      ("index", .value), ("foreign_key", .foreignKey)]
  | .columnType =>
      ("kind", .value) :: ((required "kind" (readWord complexKinds) pairs).map complexFields).getD []
  | .numValue => [("name", .value), ("value", .value)]
  | .primaryKey => [("auto_increment", .value)]
  | .foreignKey =>
      if (readReferenceSyntaxDef (.mapping pairs)).isSome then
        [("references", .value), ("on_delete", .value), ("on_update", .value)]
      else [("ref_table", .value), ("ref_columns", .value), ("on_delete", .value),
        ("on_update", .value), ("orphan_strategy", .orphanStrategy)]
  | .constraint => ("type", .value) ::
      ((required "type" (readWord constraintKinds) pairs).map constraintFields).getD []
  | .keepStrategy => [("kind", .value), ("keep", .value)]
  | .orphanStrategy => [("kind", .value)]
  | .checkStrategy => ("kind", .value) ::
      ((required "kind" (readWord checkStrategyKinds) pairs).map checkStrategyFields).getD []
  | .columns | .numValues | .constraints | .value => []

mutual

/-- The pairs below a node that are not read, each with the place where it stands. -/
def skippedPairs (part : ModelPart) (outer : Option (List (String × Node))) :
    Node → List (PairPlace × String × Node)
  | .scalar _ => []
  | .array items => skippedItems part.item outer items
  | .mapping pairs =>
      skippedFields (part.fields pairs) ⟨outer.getD pairs, outer.isNone, pairs⟩ pairs

def skippedItems (part : ModelPart) (outer : Option (List (String × Node))) :
    List Node → List (PairPlace × String × Node)
  | [] => []
  | item :: rest => skippedPairs part outer item ++ skippedItems part outer rest

def skippedFields (fields : List (String × ModelPart)) (place : PairPlace) :
    List (String × Node) → List (PairPlace × String × Node)
  | [] => []
  | (key, value) :: rest =>
      (match fields.lookup key with
        | none => [(place, key, value)]
        | some .value => []
        | some part => skippedPairs part (some place.outer) value) ++
      skippedFields fields place rest

end

mutual

def touches (symbol : ReferenceSymbol) (outer : Option (List (String × Node))) (within : Bool) :
    Node → Bool
  | .scalar (.text s) => within ∧ s = symbol.oldName
  | .scalar _ => false
  | .array items => touchesItems symbol outer within items
  | .mapping pairs => touchesPairs symbol ⟨outer.getD pairs, outer.isNone, pairs⟩ within pairs

def touchesItems (symbol : ReferenceSymbol) (outer : Option (List (String × Node)))
    (within : Bool) : List Node → Bool
  | [] => false
  | item :: rest => touches symbol outer within item || touchesItems symbol outer within rest

def touchesPairs (symbol : ReferenceSymbol) (place : PairPlace) (within : Bool) :
    List (String × Node) → Bool
  | [] => false
  | (key, value) :: rest =>
      (within ∧ key = symbol.oldName) ||
        (match inspectPair symbol place key value with
          | .scalar => true
          | .elements => touches symbol (some place.outer) true value
          | .identifiers => (readText value).any (checkIdentifies symbol.oldName)
          | .nothing => touches symbol (some place.outer) within value) ||
        touchesPairs symbol place within rest

end

section Fixed
variable {symbol : ReferenceSymbol} {new : String}

theorem scalar_hit {place : PairPlace} {key : String} {value : Node}
    (hit : inspectPair symbol place key value = .scalar) :
    value = .scalar (.text symbol.oldName) := by
  have matched : valueMatches value symbol.oldName = true := by
    unfold inspectPair at hit
    cases symbol <;> simp only at hit <;> grind [ReferenceSymbol.oldName]
  simp only [valueMatches, decide_eq_true_eq] at matched
  cases value with
  | scalar s => cases s <;> simp_all [readText]
  | array items => cases matched
  | mapping pairs => cases matched

theorem identifiers_fixed_iff (apart : symbol.oldName ≠ new) (value : Node) :
    editIdentifiers symbol.oldName new value = value ↔
      (readText value).any (checkIdentifies symbol.oldName) = false := by
  cases value with
  | scalar s =>
    cases s with
    | text expr =>
      simpa [editIdentifiers, readText] using rename_in_check_fixed_iff apart expr
    | _ => simp [editIdentifiers, readText]
  | array items => simp [editIdentifiers, readText]
  | mapping pairs => simp [editIdentifiers, readText]

mutual

/-- The walk leaves a node alone exactly where it finds nothing below. -/
theorem walk_fixed_iff (apart : symbol.oldName ≠ new) (outer : Option (List (String × Node)))
    (within : Bool) (node : Node) :
    walkForSymbol symbol new outer within node = node ↔
      touches symbol outer within node = false := by
  match node with
  | .scalar (.text s) =>
    by_cases hit : within = true ∧ s = symbol.oldName
    · simp [walkForSymbol, touches, hit, apart.symm]
    · simp [walkForSymbol, touches, hit]
  | .scalar .null | .scalar (.bool _) | .scalar (.integer _) | .scalar (.float _) =>
    simp [walkForSymbol, touches]
  | .array items =>
    rw [walkForSymbol, touches, Node.array.injEq]
    exact walk_items_fixed_iff apart outer within items
  | .mapping pairs =>
    rw [walkForSymbol, touches, Node.mapping.injEq]
    exact walk_pairs_fixed_iff apart _ within pairs

theorem walk_items_fixed_iff (apart : symbol.oldName ≠ new)
    (outer : Option (List (String × Node))) (within : Bool) (items : List Node) :
    walkItems symbol new outer within items = items ↔
      touchesItems symbol outer within items = false := by
  match items with
  | [] => simp [walkItems, touchesItems]
  | item :: rest =>
    rw [walkItems, touchesItems, List.cons.injEq, Bool.or_eq_false_iff,
      walk_fixed_iff apart outer within item, walk_items_fixed_iff apart outer within rest]

theorem walk_pairs_fixed_iff (apart : symbol.oldName ≠ new) (place : PairPlace) (within : Bool)
    (pairs : List (String × Node)) :
    walkPairs symbol new place within pairs = pairs ↔
      touchesPairs symbol place within pairs = false := by
  match pairs with
  | [] => simp [walkPairs, touchesPairs]
  | (key, value) :: rest =>
    have keys : (if within ∧ key = symbol.oldName then new else key) = key ↔
        decide (within ∧ key = symbol.oldName) = false := by
      by_cases hit : within = true ∧ key = symbol.oldName
      · simp [hit, apart.symm]
      · simp [hit]
    rw [walkPairs, touchesPairs, List.cons.injEq, Prod.mk.injEq, Bool.or_eq_false_iff,
      Bool.or_eq_false_iff, keys, walk_pairs_fixed_iff apart place within rest]
    refine and_congr_left fun _ => and_congr_right fun _ => ?_
    cases found : inspectPair symbol place key value with
    | nothing => exact walk_fixed_iff apart (some place.outer) within value
    | elements => exact walk_fixed_iff apart (some place.outer) true value
    | identifiers => exact identifiers_fixed_iff apart value
    | scalar =>
      obtain rfl := scalar_hit found
      simp [apart.symm]

end

end Fixed

/-! The skipped pairs of an edited document -/

section Edited
variable {symbol : ReferenceSymbol} {new : String}

theorem fields_plain (part : ModelPart) (pairs : List (String × Node)) {key : String}
    {below : ModelPart} (listed : (part.fields pairs).lookup key = some below)
    (other : below ≠ .value) : key ∉ ["name", "ref_table", "ref_columns", "expr"] := by
  have all : ∀ entry ∈ part.fields pairs, entry.2 = .value ∨
      entry.1 ∉ ["name", "ref_table", "ref_columns", "expr"] := by
    cases part with
    | columnType =>
      simp only [ModelPart.fields]
      cases required "kind" (readWord complexKinds) pairs with
      | none => decide
      | some kind => cases kind <;> decide
    | constraint =>
      simp only [ModelPart.fields]
      cases required "type" (readWord constraintKinds) pairs with
      | none => decide
      | some kind => cases kind <;> decide
    | checkStrategy =>
      simp only [ModelPart.fields]
      cases required "kind" (readWord checkStrategyKinds) pairs with
      | none => decide
      | some kind => cases kind <;> decide
    | foreignKey =>
      simp only [ModelPart.fields]
      split <;> decide
    | _ =>
      simp only [ModelPart.fields]
      decide
  obtain ⟨before, after, split, -⟩ := List.lookup_eq_some_iff.mp listed
  have mem : (key, below) ∈ part.fields pairs := by simp [split]
  exact (all _ mem).resolve_left other

theorem fields_edited (part : ModelPart) (place : PairPlace) (pairs : List (String × Node)) :
    part.fields (editFields (pairEdit symbol new place) pairs) = part.fields pairs := by
  cases part with
  | columnType =>
    simp only [ModelPart.fields]
    rw [required_plain (by decide) (walk_word _ _)]
  | constraint =>
    simp only [ModelPart.fields]
    rw [required_plain (by decide) (walk_word _ _)]
  | checkStrategy =>
    simp only [ModelPart.fields]
    rw [required_plain (by decide) (walk_word _ _)]
  | foreignKey =>
    have still : readReferenceSyntaxDef
        (.mapping (editFields (pairEdit symbol new place) pairs)) =
        (readReferenceSyntaxDef (.mapping pairs)).map id := by
      refine read_mapping_edited ?_
      rw [required_plain (by decide) (text_below place.outer),
        optional_plain (by decide) (action_below place.outer),
        optional_plain (by decide) (action_below place.outer), Option.map_id, id]
    simp only [ModelPart.fields]
    rw [still, Option.map_id, id]
  | _ => rfl

def editedPair (symbol : ReferenceSymbol) (new : String) (entry : PairPlace × String × Node) :
    String × Node := (entry.2.1, pairEdit symbol new entry.1 entry.2.1 entry.2.2)

mutual

theorem skipped_walk (part : ModelPart) (outer above : Option (List (String × Node)))
    (node : Node) :
    (skippedPairs part above (walkForSymbol symbol new outer false node)).map Prod.snd =
      (skippedPairs part outer node).map (editedPair symbol new) := by
  match node with
  | .scalar (.text s) => simp [walkForSymbol, skippedPairs]
  | .scalar .null | .scalar (.bool _) | .scalar (.integer _) | .scalar (.float _) =>
    simp [walkForSymbol, skippedPairs]
  | .array items =>
    rw [walkForSymbol, skippedPairs, skippedPairs]
    exact skipped_items_walk part.item outer above items
  | .mapping pairs =>
    rw [walk_mapping, skippedPairs, skippedPairs, fields_edited]
    exact skipped_fields_walk (fun _ _ listed => fields_plain part pairs listed) _ _ pairs

theorem skipped_items_walk (part : ModelPart) (outer above : Option (List (String × Node)))
    (items : List Node) :
    (skippedItems part above (walkItems symbol new outer false items)).map Prod.snd =
      (skippedItems part outer items).map (editedPair symbol new) := by
  match items with
  | [] => simp [walkItems, skippedItems]
  | item :: rest =>
    rw [walkItems, skippedItems, skippedItems, List.map_append, List.map_append,
      skipped_walk part outer above item, skipped_items_walk part outer above rest]

theorem skipped_fields_walk {fields : List (String × ModelPart)}
    (plain : ∀ key below, fields.lookup key = some below → below ≠ .value →
      key ∉ ["name", "ref_table", "ref_columns", "expr"])
    (place above : PairPlace) (pairs : List (String × Node)) :
    (skippedFields fields above (editFields (pairEdit symbol new place) pairs)).map Prod.snd =
      (skippedFields fields place pairs).map (editedPair symbol new) := by
  match pairs with
  | [] => rfl
  | (key, value) :: rest =>
    have later := skipped_fields_walk plain place above rest
    rw [editFields] at later ⊢
    rw [List.map_cons, skippedFields, skippedFields, List.map_append, List.map_append, later]
    congr 1
    cases listed : fields.lookup key with
    | none => rfl
    | some below =>
      by_cases whole : below = .value
      · subst whole
        rfl
      · have walked := skipped_walk below (some place.outer) (some above.outer) value
        rw [← pair_edit_plain (plain key below listed whole)] at walked
        cases below with
        | value => exact absurd rfl whole
        | _ => exact walked

end

end Edited

end Vespertide
