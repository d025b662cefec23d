import Mathlib.Data.List.Nodup

/-!
Documents as trees of mappings, arrays and scalars, and readers of them that
may fail. An edit follows a reader if what is read of an edited document can be
said from what was read before: the rules take this from the fields of a
mapping and the items of an array to the whole.
-/
namespace Documents

/-- A number outside 64 signed bits is a float, by the text it is shown as. -/
inductive Scalar where
  | null
  | bool (b : Bool)
  | integer (n : Int)
  | float (text : String)
  | text (s : String)
  deriving DecidableEq

inductive Node where
  | scalar (s : Scalar)
  | array (items : List Node)
  | mapping (pairs : List (String × Node))

variable {α : Type}

/-! Readers -/

def readText : Node → Option String
  | .scalar (.text s) => some s
  | _ => none

def readBool : Node → Option Bool
  | .scalar (.bool b) => some b
  | _ => none

/-- An unsigned number below `bound`. -/
def readNatural (bound : Nat) : Node → Option Nat
  | .scalar (.integer (.ofNat n)) => if n < bound then some n else none
  | _ => none

def readInteger : Node → Option Int
  | .scalar (.integer n) => some n
  | _ => none

/-- One of the words of a table. -/
def readWord (table : List (String × α)) (node : Node) : Option α :=
  (readText node).bind fun word => table.lookup word

def readItems (read : Node → Option α) : Node → Option (List α)
  | .array items => items.mapM read
  | _ => none

/-- What is read of the pairs, none of the known keys twice among them. -/
def readMapping (known : List String) (build : List (String × Node) → Option α) :
    Node → Option α
  | .mapping pairs =>
      if ((pairs.map Prod.fst).filter fun key => known.contains key).Nodup then build pairs
      else none
  | _ => none

def required (key : String) (read : Node → Option α) (pairs : List (String × Node)) : Option α :=
  (pairs.lookup key).bind read

def readOptional (read : Node → Option α) : Node → Option (Option α)
  | .scalar .null => some none
  | node => (read node).map some

/-- Left out and null are no value. -/
def optional (key : String) (read : Node → Option α) (pairs : List (String × Node)) :
    Option (Option α) :=
  match pairs.lookup key with
  | none => some none
  | some node => readOptional read node

def defaulted (key : String) (read : Node → Option α) (default : α)
    (pairs : List (String × Node)) : Option α :=
  match pairs.lookup key with
  | none => some default
  | some node => read node

/-! Edits -/

/-- What is read of the edited document is the effect on what was read. -/
def Follows (edit : Node → Node) (read : Node → Option α) (effect : α → α) : Prop :=
  ∀ node, read (edit node) = (read node).map effect

def editFields (edit : String → Node → Node) (pairs : List (String × Node)) :
    List (String × Node) :=
  pairs.map fun pair => (pair.1, edit pair.1 pair.2)

/-- Texts become texts, the other scalars stay, arrays and mappings keep their kind. -/
structure Shaped (edit : Node → Node) (onText : String → String) : Prop where
  text : ∀ s, edit (.scalar (.text s)) = .scalar (.text (onText s))
  scalar : ∀ s, (∀ t, s ≠ .text t) → edit (.scalar s) = .scalar s
  array : ∀ items, ∃ items', edit (.array items) = .array items'
  mapping : ∀ pairs, ∃ pairs', edit (.mapping pairs) = .mapping pairs'

section Rules
variable {β : Type} {edit : Node → Node} {fields : String → Node → Node}
  {pairs : List (String × Node)} {read : Node → Option α} {effect : α → α} {key : String}
  {onText : String → String}

theorem read_mapping_edited {known : List String} {build : List (String × Node) → Option α}
    (same : build (editFields fields pairs) = (build pairs).map effect) :
    readMapping known build (.mapping (editFields fields pairs)) =
      (readMapping known build (.mapping pairs)).map effect := by
  have keys : (editFields fields pairs).map Prod.fst = pairs.map Prod.fst := by
    rw [editFields, List.map_map]
    rfl
  simp only [readMapping, keys]
  split
  · exact same
  · rfl

namespace Shaped

theorem text_follows (shaped : Shaped edit onText) : Follows edit readText onText := by
  intro node
  cases node with
  | scalar s =>
    cases s with
    | text s => rw [shaped.text]; rfl
    | null => rw [shaped.scalar .null (by simp)]; rfl
    | bool b => rw [shaped.scalar (.bool b) (by simp)]; rfl
    | integer n => rw [shaped.scalar (.integer n) (by simp)]; rfl
    | float f => rw [shaped.scalar (.float f) (by simp)]; rfl
  | array items =>
    obtain ⟨items', edited⟩ := shaped.array items
    rw [edited]
    rfl
  | mapping pairs =>
    obtain ⟨pairs', edited⟩ := shaped.mapping pairs
    rw [edited]
    rfl

theorem scalar_still (shaped : Shaped edit id) (s : Scalar) : edit (.scalar s) = .scalar s := by
  by_cases text : ∃ t, s = .text t
  · obtain ⟨t, rfl⟩ := text
    exact shaped.text t
  · exact shaped.scalar s (not_exists.mp text)

theorem still_follows (shaped : Shaped edit id) (arrays : ∀ items, read (.array items) = none)
    (mappings : ∀ pairs, read (.mapping pairs) = none) : Follows edit read id := by
  intro node
  rw [Option.map_id, id]
  cases node with
  | scalar s => rw [shaped.scalar_still]
  | array items =>
    obtain ⟨items', edited⟩ := shaped.array items
    rw [edited, arrays, arrays]
  | mapping pairs =>
    obtain ⟨pairs', edited⟩ := shaped.mapping pairs
    rw [edited, mappings, mappings]

theorem optional_follows (shaped : Shaped edit onText) (follows : Follows edit read effect) :
    Follows edit (readOptional read) (Option.map effect) := by
  intro node
  by_cases empty : node = .scalar .null
  · subst empty
    rw [shaped.scalar .null (by simp)]
    rfl
  · have kept : edit node ≠ .scalar .null := by
      cases node with
      | scalar s =>
        by_cases text : ∃ t, s = .text t
        · obtain ⟨t, rfl⟩ := text
          rw [shaped.text]
          simp
        · rwa [shaped.scalar s (not_exists.mp text)]
      | array items =>
        obtain ⟨items', edited⟩ := shaped.array items
        rw [edited]
        simp
      | mapping pairs =>
        obtain ⟨pairs', edited⟩ := shaped.mapping pairs
        rw [edited]
        simp
    have given : ∀ node, node ≠ .scalar .null → readOptional read node = (read node).map some := by
      intro node some_node
      unfold readOptional
      split
      · exact absurd rfl some_node
      · rfl
    rw [given _ kept, given _ empty, follows node, Option.map_map, Option.map_map]
    rfl

end Shaped

/-! Fields -/

theorem lookup_edited (pairs : List (String × Node)) :
    (editFields fields pairs).lookup key = (pairs.lookup key).map (fields key) := by
  induction pairs with
  | nil => rfl
  | cons pair rest ih =>
    obtain ⟨k, node⟩ := pair
    simp only [editFields, List.map_cons, List.lookup_cons] at ih ⊢
    by_cases same : key = k
    · subst same
      simp
    · rw [beq_eq_false_iff_ne.mpr same]
      exact ih

theorem required_edited (follows : Follows (fields key) read effect)
    (pairs : List (String × Node)) :
    required key read (editFields fields pairs) = (required key read pairs).map effect := by
  rw [required, required, lookup_edited]
  cases pairs.lookup key with
  | none => rfl
  | some node => exact follows node

theorem optional_edited (follows : Follows (fields key) (readOptional read) (Option.map effect))
    (pairs : List (String × Node)) :
    optional key read (editFields fields pairs) =
      (optional key read pairs).map (Option.map effect) := by
  rw [optional, optional, lookup_edited]
  cases pairs.lookup key with
  | none => rfl
  | some node => exact follows node

end Rules

end Documents
