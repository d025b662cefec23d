import Vespertide.Support.Documents
import Mathlib

/-!
The mapping of an enum remapping in a migration file. It is written as a mapping
of the file; the older array of pairs is read as well, and a source value that
appears twice is refused in either form. An action is tagged by one of its own
fields, so its fields are buffered before they are read: a key that the file spells
as a string, as JSON spells all of them, is still a string then.
-/
namespace Vespertide
open Documents

abbrev I64 := {n : Int // -9223372036854775808 ≤ n ∧ n ≤ 9223372036854775807}

/-- A `BTreeMap` from 64-bit integers to 64-bit integers, in the order of its keys. -/
structure RemapMapping where
  entries : List (I64 × I64)
  sorted : entries.Pairwise fun p q => p.1.val < q.1.val

inductive RemapDecodeError where
  | invalid (expected : String)
  | custom (message : String)
  deriving DecidableEq, Repr

namespace RemapMapping

def expecting : String :=
  "a map of integer→integer entries or an array of [old, new] integer pairs"

def keys (m : RemapMapping) : List I64 := m.entries.map Prod.fst

def empty : RemapMapping := ⟨[], List.Pairwise.nil⟩

def insertEntry (p : I64 × I64) (entries : List (I64 × I64)) : List (I64 × I64) :=
  entries.orderedInsert (fun p q => p.1.val < q.1.val) p

theorem insert_entry_sorted {p : I64 × I64} {entries : List (I64 × I64)}
    (fresh : p.1 ∉ entries.map Prod.fst) (sorted : entries.Pairwise fun p q => p.1.val < q.1.val) :
    (insertEntry p entries).Pairwise fun p q => p.1.val < q.1.val := by
  induction entries with
  | nil => exact List.pairwise_singleton _ p
  | cons q rest ih =>
    obtain ⟨first, later⟩ := List.pairwise_cons.mp sorted
    obtain ⟨other, absent⟩ := not_or.mp (mt List.mem_cons.mpr fresh)
    rw [insertEntry, List.orderedInsert_cons]
    split
    · rename_i below
      refine List.pairwise_cons.mpr ⟨fun r mem => ?_, sorted⟩
      rcases List.mem_cons.mp mem with rfl | mem
      · exact below
      · exact below.trans (first r mem)
    · rename_i above
      refine List.pairwise_cons.mpr ⟨fun r mem => ?_, ih absent later⟩
      rcases (List.mem_orderedInsert _).mp mem with rfl | mem
      · exact lt_of_le_of_ne (not_lt.mp above) (Subtype.coe_ne_coe.mpr (Ne.symm other))
      · exact first r mem

theorem insert_entry_last {p : I64 × I64} {entries : List (I64 × I64)}
    (last : ∀ q ∈ entries, q.1.val < p.1.val) : insertEntry p entries = entries ++ [p] := by
  induction entries with
  | nil => rfl
  | cons q rest ih =>
    have below := last q List.mem_cons_self
    have later := ih fun r mem => last r (List.mem_cons_of_mem q mem)
    rw [insertEntry] at later ⊢
    rw [List.orderedInsert_cons, if_neg (not_lt.mpr below.le), later, List.cons_append]

/-- One entry more, unless its source value is there already. -/
def insert (m : RemapMapping) (p : I64 × I64) : Except RemapDecodeError RemapMapping :=
  if fresh : p.1 ∈ m.keys then
    .error (.custom s!"duplicate enum remap key: {p.1.val} appears more than once")
  else .ok ⟨insertEntry p m.entries, insert_entry_sorted fresh m.sorted⟩

end RemapMapping

/-! The file -/

inductive FileFormat where
  | json | yaml | yml
  deriving DecidableEq, Repr

/-- The field as it is buffered, keys included. -/
inductive MappingNode where
  | scalar (s : Scalar)
  | array (items : List Node)
  | mapping (pairs : List (Scalar × Node))

def readI64 : Node → Option I64
  | .scalar (.integer n) =>
      if range : -9223372036854775808 ≤ n ∧ n ≤ 9223372036854775807 then some ⟨n, range⟩ else none
  | _ => none

def readPair : Node → Option (I64 × I64)
  | .array [old, new] => (readI64 old).bind fun old => (readI64 new).map (old, ·)
  | _ => none

def collectEntries {α : Type} (read : α → Option (I64 × I64)) (expected : String) :
    RemapMapping → List α → Except RemapDecodeError RemapMapping
  | m, [] => .ok m
  | m, item :: rest =>
      match read item with
      | none => .error (.invalid expected)
      | some p => do
          let m ← m.insert p
          collectEntries read expected m rest

def readEntry : Scalar × Node → Option (I64 × I64)
  | (key, value) => (readI64 (.scalar key)).bind fun old => (readI64 value).map (old, ·)

def visitSeq (items : List Node) : Except RemapDecodeError RemapMapping :=
  collectEntries readPair "a tuple of size 2" .empty items

def visitMap (pairs : List (Scalar × Node)) : Except RemapDecodeError RemapMapping :=
  collectEntries readEntry "i64" .empty pairs

def deserializeMapping : MappingNode → Except RemapDecodeError RemapMapping
  | .array items => visitSeq items
  | .mapping pairs => visitMap pairs
  | .scalar _ => .error (.invalid RemapMapping.expecting)

def integerNode (n : I64) : Node := .scalar (.integer n.val)

def arrayForm (entries : List (I64 × I64)) : MappingNode :=
  .array (entries.map fun p => .array [integerNode p.1, integerNode p.2])

/-- JSON has no other keys than strings, and spells a number by its decimal numeral. -/
def keyScalar : FileFormat → I64 → Scalar
  | .json, n => .text (toString n.val)
  | .yaml, n | .yml, n => .integer n.val

def mapForm (format : FileFormat) (entries : List (I64 × I64)) : MappingNode :=
  .mapping (entries.map fun p => (keyScalar format p.1, integerNode p.2))

def serializeMapping (format : FileFormat) (m : RemapMapping) : MappingNode :=
  mapForm format m.entries

/-! What is read -/

open RemapMapping

theorem collect_cons {α : Type} {read : α → Option (I64 × I64)} {item : α} {p : I64 × I64}
    (here : read item = some p) (expected : String) (m : RemapMapping) (items : List α) :
    collectEntries read expected m (item :: items) =
      (m.insert p).bind fun m => collectEntries read expected m items := by
  simp only [collectEntries, here]
  rfl

theorem collect_read {α : Type} {read : α → Option (I64 × I64)} {items : List α}
    {entries : List (I64 × I64)} (same : items.map read = entries.map some)
    (expected expected' : String) (m : RemapMapping) :
    collectEntries read expected m items = collectEntries some expected' m entries := by
  induction items generalizing entries m with
  | nil =>
    obtain rfl := List.map_eq_nil_iff.mp same.symm
    rfl
  | cons item items ih =>
    obtain ⟨p, rest, rfl, first, later⟩ := List.map_eq_cons_iff.mp same.symm
    rw [collect_cons first.symm, collect_cons rfl]
    cases m.insert p with
    | error e => rfl
    | ok next => exact ih later.symm next

theorem read_integer (n : I64) : readI64 (integerNode n) = some n := dif_pos n.2

theorem array_read (entries : List (I64 × I64)) :
    (entries.map fun p => Node.array [integerNode p.1, integerNode p.2]).map readPair =
      entries.map some := by
  rw [List.map_map]
  refine List.map_congr_left fun p _ => ?_
  simp [readPair, read_integer]

theorem map_read {format : FileFormat} (yaml : format ≠ .json) (entries : List (I64 × I64)) :
    (entries.map fun p => (keyScalar format p.1, integerNode p.2)).map readEntry =
      entries.map some := by
  rw [List.map_map]
  refine List.map_congr_left fun p _ => ?_
  have key : readI64 (.scalar (keyScalar format p.1)) = some p.1 := by
    cases format with
    | json => exact absurd rfl yaml
    | yaml | yml => exact read_integer p.1
  simp only [Function.comp_apply, readEntry, key, read_integer, Option.bind_some,
    Option.map_some]

/-- A key of a JSON object is no integer once it is buffered. -/
theorem json_map_unread {p : I64 × I64} {entries : List (I64 × I64)} :
    deserializeMapping (mapForm .json (p :: entries)) = .error (.invalid "i64") := rfl

theorem insert_entry_fresh {m : RemapMapping} {p : I64 × I64} (fresh : p.1 ∉ m.keys) :
    m.insert p = .ok ⟨insertEntry p m.entries, insert_entry_sorted fresh m.sorted⟩ :=
  dif_neg fresh

theorem collect_distinct (expected : String) (m : RemapMapping) (entries : List (I64 × I64))
    (distinct : (m.keys ++ entries.map Prod.fst).Nodup) :
    ∃ m', collectEntries some expected m entries = .ok m' ∧
      m'.entries.Perm (m.entries ++ entries) := by
  induction entries generalizing m with
  | nil => exact ⟨m, rfl, by simp⟩
  | cons p entries ih =>
    have fresh : p.1 ∉ m.keys := by
      intro mem
      exact (List.nodup_append.mp distinct).2.2 _ mem _ List.mem_cons_self rfl
    have inserted : (insertEntry p m.entries).Perm (p :: m.entries) := List.perm_orderedInsert ..
    have keys : (RemapMapping.mk (insertEntry p m.entries)
        (insert_entry_sorted fresh m.sorted)).keys.Perm (p.1 :: m.keys) := inserted.map Prod.fst
    obtain ⟨m', ran, perm⟩ := ih ⟨insertEntry p m.entries, insert_entry_sorted fresh m.sorted⟩ (by
      refine ((keys.append_right _).nodup_iff).mpr ?_
      rw [List.map_cons] at distinct
      exact List.nodup_middle.mp distinct)
    refine ⟨m', ?_, perm.trans ?_⟩
    · rw [collect_cons rfl, insert_entry_fresh fresh]
      exact ran
    · exact (inserted.append_right entries).trans List.perm_middle.symm

theorem collect_unread {α : Type} {read : α → Option (I64 × I64)} (expected : String)
    (m : RemapMapping) {items : List α} {item : α} (mem : item ∈ items) (unread : read item = none) :
    ∃ e, collectEntries read expected m items = .error e := by
  induction items generalizing m with
  | nil => cases mem
  | cons first items ih =>
    cases here : read first with
    | none => exact ⟨.invalid expected, by simp [collectEntries, here]⟩
    | some p =>
      rw [collect_cons here]
      cases m.insert p with
      | error e => exact ⟨e, rfl⟩
      | ok next =>
        rcases List.mem_cons.mp mem with rfl | later
        · rw [here] at unread
          cases unread
        · exact ih next later

theorem collect_repeated {α : Type} {read : α → Option (I64 × I64)} (expected : String)
    (m : RemapMapping) (items : List α)
    (again : ¬ (m.keys.map some ++ items.map fun item => (read item).map Prod.fst).Nodup) :
    ∃ e, collectEntries read expected m items = .error e := by
  induction items generalizing m with
  | nil =>
    have keys : m.keys.Nodup := List.pairwise_map.mpr
      (m.sorted.imp fun below => Subtype.coe_ne_coe.mp (ne_of_lt below))
    rw [List.map_nil, List.append_nil] at again
    exact absurd (keys.map (Option.some_injective _)) again
  | cons item items ih =>
    cases here : read item with
    | none => exact ⟨.invalid expected, by simp [collectEntries, here]⟩
    | some p =>
      rw [collect_cons here]
      by_cases mem : p.1 ∈ m.keys
      · rw [RemapMapping.insert, dif_pos mem]
        exact ⟨_, rfl⟩
      · have inserted : (insertEntry p m.entries).Perm (p :: m.entries) :=
          List.perm_orderedInsert ..
        rw [insert_entry_fresh mem]
        refine ih ⟨insertEntry p m.entries, insert_entry_sorted mem m.sorted⟩ ?_
        have keys : (RemapMapping.mk (insertEntry p m.entries)
            (insert_entry_sorted mem m.sorted)).keys.Perm (p.1 :: m.keys) := inserted.map Prod.fst
        rw [List.map_cons, here, Option.map_some] at again
        intro nodup
        refine again (List.nodup_middle.mpr ?_)
        exact (((keys.map some).append_right _).nodup_iff).mp nodup

theorem collect_sorted (expected : String) (m : RemapMapping) (entries : List (I64 × I64))
    (sorted : (m.entries ++ entries).Pairwise fun p q => p.1.val < q.1.val) :
    collectEntries some expected m entries = .ok ⟨m.entries ++ entries, sorted⟩ := by
  induction entries generalizing m with
  | nil => simp [collectEntries]
  | cons p entries ih =>
    have below : ∀ q ∈ m.entries, q.1.val < p.1.val := fun q mem =>
      (List.pairwise_append.mp sorted).2.2 q mem p List.mem_cons_self
    have fresh : p.1 ∉ m.keys := by
      intro mem
      obtain ⟨q, here, same⟩ := List.mem_map.mp mem
      exact absurd (congrArg Subtype.val same) (below q here).ne
    have last := insert_entry_last below
    have later := ih ⟨insertEntry p m.entries, insert_entry_sorted fresh m.sorted⟩ (by
      change (insertEntry p m.entries ++ entries).Pairwise _
      rw [last, List.append_assoc]
      exact sorted)
    rw [collect_cons rfl, insert_entry_fresh fresh]
    refine later.trans ?_
    simp [last]

/-- JSON keeps no entry of the map form. -/
def KeysSurvive (format : FileFormat) (entries : List (I64 × I64)) : Prop :=
  format = .json → entries = []

theorem map_form_read {format : FileFormat} {entries : List (I64 × I64)}
    (survive : KeysSurvive format entries) :
    deserializeMapping (mapForm format entries) = collectEntries some "i64" .empty entries := by
  by_cases json : format = .json
  · rw [survive json]
    rfl
  · rw [mapForm, deserializeMapping, visitMap, collect_read (map_read json entries) "i64" "i64"]

theorem keys_survive {format : FileFormat} {entries : List (I64 × I64)} {m : RemapMapping}
    (read : deserializeMapping (mapForm format entries) = .ok m) : KeysSurvive format entries := by
  rintro rfl
  cases entries with
  | nil => rfl
  | cons p rest =>
    rw [json_map_unread] at read
    cases read

/-- A mapping is read as it was written, and like the array of its entries, if and only if
    the file keeps its keys; a source value that appears twice is refused in every file. -/
theorem remap_mapping_survives_iff (format : FileFormat) :
    (∀ m, deserializeMapping (serializeMapping format m) = .ok m ↔
      KeysSurvive format m.entries) ∧
    (∀ entries : List (I64 × I64), (entries.map Prod.fst).Nodup →
      ((∃ m, deserializeMapping (arrayForm entries) = .ok m ∧
        deserializeMapping (mapForm format entries) = .ok m ∧ m.entries.Perm entries) ↔
          KeysSurvive format entries)) ∧
    (∀ items : List Node, ¬ (items.map fun item => (readPair item).map Prod.fst).Nodup →
      ∃ e, deserializeMapping (.array items) = .error e) ∧
    ∀ pairs : List (Scalar × Node), ¬ (pairs.map fun p => readI64 (.scalar p.1)).Nodup →
      ∃ e, deserializeMapping (.mapping pairs) = .error e := by
  refine ⟨fun m => ⟨keys_survive, fun survive => ?_⟩,
    fun entries distinct => ⟨?_, fun survive => ?_⟩, fun items again => ?_,
    fun pairs again => ?_⟩
  · rw [serializeMapping, map_form_read survive,
      collect_sorted "i64" .empty m.entries (by simpa [empty] using m.sorted)]
    rfl
  · rintro ⟨m, _, read, _⟩
    exact keys_survive read
  · obtain ⟨m, ran, perm⟩ := collect_distinct "i64" .empty entries (by simpa [keys, empty])
    refine ⟨m, ?_, (map_form_read survive).trans ran, by simpa [empty] using perm⟩
    rw [arrayForm, deserializeMapping, visitSeq, collect_read (array_read entries) _ "i64", ran]
  · exact collect_repeated _ _ _ (by simpa [keys, empty])
  · by_cases read : ∀ p ∈ pairs, readEntry p ≠ none
    · refine collect_repeated _ _ _ ?_
      have spelled : (pairs.map fun p => (readEntry p).map Prod.fst) =
          pairs.map fun p => readI64 (.scalar p.1) := by
        refine List.map_congr_left fun p mem => ?_
        obtain ⟨q, here⟩ := Option.ne_none_iff_exists'.mp (read p mem)
        obtain ⟨old, key, rest⟩ := Option.bind_eq_some_iff.mp here
        obtain ⟨new, _, rfl⟩ := Option.map_eq_some_iff.mp rest
        rw [here, key, Option.map_some]
      simpa [keys, empty, spelled] using again
    · obtain ⟨p, mem, unread⟩ := not_forall₂.mp read
      exact collect_unread _ _ mem (not_not.mp unread)

theorem own_json_refused :
    deserializeMapping (serializeMapping .json ⟨[(⟨5, by decide⟩, ⟨10, by decide⟩)],
      List.pairwise_singleton _ _⟩) = .error (.invalid "i64") := rfl

end Vespertide
