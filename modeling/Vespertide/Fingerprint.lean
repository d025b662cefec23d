import Mathlib.Data.List.AList
import Mathlib.Data.List.Perm.Subperm
import Mathlib.Data.List.Sort
import Mathlib.Data.String.Basic

/-!
The fingerprint of the open documents. It is kept with the version and the byte length of
each document it was computed from, and given again while these agree; so it is stale
where a document has changed its text under the same version and length.
-/
namespace Vespertide

structure DocumentState where
  version : Int
  text : String

abbrev DocumentStore := AList fun _ : String => DocumentState

structure DocstoreFingerprintEntry where
  uri : String
  version : Int
  textLen : Nat

/-- The address is the one of the store. -/
structure CachedDocstoreFingerprint (δ : Type) where
  docsAddr : Nat
  len : Nat
  entries : List DocstoreFingerprintEntry
  fingerprint : δ

namespace DocumentStore

def openUris (docs : DocumentStore) : List String := docs.keys.insertionSort (· ≤ ·)

/-- What `for_each` visits: the open documents sorted by their URI. -/
def visited (docs : DocumentStore) : List (String × DocumentState) :=
  docs.openUris.filterMap fun uri => (docs.lookup uri).map (uri, ·)

def openDocument (docs : DocumentStore) (uri : String) (version : Int) (text : String) :
    DocumentStore :=
  docs.insert uri { version, text }

/-- Only an open document is updated. -/
def updateFull (docs : DocumentStore) (uri text : String) (version : Int) : DocumentStore :=
  match docs.lookup uri with
  | some _ => docs.insert uri { version, text }
  | none => docs

def close (docs : DocumentStore) (uri : String) : DocumentStore := docs.erase uri

def contents (docs : DocumentStore) : List (String × String) :=
  docs.visited.map fun (uri, state) => (uri, state.text)

end DocumentStore

def DocumentState.shape (state : DocumentState) : Int × Nat :=
  (state.version, state.text.utf8ByteSize)

section
variable {δ : Type} (digest : List (String × String) → δ) (docsAddr : Nat)

def computeDocstoreFingerprint (docs : DocumentStore) : δ × List DocstoreFingerprintEntry :=
  (digest docs.contents, docs.visited.map fun (uri, state) =>
    { uri, version := state.version, textLen := state.text.utf8ByteSize })

def cachedDocstoreFingerprint (docs : DocumentStore)
    (cache : Option (CachedDocstoreFingerprint δ)) : Option δ :=
  cache.bind fun cached =>
    if cached.docsAddr ≠ docsAddr ∨ cached.len ≠ docs.keys.length then none
    else if cached.entries.all fun entry =>
      ((docs.lookup entry.uri).map fun state =>
        decide (state.shape = (entry.version, entry.textLen))).getD false
    then some cached.fingerprint
    else none

def docstoreFingerprint (docs : DocumentStore) (cache : Option (CachedDocstoreFingerprint δ)) :
    δ × Option (CachedDocstoreFingerprint δ) :=
  match cachedDocstoreFingerprint docsAddr docs cache with
  | some fingerprint => (fingerprint, cache)
  | none =>
      let (fingerprint, entries) := computeDocstoreFingerprint digest docs
      (fingerprint, some { docsAddr, len := entries.length, entries, fingerprint })

end

inductive StoreCall where
  | opened (uri : String) (version : Int) (text : String)
  | updated (uri text : String) (version : Int)
  | closed (uri : String)
  | fingerprint

/-- The last component is what the cached value was computed from; the code does not
    keep it. -/
structure Session (δ : Type) where
  docs : DocumentStore
  cache : Option (CachedDocstoreFingerprint δ)
  computedFrom : Option DocumentStore

section
variable {δ : Type} (digest : List (String × String) → δ) (docsAddr : Nat)

def Session.step (s : Session δ) : StoreCall → Session δ
  | .opened uri version text => { s with docs := s.docs.openDocument uri version text }
  | .updated uri text version => { s with docs := s.docs.updateFull uri text version }
  | .closed uri => { s with docs := s.docs.close uri }
  | .fingerprint =>
      { s with
        cache := (docstoreFingerprint digest docsAddr s.docs s.cache).2
        computedFrom := match cachedDocstoreFingerprint docsAddr s.docs s.cache with
          | some _ => s.computedFrom
          | none => some s.docs }

def Session.run (calls : List StoreCall) : Session δ :=
  calls.foldl (Session.step digest docsAddr)
    { docs := ∅, cache := none, computedFrom := none }

def Session.answer (s : Session δ) : δ := (docstoreFingerprint digest docsAddr s.docs s.cache).1

def AllFresh (calls : List StoreCall) : Prop :=
  ∀ before after, calls = before ++ .fingerprint :: after →
    (Session.run digest docsAddr before).answer digest docsAddr =
      (computeDocstoreFingerprint digest (Session.run digest docsAddr before).docs).1

end

/-- The same documents are open, each with the same version and byte length. -/
def DocumentStore.Alike (a b : DocumentStore) : Prop :=
  ∀ uri, (a.lookup uri).map (·.shape) = (b.lookup uri).map (·.shape)

def DocumentStore.SameTexts (a b : DocumentStore) : Prop :=
  ∀ uri, (a.lookup uri).map (·.text) = (b.lookup uri).map (·.text)

/-! What is digested -/

namespace DocumentStore
variable {a b docs : DocumentStore}

theorem mem_visited {uri : String} {state : DocumentState} :
    (uri, state) ∈ docs.visited ↔ docs.lookup uri = some state := by
  simp only [visited, openUris, List.mem_filterMap, List.mem_insertionSort, Option.map_eq_some_iff,
    Prod.mk.injEq]
  constructor
  · rintro ⟨other, _, found, here, rfl, rfl⟩
    exact here
  · intro found
    have key : uri ∈ docs.keys := AList.mem_keys.mp (AList.lookup_isSome.mp (by rw [found]; rfl))
    exact ⟨uri, key, state, found, rfl, rfl⟩

theorem visited_uris : docs.visited.map (·.1) = docs.openUris := by
  have present : ∀ uri ∈ docs.openUris, ∃ state, docs.lookup uri = some state := by
    intro uri mem
    have key : uri ∈ docs := AList.mem_keys.mpr ((List.mem_insertionSort _).mp mem)
    exact Option.isSome_iff_exists.mp (AList.lookup_isSome.mpr key)
  rw [visited]
  generalize docs.openUris = uris at present
  induction uris with
  | nil => rfl
  | cons uri uris ih =>
    obtain ⟨state, found⟩ := present uri List.mem_cons_self
    rw [List.filterMap_cons, found]
    exact congrArg (uri :: ·) (ih fun other mem => present other (List.mem_cons_of_mem _ mem))

theorem visited_length : docs.visited.length = docs.keys.length := by
  rw [← List.length_map (·.1), visited_uris, openUris, List.length_insertionSort]

theorem contents_eq : docs.contents =
    docs.openUris.map fun uri => (uri, ((docs.lookup uri).map (·.text)).getD "") := by
  rw [contents, ← visited_uris, List.map_map]
  refine List.map_congr_left fun entry mem => ?_
  have found := mem_visited.mp mem
  simp [found]

theorem open_uris_congr (keys : ∀ uri, uri ∈ a.keys ↔ uri ∈ b.keys) : a.openUris = b.openUris := by
  have perm : a.keys.Perm b.keys :=
    (List.perm_ext_iff_of_nodup a.keys_nodup b.keys_nodup).mpr keys
  have sorted := fun docs : DocumentStore =>
    List.pairwise_insertionSort (fun x y : String => x ≤ y) docs.keys
  refine List.Perm.eq_of_pairwise' (sorted a) (sorted b) ?_
  exact ((List.perm_insertionSort _ _).trans perm).trans (List.perm_insertionSort _ _).symm

theorem mem_keys_iff {uri : String} : uri ∈ docs.keys ↔ (docs.lookup uri).isSome :=
  AList.lookup_isSome.symm

theorem same_keys {β : Type} {view : DocumentState → β}
    (same : ∀ uri, (a.lookup uri).map view = (b.lookup uri).map view) (uri : String) :
    uri ∈ a.keys ↔ uri ∈ b.keys := by
  rw [mem_keys_iff, mem_keys_iff, ← Option.isSome_map (f := view), same uri, Option.isSome_map]

theorem contents_congr (same : SameTexts a b) : a.contents = b.contents := by
  rw [contents_eq, contents_eq, open_uris_congr (same_keys same)]
  refine List.map_congr_left fun uri _ => ?_
  rw [same uri]

theorem alike_iff : a.Alike b ↔ b.keys.length = a.keys.length ∧
    ∀ uri state, a.lookup uri = some state →
      ∃ other, b.lookup uri = some other ∧ other.shape = state.shape := by
  constructor
  · intro alike
    have perm := (List.perm_ext_iff_of_nodup a.keys_nodup b.keys_nodup).mpr (same_keys alike)
    refine ⟨perm.length_eq.symm, fun uri state found => ?_⟩
    have here := alike uri
    rw [found] at here
    exact Option.map_eq_some_iff.mp here.symm
  · rintro ⟨count, remembered⟩ uri
    cases found : a.lookup uri with
    | some state =>
      obtain ⟨other, there, shape⟩ := remembered uri state found
      rw [there, Option.map_some, Option.map_some, shape]
    | none =>
      have within : a.keys ⊆ b.keys := by
        intro key mem
        obtain ⟨state, here⟩ := Option.isSome_iff_exists.mp (mem_keys_iff.mp mem)
        obtain ⟨other, there, _⟩ := remembered key state here
        exact mem_keys_iff.mpr (by rw [there]; rfl)
      -- as many keys, so none of them is new
      have perm := (List.subperm_of_subset a.keys_nodup within).perm_of_length_le count.le
      have absent : uri ∉ b.keys := by
        rw [← perm.mem_iff, mem_keys_iff, found]
        exact Bool.false_ne_true
      rw [mem_keys_iff, Option.not_isSome_iff_eq_none] at absent
      rw [absent]

end DocumentStore

/-! The cached value -/

section
variable {δ : Type} {digest : List (String × String) → δ} {docsAddr : Nat}

def cachedFrom (digest : List (String × String) → δ) (docsAddr : Nat) (docs : DocumentStore) :
    CachedDocstoreFingerprint δ :=
  let (fingerprint, entries) := computeDocstoreFingerprint digest docs
  { docsAddr, len := entries.length, entries, fingerprint }

theorem cached_from_len (docs : DocumentStore) :
    (cachedFrom digest docsAddr docs).len = docs.keys.length := by
  rw [← DocumentStore.visited_length]
  exact List.length_map _

theorem checked_iff (computed docs : DocumentStore) :
    ((cachedFrom digest docsAddr computed).entries.all fun entry =>
      ((docs.lookup entry.uri).map fun state =>
        decide (state.shape = (entry.version, entry.textLen))).getD false) = true ↔
    ∀ uri state, computed.lookup uri = some state →
      ∃ other, docs.lookup uri = some other ∧ other.shape = state.shape := by
  rw [List.all_eq_true]
  constructor
  · intro checked uri state found
    have here := checked ⟨uri, state.version, state.text.utf8ByteSize⟩
      (List.mem_map.mpr ⟨(uri, state), DocumentStore.mem_visited.mpr found, rfl⟩)
    simp only at here
    cases there : docs.lookup uri with
    | none =>
      rw [there] at here
      cases here
    | some other =>
      rw [there] at here
      exact ⟨other, rfl, of_decide_eq_true here⟩
  · intro remembered entry mem
    obtain ⟨⟨uri, state⟩, visited, rfl⟩ := List.mem_map.mp mem
    obtain ⟨other, there, shape⟩ := remembered uri state (DocumentStore.mem_visited.mp visited)
    simp only [there, Option.map_some, Option.getD_some]
    exact decide_eq_true shape

/-- A value is given again where the documents it was computed from are still open, alike. -/
theorem cached_alike {computed docs : DocumentStore} (alike : computed.Alike docs) :
    cachedDocstoreFingerprint docsAddr docs (some (cachedFrom digest docsAddr computed)) =
      some (digest computed.contents) := by
  obtain ⟨count, remembered⟩ := DocumentStore.alike_iff.mp alike
  have same_count : (cachedFrom digest docsAddr computed).len = docs.keys.length :=
    (cached_from_len computed).trans count.symm
  have same_store : ¬ ((cachedFrom digest docsAddr computed).docsAddr ≠ docsAddr ∨
      (cachedFrom digest docsAddr computed).len ≠ docs.keys.length) :=
    not_or.mpr ⟨not_not.mpr rfl, not_not.mpr same_count⟩
  rw [cachedDocstoreFingerprint, Option.bind_some, if_neg same_store,
    if_pos ((checked_iff computed docs).mpr remembered)]
  rfl

theorem cached_other {computed docs : DocumentStore} (other : ¬ computed.Alike docs) :
    cachedDocstoreFingerprint docsAddr docs (some (cachedFrom digest docsAddr computed)) =
      none := by
  rw [cachedDocstoreFingerprint, Option.bind_some]
  split
  · rfl
  · rename_i same_store
    rw [not_or, not_not, not_not, cached_from_len] at same_store
    split
    · rename_i checked
      have alike := DocumentStore.alike_iff.mpr
        ⟨same_store.2.symm, (checked_iff computed docs).mp checked⟩
      exact absurd alike other
    · rfl

/-- The cache is what was computed from the documents of the last computation. -/
def Session.Remembers (digest : List (String × String) → δ) (docsAddr : Nat) (s : Session δ) :
    Prop :=
  s.cache = s.computedFrom.map (cachedFrom digest docsAddr)

theorem answer_remembered {s : Session δ} (remembers : s.Remembers digest docsAddr)
    {computed : DocumentStore} (from_these : s.computedFrom = some computed)
    (alike : computed.Alike s.docs) : s.answer digest docsAddr = digest computed.contents := by
  rw [Session.answer, docstoreFingerprint, remembers, from_these, Option.map_some,
    cached_alike alike]

theorem answer_fresh {s : Session δ} (remembers : s.Remembers digest docsAddr)
    (other : ∀ computed, s.computedFrom = some computed → ¬ computed.Alike s.docs) :
    s.answer digest docsAddr = digest s.docs.contents := by
  have missed : cachedDocstoreFingerprint docsAddr s.docs s.cache = none := by
    rw [remembers]
    cases from_these : s.computedFrom with
    | none => rfl
    | some computed => exact cached_other (other computed from_these)
  rw [Session.answer, docstoreFingerprint, missed]
  rfl

theorem step_remembers {s : Session δ} (remembers : s.Remembers digest docsAddr)
    (call : StoreCall) : (s.step digest docsAddr call).Remembers digest docsAddr := by
  cases call with
  | opened _ _ _ => exact remembers
  | updated _ _ _ => exact remembers
  | closed _ => exact remembers
  | fingerprint =>
    simp only [Session.Remembers, Session.step, docstoreFingerprint]
    cases cachedDocstoreFingerprint docsAddr s.docs s.cache with
    | some fingerprint => exact remembers
    | none => rfl

theorem run_remembers (calls : List StoreCall) :
    (Session.run digest docsAddr calls).Remembers digest docsAddr := by
  rw [Session.run]
  generalize start : (⟨∅, none, none⟩ : Session δ) = s
  have remembers : s.Remembers digest docsAddr := by rw [← start]; rfl
  clear start
  induction calls generalizing s with
  | nil => exact remembers
  | cons call calls ih => exact ih _ (step_remembers remembers call)

/-- Wherever a call comes upon documents alike to those of the last computation, their
    texts are the same. -/
def TextsKept (digest : List (String × String) → δ) (docsAddr : Nat) (calls : List StoreCall) :
    Prop :=
  ∀ before after, calls = before ++ .fingerprint :: after → ∀ computed,
    (Session.run digest docsAddr before).computedFrom = some computed →
    computed.Alike (Session.run digest docsAddr before).docs →
      computed.SameTexts (Session.run digest docsAddr before).docs

/-- In every run in which no document comes back with another text under the version and
    length it had at the last computation, all answers are fresh; and where they are, such
    documents are told apart by no digest. -/
theorem fingerprints_fresh (digest : List (String × String) → δ) (docsAddr : Nat)
    (calls : List StoreCall) :
    (TextsKept digest docsAddr calls → AllFresh digest docsAddr calls) ∧
    (AllFresh digest docsAddr calls → ∀ before after, calls = before ++ .fingerprint :: after →
      ∀ computed, (Session.run digest docsAddr before).computedFrom = some computed →
        computed.Alike (Session.run digest docsAddr before).docs →
          digest computed.contents =
            digest (Session.run digest docsAddr before).docs.contents) := by
  constructor
  · intro kept before after split
    have remembers : (Session.run digest docsAddr before).Remembers digest docsAddr :=
      run_remembers before
    by_cases alike : ∃ computed, (Session.run digest docsAddr before).computedFrom =
        some computed ∧ computed.Alike (Session.run digest docsAddr before).docs
    · obtain ⟨computed, from_these, same⟩ := alike
      rw [answer_remembered remembers from_these same,
        DocumentStore.contents_congr (kept before after split computed from_these same)]
      rfl
    · exact answer_fresh remembers fun computed from_these same =>
        alike ⟨computed, from_these, same⟩
  · intro fresh before after split computed from_these same
    have remembers : (Session.run digest docsAddr before).Remembers digest docsAddr :=
      run_remembers before
    exact (answer_remembered remembers from_these same).symm.trans (fresh before after split)

/-- A document is closed and opened again with another text under version 1. -/
def reopened : List StoreCall :=
  [.opened "m.json" 1 "ab", .fingerprint, .closed "m.json", .opened "m.json" 1 "cd", .fingerprint]

/-- Whatever the digest, unless it takes the two texts for one. -/
theorem reopened_stale : ¬ ∃ digest : List (String × String) → UInt64,
    digest [("m.json", "ab")] ≠ digest [("m.json", "cd")] ∧ AllFresh digest 0 reopened := by
  rintro ⟨digest, apart, fresh⟩
  have answered := fresh (reopened.take 4) [] rfl
  exact apart answered

end

end Vespertide
