import Mathlib.Data.List.AList
import Mathlib.Data.List.Nodup
import Mathlib.Logic.Function.Basic
import Vespertide.Support.Registry

/-!
The cache that calls share. A call looks its key up under the lock, computes with the
lock released, and inserts under the lock unless another call came first; the oldest
entry makes room. Any number of calls interleave, step by step.
-/
namespace Vespertide
open Registry

section
variable {K V ι : Type} [DecidableEq K] [DecidableEq ι]

structure RingCacheInner (K V : Type) where
  entries : AList fun _ : K => V
  insertionOrder : List K

/-- The oldest entry is removed at capacity. -/
def RingCacheInner.makeRoom (capacity : Nat) (cache : RingCacheInner K V) : RingCacheInner K V :=
  if capacity ≤ cache.entries.keys.length then
    match cache.insertionOrder with
    | oldest :: rest => { entries := cache.entries.erase oldest, insertionOrder := rest }
    | [] => cache
  else cache

/-- The second locked step: the value another call has stored, or this one. -/
def RingCacheInner.insert (capacity : Nat) (cache : RingCacheInner K V) (key : K) (value : V) :
    V × RingCacheInner K V :=
  match cache.entries.lookup key with
  | some existing => (existing, cache)
  | none =>
      let room := cache.makeRoom capacity
      (value, { entries := room.entries.insert key value
                insertionOrder := room.insertionOrder ++ [key] })

inductive Phase (V : Type) where
  | called
  | missed
  | computed (value : V)
  | returned (value : V)
  deriving DecidableEq

/-- The calls and the cache they share; with the keys in the order in which they were
    inserted, which the code does not keep. -/
structure Calls (K V ι : Type) where
  cache : RingCacheInner K V
  phase : ι → Phase V
  inserted : List K

inductive CallStep (V ι : Type) where
  | lookup (call : ι)
  | compute (call : ι) (value : V)
  | insert (call : ι)

variable (capacity : Nat) (key : ι → K)

/-- `none` where the call is not at this step. -/
def Calls.step (s : Calls K V ι) : CallStep V ι → Option (Calls K V ι)
  | .lookup call => match s.phase call with
      | .called => match s.cache.entries.lookup (key call) with
          | some value => some { s with phase := Function.update s.phase call (.returned value) }
          | none => some { s with phase := Function.update s.phase call .missed }
      | _ => none
  | .compute call value => match s.phase call with
      | .missed => some { s with phase := Function.update s.phase call (.computed value) }
      | _ => none
  | .insert call => match s.phase call with
      | .computed value =>
          let (stored, cache) := s.cache.insert capacity (key call) value
          some {
            cache
            phase := Function.update s.phase call (.returned stored)
            inserted := if (s.cache.entries.lookup (key call)).isSome then s.inserted
              else s.inserted ++ [key call] }
      | _ => none

def Calls.start : Calls K V ι where
  cache := { entries := ∅, insertionOrder := [] }
  phase := fun _ => .called
  inserted := []

end

/-- The order lists the keys of the entries, each once, and is what is left of the
    insertions once the oldest are gone; the capacity is kept. -/
structure RingConsistent {K V : Type} (capacity : Nat) (cache : RingCacheInner K V)
    (inserted : List K) : Prop where
  listed : ∀ k, k ∈ cache.insertionOrder ↔ k ∈ cache.entries
  once : cache.insertionOrder.Nodup
  oldest_first : cache.insertionOrder <:+ inserted
  bounded : cache.entries.keys.length ≤ capacity

section Proofs
variable {K V ι : Type} [DecidableEq K] [DecidableEq ι] {capacity : Nat}
  {cache : RingCacheInner K V} {inserted : List K}

omit [DecidableEq K] in
theorem order_length (listed : ∀ k, k ∈ cache.insertionOrder ↔ k ∈ cache.entries)
    (once : cache.insertionOrder.Nodup) :
    cache.entries.keys.length = cache.insertionOrder.length := by
  refine List.Perm.length_eq ((List.perm_ext_iff_of_nodup cache.entries.keys_nodup once).mpr ?_)
  exact fun k => AList.mem_keys.symm.trans (listed k).symm

theorem make_room_consistent (positive : 1 ≤ capacity)
    (consistent : RingConsistent capacity cache inserted) :
    RingConsistent capacity (cache.makeRoom capacity) inserted ∧
      (cache.makeRoom capacity).insertionOrder.length + 1 ≤ capacity ∧
      ∀ k, k ∈ (cache.makeRoom capacity).entries → k ∈ cache.entries := by
  obtain ⟨listed, once, oldest_first, bounded⟩ := consistent
  have count := order_length listed once
  unfold RingCacheInner.makeRoom
  split
  · rename_i full
    split
    · rename_i oldest rest order
      rw [order] at listed once oldest_first count
      obtain ⟨gone, rest_once⟩ := List.nodup_cons.mp once
      have rest_listed : ∀ k, k ∈ rest ↔ k ∈ cache.entries.erase oldest := by
        intro k
        rw [AList.mem_erase, ← listed k, List.mem_cons]
        constructor
        · intro mem
          exact ⟨fun same => gone (same ▸ mem), .inr mem⟩
        · rintro ⟨other, same | mem⟩
          · exact absurd same other
          · exact mem
      have rest_count := @order_length _ _ ⟨cache.entries.erase oldest, rest⟩ rest_listed
        rest_once
      simp only [List.length_cons] at count
      refine ⟨⟨rest_listed, rest_once, (List.suffix_cons oldest rest).trans oldest_first, ?_⟩,
        ?_, fun k mem => (AList.mem_erase.mp mem).2⟩
      · simp only at rest_count ⊢
        omega
      · simp only
        omega
    · rename_i order
      rw [order, List.length_nil] at count
      omega
  · rename_i free
    exact ⟨⟨listed, once, oldest_first, bounded⟩, by omega, fun k mem => mem⟩

theorem insert_stored {key : K} {stored : V} (found : cache.entries.lookup key = some stored)
    (value : V) : cache.insert capacity key value = (stored, cache) := by
  rw [RingCacheInner.insert, found]

theorem insert_new {key : K} (absent : cache.entries.lookup key = none) (value : V) :
    cache.insert capacity key value =
      (value, { entries := (cache.makeRoom capacity).entries.insert key value
                insertionOrder := (cache.makeRoom capacity).insertionOrder ++ [key] }) := by
  rw [RingCacheInner.insert, absent]

theorem insert_consistent (positive : 1 ≤ capacity)
    (consistent : RingConsistent capacity cache inserted) {key : K}
    (absent : cache.entries.lookup key = none) (value : V) :
    RingConsistent capacity (cache.insert capacity key value).2 (inserted ++ [key]) := by
  obtain ⟨⟨listed, once, oldest_first, _⟩, place, within⟩ :=
    make_room_consistent positive consistent
  rw [insert_new absent]
  have fresh : key ∉ (cache.makeRoom capacity).insertionOrder := by
    rw [listed]
    exact fun mem => AList.lookup_eq_none.mp absent (within key mem)
  have now_listed : ∀ k, k ∈ (cache.makeRoom capacity).insertionOrder ++ [key] ↔
      k ∈ (cache.makeRoom capacity).entries.insert key value := by
    intro k
    rw [AList.mem_insert, List.mem_append, List.mem_singleton, listed k, or_comm]
  have now_once := List.nodup_append'.mpr ⟨once, List.nodup_singleton key,
    List.disjoint_singleton.mpr fresh⟩
  refine ⟨now_listed, now_once, ?_, ?_⟩
  · obtain ⟨front, rfl⟩ := oldest_first
    exact ⟨front, (List.append_assoc ..).symm⟩
  · have count := @order_length _ _ ⟨(cache.makeRoom capacity).entries.insert key value,
      (cache.makeRoom capacity).insertionOrder ++ [key]⟩ now_listed now_once
    rw [List.length_append] at count
    exact Nat.le_trans (Nat.le_of_eq count) place

variable {key : ι → K}

theorem step_cache {s s' : Calls K V ι} {step : CallStep V ι}
    (taken : s.step capacity key step = some s') :
    (s'.cache = s.cache ∧ s'.inserted = s.inserted) ∨
    ∃ call value, s.cache.entries.lookup (key call) = none ∧
      s'.cache = (s.cache.insert capacity (key call) value).2 ∧
      s'.inserted = s.inserted ++ [key call] := by
  cases step with
  | lookup call =>
    simp only [Calls.step] at taken
    split at taken
    · split at taken
      · exact .inl (Option.some.inj taken ▸ ⟨rfl, rfl⟩)
      · exact .inl (Option.some.inj taken ▸ ⟨rfl, rfl⟩)
    · cases taken
  | compute call value =>
    simp only [Calls.step] at taken
    split at taken
    · exact .inl (Option.some.inj taken ▸ ⟨rfl, rfl⟩)
    · cases taken
  | insert call =>
    simp only [Calls.step] at taken
    split at taken
    · rename_i value here
      obtain rfl := Option.some.inj taken
      cases found : s.cache.entries.lookup (key call) with
      | some stored => exact .inl ⟨by rw [insert_stored found], rfl⟩
      | none => exact .inr ⟨call, value, found, rfl, rfl⟩
    · cases taken

theorem step_consistent (positive : 1 ≤ capacity) {s s' : Calls K V ι} {step : CallStep V ι}
    (consistent : RingConsistent capacity s.cache s.inserted)
    (taken : s.step capacity key step = some s') :
    RingConsistent capacity s'.cache s'.inserted := by
  rcases step_cache taken with ⟨cache, inserted⟩ | ⟨call, value, absent, cache, inserted⟩
  · rwa [cache, inserted]
  · rw [cache, inserted]
    exact insert_consistent positive consistent absent value

theorem returned_stored {s s' : Calls K V ι} {step : CallStep V ι} {call : ι} {value : V}
    (locked : step = .lookup call ∨ step = .insert call)
    (taken : s.step capacity key step = some s') (returned : s'.phase call = .returned value) :
    (∀ stored, s.cache.entries.lookup (key call) = some stored → value = stored) ∧
      s'.cache.entries.lookup (key call) = some value := by
  rcases locked with rfl | rfl
  · simp only [Calls.step] at taken
    split at taken
    · split at taken
      · rename_i stored found
        obtain rfl := Option.some.inj taken
        simp only [Function.update_self, Phase.returned.injEq] at returned
        subst returned
        exact ⟨fun other again => Option.some.inj (found.symm.trans again), found⟩
      · obtain rfl := Option.some.inj taken
        simp only [Function.update_self, reduceCtorEq] at returned
    · cases taken
  · simp only [Calls.step] at taken
    split at taken
    · rename_i computed here
      obtain rfl := Option.some.inj taken
      simp only [Function.update_self, Phase.returned.injEq] at returned
      subst returned
      cases found : s.cache.entries.lookup (key call) with
      | some stored =>
        rw [insert_stored found]
        exact ⟨fun other again => Option.some.inj again, found⟩
      | none =>
        rw [insert_new found]
        refine ⟨fun other again => ?_, AList.lookup_insert _⟩
        cases again
    · cases taken

end Proofs

/-- After every step of any interleaving the order is that of the entries and the capacity
    is kept; and a call that returns gives the stored value of its key. -/
theorem ring_cache_consistent {K V ι : Type} [DecidableEq K] [DecidableEq ι] {capacity : Nat}
    (positive : 1 ≤ capacity) (key : ι → K) {steps : List (CallStep V ι)} {s : Calls K V ι}
    (ran : runSteps (Calls.step capacity key) Calls.start steps = some s) :
    RingConsistent capacity s.cache s.inserted ∧
    ∀ step s' call value, step = .lookup call ∨ step = .insert call →
      s.step capacity key step = some s' → s'.phase call = .returned value →
        (∀ stored, s.cache.entries.lookup (key call) = some stored → value = stored) ∧
          s'.cache.entries.lookup (key call) = some value := by
  refine ⟨?_, fun _ _ _ _ locked taken returned => returned_stored locked taken returned⟩
  refine run_steps_invariant (P := fun s => RingConsistent capacity s.cache s.inserted)
    (fun step _ s s' consistent taken => step_consistent positive consistent taken) ?_ ran
  have nothing : ∀ k : K, k ∈ ([] : List K) ↔ k ∈ (∅ : AList fun _ : K => V) := fun k =>
    iff_of_false List.not_mem_nil (AList.notMem_empty k)
  exact ⟨nothing, List.nodup_nil, List.nil_suffix, Nat.zero_le _⟩

/-- Two calls miss on one key and both compute; the second to insert gets the value of the
    first. A call on another key evicts it. -/
def racing : List (CallStep Nat (Fin 3)) :=
  [.lookup 0, .lookup 1, .compute 1 11, .compute 0 10, .insert 0, .insert 1, .lookup 2,
    .compute 2 22, .insert 2]

def racingKey (call : Fin 3) : Nat := if call = 2 then 6 else 5

theorem racing_consistent : ∃ s : Calls Nat Nat (Fin 3),
    s.phase 1 = .returned 10 ∧ s.cache.insertionOrder = [6] ∧
      RingConsistent 1 s.cache s.inserted := by
  refine ⟨_, ?_, ?_, (@ring_cache_consistent _ _ _ _ _ 1 (Nat.le_refl 1) racingKey racing _ rfl).1⟩
  · rfl
  · rfl

end Vespertide
