import Mathlib.Data.List.Dedup
import Mathlib.Data.List.Sort

/-!
A list read as an ordered map: inserting its elements one after the other under
their keys leaves the last element of each key, and iteration follows the key
order. Nothing here depends on what the elements are.
-/
namespace KeyedView
variable {α κ : Type} [LinearOrder κ]

def keys (key : α → κ) (xs : List α) : List κ := ((xs.map key).dedup).insertionSort (· ≤ ·)

def get (key : α → κ) (xs : List α) (k : κ) : Option α := xs.reverse.find? (key · = k)

def entries (key : α → κ) (xs : List α) : List α := (keys key xs).filterMap (get key xs)

@[simp] theorem mem_keys {key : α → κ} {xs : List α} {k : κ} :
    k ∈ keys key xs ↔ ∃ x ∈ xs, key x = k := by
  simp [keys]

theorem keys_nodup (key : α → κ) (xs : List α) : (keys key xs).Nodup :=
  (List.perm_insertionSort _ _).nodup_iff.mpr (List.nodup_dedup _)

theorem keys_sorted (key : α → κ) (xs : List α) : (keys key xs).Pairwise (· < ·) := by
  have sorted := List.pairwise_insertionSort (· ≤ ·) ((xs.map key).dedup)
  refine (sorted.and (keys_nodup key xs)).imp ?_
  rintro a b ⟨le, ne⟩
  exact lt_of_le_of_ne le ne

theorem get_some {key : α → κ} {xs : List α} {k : κ} {x : α} (h : get key xs k = some x) :
    x ∈ xs ∧ key x = k := by
  have found := List.find?_some h
  have mem := List.mem_of_find?_eq_some h
  exact ⟨List.mem_reverse.mp mem, by simpa using found⟩

theorem get_isSome_iff {key : α → κ} {xs : List α} {k : κ} :
    (get key xs k).isSome ↔ ∃ x ∈ xs, key x = k := by
  simp [get, List.find?_isSome]

theorem get_eq_none_iff {key : α → κ} {xs : List α} {k : κ} :
    get key xs k = none ↔ ∀ x ∈ xs, key x ≠ k := by
  simp [get, List.find?_eq_none]

theorem get_eq_some_iff {key : α → κ} {xs : List α} {k : κ} {x : α} :
    get key xs k = some x ↔
      key x = k ∧ ∃ before after, xs = before ++ x :: after ∧ ∀ y ∈ after, key y ≠ k := by
  simp only [get, List.find?_eq_some_iff_append, decide_eq_true_eq]
  refine and_congr_right fun _ => ?_
  constructor
  · rintro ⟨after, before, split, others⟩
    refine ⟨before.reverse, after.reverse, ?_, ?_⟩
    · rw [← List.reverse_reverse xs, split, List.reverse_append, List.reverse_cons,
        List.append_assoc, List.singleton_append]
    · intro y mem
      simpa using others y (List.mem_reverse.mp mem)
  · rintro ⟨before, after, rfl, others⟩
    refine ⟨after.reverse, before.reverse, ?_, ?_⟩
    · rw [List.reverse_append, List.reverse_cons, List.append_assoc, List.singleton_append]
    · intro y mem
      simpa using others y (List.mem_reverse.mp mem)

theorem get_of_nodup {key : α → κ} {xs : List α} (unique : (xs.map key).Nodup) {x : α}
    (mem : x ∈ xs) : get key xs (key x) = some x := by
  obtain ⟨y, hy⟩ := Option.isSome_iff_exists.mp
    (get_isSome_iff.mpr ⟨x, mem, rfl⟩ : (get key xs (key x)).isSome)
  have found := get_some hy
  have same : y = x := List.inj_on_of_nodup_map unique found.1 mem found.2
  rw [hy, same]

theorem mem_entries {key : α → κ} {xs : List α} {x : α} :
    x ∈ entries key xs ↔ get key xs (key x) = some x := by
  simp only [entries, List.mem_filterMap, mem_keys]
  constructor
  · rintro ⟨k, _, hk⟩
    have found := get_some hk
    rw [found.2]
    exact hk
  · intro h
    exact ⟨key x, ⟨x, (get_some h).1, rfl⟩, h⟩

theorem map_key_entries (key : α → κ) (xs : List α) :
    (entries key xs).map key = keys key xs := by
  have total : ∀ k ∈ keys key xs, ∃ x, get key xs k = some x ∧ key x = k := by
    intro k hk
    obtain ⟨x, hx⟩ := Option.isSome_iff_exists.mp (get_isSome_iff.mpr (mem_keys.mp hk))
    exact ⟨x, hx, (get_some hx).2⟩
  unfold entries
  generalize keys key xs = ks at total
  induction ks with
  | nil => rfl
  | cons k ks ih =>
    obtain ⟨x, hx, same⟩ := total k List.mem_cons_self
    rw [List.filterMap_cons_some hx, List.map_cons, same,
      ih (fun k' hk' => total k' (List.mem_cons_of_mem k hk'))]

theorem entries_key_nodup (key : α → κ) (xs : List α) : ((entries key xs).map key).Nodup := by
  rw [map_key_entries]
  exact keys_nodup key xs

theorem entries_eq_nil_iff {key : α → κ} {xs : List α} : entries key xs = [] ↔ xs = [] := by
  constructor
  · intro empty
    rw [List.eq_nil_iff_forall_not_mem]
    intro x mem
    have here : key x ∈ keys key xs := mem_keys.mpr ⟨x, mem, rfl⟩
    rw [← map_key_entries, empty] at here
    exact List.not_mem_nil here
  · rintro rfl
    rfl

theorem get_map {key : α → κ} {f : α → α} (keeps : ∀ x, key (f x) = key x) (xs : List α) (k : κ) :
    get key (xs.map f) k = (get key xs k).map f := by
  simp only [get, ← List.map_reverse, List.find?_map]
  congr 2
  funext x
  simp [keeps]

theorem entries_map {key : α → κ} {f : α → α} (keeps : ∀ x, key (f x) = key x) (xs : List α) :
    entries key (xs.map f) = (entries key xs).map f := by
  have same : (xs.map f).map key = xs.map key := by simp [keeps]
  simp only [entries, keys, same, List.map_filterMap]
  exact List.filterMap_congr fun k _ => get_map keeps xs k

theorem lookup_of_nodup {β : Type} {pairs : List (κ × β)} (unique : (pairs.map Prod.fst).Nodup)
    {k : κ} {b : β} (mem : (k, b) ∈ pairs) : pairs.lookup k = some b := by
  induction pairs with
  | nil => simp at mem
  | cons head pairs ih =>
    obtain ⟨k', b'⟩ := head
    obtain ⟨fresh, rest⟩ := List.nodup_cons.mp unique
    rcases List.mem_cons.mp mem with here | later
    · obtain ⟨rfl, rfl⟩ := Prod.mk.inj here
      simp
    · have other : k ≠ k' := by
        rintro rfl
        exact fresh (List.mem_map.mpr ⟨(k, b), later, rfl⟩)
      simpa [List.lookup_cons, beq_false_of_ne other] using ih rest later

/-- Collecting pairs into a map: the last pair of a key wins. -/
theorem lookup_entries {β : Type} (pairs : List (κ × β)) (k : κ) :
    (entries Prod.fst pairs).lookup k = (get Prod.fst pairs k).map Prod.snd := by
  cases found : get Prod.fst pairs k with
  | none =>
    rw [List.lookup_eq_none_iff.mpr, Option.map_none]
    intro p mem
    have other := get_eq_none_iff.mp found p (get_some (mem_entries.mp mem)).1
    simpa using Ne.symm other
  | some p =>
    obtain ⟨k', b⟩ := p
    obtain rfl := (get_some found).2
    exact lookup_of_nodup (entries_key_nodup _ _) (mem_entries.mpr found)

/-! The order of the list does not matter where every key has one element -/

theorem keys_perm {key : α → κ} {xs ys : List α} (perm : xs.Perm ys) :
    keys key xs = keys key ys := by
  have members : ∀ k, k ∈ keys key xs ↔ k ∈ keys key ys := by
    intro k
    simp only [mem_keys, perm.mem_iff]
  have same := (List.perm_ext_iff_of_nodup (keys_nodup key xs) (keys_nodup key ys)).mpr members
  exact same.eq_of_pairwise' ((keys_sorted key xs).imp le_of_lt) ((keys_sorted key ys).imp le_of_lt)

theorem get_perm {key : α → κ} {xs ys : List α} (unique : (xs.map key).Nodup)
    (perm : xs.Perm ys) : get key xs = get key ys := by
  funext k
  cases found : get key ys k with
  | none =>
    rw [get_eq_none_iff] at found ⊢
    intro x mem
    exact found x (perm.mem_iff.mp mem)
  | some x =>
    obtain ⟨mem, rfl⟩ := get_some found
    exact get_of_nodup unique (perm.mem_iff.mpr mem)

end KeyedView
