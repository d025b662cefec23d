import Mathlib.Data.Option.Basic
import Mathlib.Logic.Function.Basic

/-!
Names and the owners that hold one each. A name is created while it is free, and
dropped while it is taken and nobody holds it. A store is balanced when the
names taken are the names held.
-/
namespace Holdings

structure Store (κ α : Type) where
  names : List α
  held : List (κ × α)
  deriving DecidableEq, Repr

variable {κ α : Type}

section Names
variable [DecidableEq α]

def Store.create (s : Store κ α) (a : α) : Option (Store κ α) :=
  if a ∈ s.names then none else some { s with names := s.names ++ [a] }

def Store.drop (s : Store κ α) (a : α) : Option (Store κ α) :=
  if a ∈ s.names ∧ ∀ h ∈ s.held, h.2 ≠ a then some { s with names := s.names.filter (· ≠ a) }
  else none

/-- The owners of a name hold it under its new one. -/
def Store.rename (s : Store κ α) (old new : α) : Option (Store κ α) :=
  if old ∈ s.names ∧ new ∉ s.names then
    some { names := s.names.map fun a => if a = old then new else a
           held := s.held.map fun h => (h.1, if h.2 = old then new else h.2) }
  else none

end Names

/-- The owners of a kind let go of what they hold. -/
def Store.release (s : Store κ α) (leaves : κ → Bool) : Store κ α :=
  { s with held := s.held.filter fun h => !leaves h.1 }

def Store.hold (s : Store κ α) (gained : List (κ × α)) : Store κ α :=
  { s with held := s.held ++ gained }

/-- An owner holds a name in place of the one it held, or none. -/
def Store.retype [DecidableEq κ] (s : Store κ α) (k : κ) (own : Option α) : Store κ α :=
  (s.release (· = k)).hold (own.toList.map fun a => (k, a))

/-- The owners take other keys. -/
def Store.move (s : Store κ α) (f : κ → κ) : Store κ α :=
  { s with held := s.held.map fun h => (f h.1, h.2) }

/-- The owners hold what `holds` says, and the names taken are the ones held. -/
structure Store.Balanced (s : Store κ α) (holds : κ → Option α) : Prop where
  held : ∀ k a, (k, a) ∈ s.held ↔ holds k = some a
  names : ∀ a, a ∈ s.names ↔ ∃ k, holds k = some a

def Free (holds : κ → Option α) (a : α) : Prop := ∀ k, holds k ≠ some a

def Sole (holds : κ → Option α) (k : κ) (a : α) : Prop := ∀ k', holds k' = some a → k' = k

variable {s : Store κ α} {holds : κ → Option α} {k : κ} {a b : α}

theorem Store.Balanced.free (balanced : s.Balanced holds) : a ∉ s.names ↔ Free holds a := by
  rw [balanced.names, not_exists]
  rfl

theorem Store.Balanced.unique {other : κ → Option α} (first : s.Balanced holds)
    (second : s.Balanced other) : holds = other := by
  funext k
  apply Option.ext
  intro a
  exact (first.held k a).symm.trans (second.held k a)

/-! One owner -/

section Owner
variable [DecidableEq κ]

theorem mem_retype {own : Option α} {k' : κ} : (k', a) ∈ (s.retype k own).held ↔
    ((k', a) ∈ s.held ∧ k' ≠ k) ∨ (k' = k ∧ own = some a) := by
  simp only [Store.retype, Store.release, Store.hold, List.mem_append, List.mem_filter,
    Bool.not_eq_true', decide_eq_false_iff_not, List.mem_map, Option.mem_toList, Prod.mk.injEq]
  constructor
  · rintro (kept | ⟨a', own, rfl, rfl⟩)
    · exact .inl kept
    · exact .inr ⟨rfl, own⟩
  · rintro (kept | ⟨rfl, own⟩)
    · exact .inl kept
    · exact .inr ⟨a, own, rfl, rfl⟩

theorem update_held {own : Option α} : (∃ k', Function.update holds k own k' = some a) ↔
    own = some a ∨ ∃ k' ≠ k, holds k' = some a := by
  constructor
  · rintro ⟨k', held⟩
    by_cases same : k' = k
    · subst same
      exact .inl (by rwa [Function.update_self] at held)
    · exact .inr ⟨k', same, by rwa [Function.update_of_ne same] at held⟩
  · rintro (own | ⟨k', other, held⟩)
    · exact ⟨k, by rwa [Function.update_self]⟩
    · exact ⟨k', by rwa [Function.update_of_ne other]⟩

theorem retyped_balanced_iff (held : ∀ k a, (k, a) ∈ s.held ↔ holds k = some a)
    (own : Option α) : (s.retype k own).Balanced (Function.update holds k own) ↔
      ∀ a, a ∈ s.names ↔ own = some a ∨ ∃ k' ≠ k, holds k' = some a := by
  constructor
  · intro left a
    rw [← update_held]
    exact left.names a
  · intro names
    constructor
    · intro k' a
      rw [mem_retype, held]
      by_cases same : k' = k
      · simp [same]
      · simp [same]
    · intro a
      rw [update_held]
      exact names a

theorem retype_same {own : Option α} (balanced : s.Balanced holds) (same : holds k = own) :
    (s.retype k own).Balanced (Function.update holds k own) := by
  refine (retyped_balanced_iff balanced.held own).mpr fun a => ?_
  rw [balanced.names]
  constructor
  · rintro ⟨k', held⟩
    by_cases here : k' = k
    · subst here
      exact .inl (same.symm.trans held)
    · exact .inr ⟨k', here, held⟩
  · rintro (own | ⟨k', _, held⟩)
    · exact ⟨k, same.trans own⟩
    · exact ⟨k', held⟩

theorem retype_twice {own : Option α} {other : κ → Option α} :
    ((s.retype k own).retype k own).Balanced other ↔ (s.retype k own).Balanced other := by
  have same : ∀ k' a, (k', a) ∈ ((s.retype k own).retype k own).held ↔
      (k', a) ∈ (s.retype k own).held := by
    intro k' a
    rw [mem_retype, mem_retype]
    by_cases here : k' = k <;> simp [here]
  constructor
  · intro balanced
    exact ⟨fun k' a => (same k' a).symm.trans (balanced.held k' a), balanced.names⟩
  · intro balanced
    exact ⟨fun k' a => (same k' a).trans (balanced.held k' a), balanced.names⟩

end Owner

/-! Names -/

section Created
variable [DecidableEq α]

theorem create_free (balanced : s.Balanced holds) (free : Free holds a) :
    s.create a = some { s with names := s.names ++ [a] } := if_neg (balanced.free.mpr free)

theorem create_taken (balanced : s.Balanced holds) (taken : ¬ Free holds a) :
    s.create a = none := if_pos (by rwa [← balanced.free, not_not] at taken)

theorem drop_held (there : (k, a) ∈ s.held) : s.drop a = none := by
  refine if_neg ?_
  rintro ⟨_, unheld⟩
  exact unheld _ there rfl

theorem rename_balanced (balanced : s.Balanced holds) (held : holds k = some b)
    (free : Free holds a) :
    ∃ s', s.rename b a = some s' ∧
      s'.Balanced fun k => (holds k).map fun c => if c = b then a else c := by
  refine ⟨_, if_pos ⟨(balanced.names b).mpr ⟨k, held⟩, balanced.free.mpr free⟩, ?_, ?_⟩
  · intro k' c
    simp only [List.mem_map, Prod.mk.injEq, Option.map_eq_some_iff]
    constructor
    · rintro ⟨⟨k'', c'⟩, there, rfl, rfl⟩
      exact ⟨c', (balanced.held k'' c').mp there, rfl⟩
    · rintro ⟨c', there, rfl⟩
      exact ⟨(k', c'), (balanced.held k' c').mpr there, rfl, rfl⟩
  · intro c
    simp only [List.mem_map, Option.map_eq_some_iff, balanced.names]
    constructor
    · rintro ⟨c', ⟨k', there⟩, rfl⟩
      exact ⟨k', c', there, rfl⟩
    · rintro ⟨k', c', there, rfl⟩
      exact ⟨c', ⟨k', there⟩, rfl⟩

end Created

/-! Gaining and losing a name -/

section Change
variable [DecidableEq κ] [DecidableEq α]

theorem gain_balanced_iff (balanced : s.Balanced holds) (nothing : holds k = none) :
    (∃ s', ((s.create b).map fun s => s.retype k (some b)) = some s' ∧
      s'.Balanced (Function.update holds k (some b))) ↔ Free holds b := by
  constructor
  · rintro ⟨s', ran, _⟩
    by_contra taken
    rw [create_taken balanced taken] at ran
    cases ran
  · intro free
    rw [create_free balanced free, Option.map_some]
    refine ⟨_, rfl, (retyped_balanced_iff (s := { s with names := s.names ++ [b] })
      balanced.held _).mpr fun a => ?_⟩
    have elsewhere : (∃ k', holds k' = some a) ↔ ∃ k' ≠ k, holds k' = some a := by
      constructor
      · rintro ⟨k', held⟩
        refine ⟨k', ?_, held⟩
        rintro rfl
        rw [nothing] at held
        cases held
      · rintro ⟨k', _, held⟩
        exact ⟨k', held⟩
    rw [List.mem_append, List.mem_singleton, balanced.names, elsewhere, or_comm, Option.some.injEq,
      eq_comm]

theorem lose_balanced_iff (balanced : s.Balanced holds) (own : holds k = some a) :
    (∃ s', (s.retype k none).drop a = some s' ∧ s'.Balanced (Function.update holds k none)) ↔
      Sole holds k a := by
  constructor
  · rintro ⟨s', ran, _⟩ k' held
    by_contra other
    rw [drop_held (mem_retype.mpr (.inl ⟨(balanced.held k' a).mpr held, other⟩))] at ran
    cases ran
  · intro sole
    have taken : a ∈ s.names := (balanced.names a).mpr ⟨k, own⟩
    have unheld : ∀ h ∈ (s.retype k none).held, h.2 ≠ a := by
      rintro ⟨k', a'⟩ mem rfl
      rcases mem_retype.mp mem with ⟨held, other⟩ | ⟨_, gained⟩
      · exact other (sole k' ((balanced.held k' a').mp held))
      · cases gained
    refine ⟨_, if_pos ⟨taken, unheld⟩, ?_⟩
    refine (retyped_balanced_iff (s := { s with names := s.names.filter (· ≠ a) })
      balanced.held none).mpr fun c => ?_
    rw [List.mem_filter, balanced.names]
    simp only [ne_eq, decide_not, Bool.not_eq_true', decide_eq_false_iff_not, reduceCtorEq,
      false_or]
    constructor
    · rintro ⟨⟨k', held⟩, apart⟩
      refine ⟨k', ?_, held⟩
      rintro rfl
      exact apart (Option.some.inj (held.symm.trans own))
    · rintro ⟨k', other, held⟩
      refine ⟨⟨k', held⟩, ?_⟩
      rintro rfl
      exact other (sole k' held)

theorem drop_missing {own : Option α} (missing : a ∉ s.names) :
    (s.retype k own).drop a = none := if_neg fun dropped => missing dropped.1

theorem drop_elsewhere {own : Option α} {k' : κ} (there : (k', a) ∈ s.held) (other : k' ≠ k) :
    (s.retype k own).drop a = none := drop_held (mem_retype.mpr (.inl ⟨there, other⟩))

/-- A name that its dropper does not hold is free, or held by another. -/
theorem drop_unowned (balanced : s.Balanced holds) (nothing : holds k = none) (own : Option α) :
    (s.retype k own).drop a = none := by
  by_cases taken : a ∈ s.names
  · obtain ⟨k', held⟩ := (balanced.names a).mp taken
    refine drop_elsewhere ((balanced.held k' a).mpr held) ?_
    rintro rfl
    rw [nothing] at held
    cases held
  · exact drop_missing taken

def Store.exchange (s : Store κ α) (k : κ) (a b : α) : Option (Store κ α) :=
  (s.create b).bind fun s => (s.retype k (some b)).drop a

/-- An owner takes a name that is created for it, and the one it held is dropped. -/
theorem exchange_balanced (balanced : s.Balanced holds) (apart : a ≠ b) (own : holds k = some a)
    (sole : Sole holds k a) (free : Free holds b) :
    ∃ s', s.exchange k a b = some s' ∧ s'.Balanced (Function.update holds k (some b)) := by
  have taken : a ∈ s.names ++ [b] :=
    List.mem_append_left _ ((balanced.names a).mpr ⟨k, own⟩)
  have unheld : ∀ h ∈ (Store.retype { s with names := s.names ++ [b] } k (some b)).held,
      h.2 ≠ a := by
    rintro ⟨k', a'⟩ mem rfl
    rcases mem_retype.mp mem with ⟨held, other⟩ | ⟨_, gained⟩
    · exact other (sole k' ((balanced.held k' a').mp held))
    · exact apart (Option.some.inj gained).symm
  rw [Store.exchange, create_free balanced free, Option.bind_some]
  refine ⟨_, if_pos ⟨taken, unheld⟩, ?_⟩
  refine (retyped_balanced_iff (s := { s with names := (s.names ++ [b]).filter (· ≠ a) })
    balanced.held (some b)).mpr fun c => ?_
  rw [List.mem_filter, List.mem_append, List.mem_singleton, balanced.names, decide_eq_true_eq,
    Option.some.injEq]
  constructor
  · rintro ⟨⟨k', held⟩ | rfl, other⟩
    · refine .inr ⟨k', ?_, held⟩
      rintro rfl
      exact other (Option.some.inj (held.symm.trans own))
    · exact .inl rfl
  · rintro (rfl | ⟨k', other, held⟩)
    · exact ⟨.inr rfl, apart.symm⟩
    · refine ⟨.inl ⟨k', held⟩, ?_⟩
      rintro rfl
      exact other (sole k' held)

theorem exchange_only (balanced : s.Balanced holds) (apart : a ≠ b)
    {s' : Store κ α} (ran : s.exchange k a b = some s') :
    holds k = some a ∧ Sole holds k a ∧ Free holds b := by
  obtain ⟨grown, created, dropped⟩ := Option.bind_eq_some_iff.mp ran
  have free : Free holds b := by
    by_contra taken
    rw [create_taken balanced taken] at created
    cases created
  rw [create_free balanced free, Option.some.injEq] at created
  subst created
  have here : a ∈ s.names := by
    by_contra missing
    rw [drop_missing (by simp [missing, apart])] at dropped
    cases dropped
  have sole : Sole holds k a := by
    intro k' held
    by_contra other
    rw [drop_elsewhere (s := { s with names := s.names ++ [b] })
      ((balanced.held k' a).mpr held) other] at dropped
    cases dropped
  obtain ⟨k', held⟩ := (balanced.names a).mp here
  exact ⟨sole k' held ▸ held, sole, free⟩

/-- A name is made anew by way of another one. -/
theorem remake_balanced (balanced : s.Balanced holds) (apart : a ≠ b) (own : holds k = some a)
    (sole : Sole holds k a) (free : Free holds b) :
    ∃ s', ((s.exchange k a b).bind fun s => s.rename b a) = some s' ∧ s'.Balanced holds := by
  obtain ⟨s', ran, left⟩ := exchange_balanced balanced apart own sole free
  have gone : Free (Function.update holds k (some b)) a := by
    intro k' held
    by_cases same : k' = k
    · subst same
      rw [Function.update_self] at held
      exact apart (Option.some.inj held).symm
    · rw [Function.update_of_ne same] at held
      exact same (sole k' held)
  obtain ⟨last, renamed, done⟩ := rename_balanced left (Function.update_self ..) gone
  refine ⟨last, by rw [ran, Option.bind_some, renamed], ?_⟩
  have same : (fun k' => (Function.update holds k (some b) k').map fun c =>
      if c = b then a else c) = holds := by
    funext k'
    by_cases here : k' = k
    · subst here
      simp [own]
    · rw [Function.update_of_ne here]
      cases held : holds k' with
      | none => rfl
      | some c =>
        have other : c ≠ b := by
          rintro rfl
          exact free k' held
        simp [other]
  rwa [same] at done

end Change

/-! Several owners at once -/

section Several

theorem released_balanced_iff (balanced : s.Balanced holds) (leaves : κ → Bool) :
    (s.release leaves).Balanced (fun k => if leaves k then none else holds k) ↔
      ∀ k a, leaves k → holds k = some a → ∃ k', leaves k' = false ∧ holds k' = some a := by
  have staying : ∀ a, (∃ k, (if leaves k then none else holds k) = some a) ↔
      ∃ k, leaves k = false ∧ holds k = some a := by
    intro a
    simp
  constructor
  · intro left k a _ held
    exact (staying a).mp ((left.names a).mp ((balanced.names a).mpr ⟨k, held⟩))
  · intro kept
    constructor
    · intro k a
      simp only [Store.release, List.mem_filter, balanced.held]
      cases leaves k <;> simp
    · intro a
      rw [staying]
      refine (balanced.names a).trans ⟨?_, fun ⟨k, _, held⟩ => ⟨k, held⟩⟩
      rintro ⟨k, held⟩
      by_cases leaving : leaves k
      · exact kept k a leaving held
      · exact ⟨k, by simpa using leaving, held⟩

def Store.createAll [DecidableEq α] (s : Store κ α) : List α → Option (Store κ α)
  | [] => some s
  | a :: rest => (s.create a).bind fun s => s.createAll rest

theorem create_all [DecidableEq α] {created : List α} (nodup : created.Nodup) :
    s.createAll created = if ∀ a ∈ created, a ∉ s.names then
      some { s with names := s.names ++ created } else none := by
  induction created generalizing s with
  | nil => simp [Store.createAll]
  | cons a rest ih =>
    obtain ⟨fresh, rest_nodup⟩ := List.nodup_cons.mp nodup
    by_cases taken : a ∈ s.names
    · simp [Store.createAll, Store.create, taken]
    · rw [Store.createAll, Store.create, if_neg taken, Option.bind_some, ih rest_nodup]
      have later : (∀ c ∈ rest, c ∉ s.names ++ [a]) ↔ ∀ c ∈ rest, c ∉ s.names := by
        constructor
        · intro all c mem here
          exact all c mem (List.mem_append_left _ here)
        · intro all c mem here
          rcases List.mem_append.mp here with old | new
          · exact all c mem old
          · exact fresh (List.mem_singleton.mp new ▸ mem)
      by_cases free : ∀ c ∈ rest, c ∉ s.names
      · rw [if_pos (later.mpr free), if_pos]
        · simp
        · exact List.forall_mem_cons.mpr ⟨taken, free⟩
      · rw [if_neg (mt later.mp free), if_neg]
        intro all
        exact free (List.forall_mem_cons.mp all).2

theorem grown_balanced_iff {gained : List (κ × α)} {grown : κ → Option α} {created : List α}
    (balanced : s.Balanced holds)
    (reads : ∀ k a, grown k = some a ↔ holds k = some a ∨ (k, a) ∈ gained)
    (needed : ∀ a ∈ created, ∃ k, (k, a) ∈ gained) :
    (Store.hold { s with names := s.names ++ created } gained).Balanced grown ↔
      ∀ k a, (k, a) ∈ gained → a ∈ created ∨ ∃ k', holds k' = some a := by
  constructor
  · intro left k a mem
    have taken : a ∈ s.names ++ created :=
      (left.names a).mpr ⟨k, (reads k a).mpr (.inr mem)⟩
    rcases List.mem_append.mp taken with old | new
    · exact .inr ((balanced.names a).mp old)
    · exact .inl new
  · intro covered
    constructor
    · intro k a
      rw [reads, ← balanced.held]
      exact List.mem_append
    · intro a
      simp only [Store.hold, List.mem_append, balanced.names, reads]
      constructor
      · rintro (⟨k, held⟩ | new)
        · exact ⟨k, .inl held⟩
        · obtain ⟨k, mem⟩ := needed a new
          exact ⟨k, .inr mem⟩
      · rintro ⟨k, held | mem⟩
        · exact .inl ⟨k, held⟩
        · rcases covered k a mem with new | old
          · exact .inr new
          · exact .inl old

end Several

end Holdings
