import Mathlib.Data.List.Induction
import Vespertide.Support.FreshName

/-!
Names claimed one after the other in a scope. A key is named when it is first claimed,
by its natural name or else by the first numbered one that is not taken; what was named
before stays as it is.
-/
namespace Claims

/-- The preferred name if it is free, otherwise with a number from 2 on; and what is
    taken afterwards. -/
def claimBinding (preferred : String) (taken : List String) : String × List String :=
  if preferred ∉ taken then (preferred, preferred :: taken)
  else
    let candidate := FreshName.first (fun n => preferred ++ toString n) taken 2
    (candidate, candidate :: taken)

structure Scope (κ : Type) where
  names : List (κ × String)
  taken : List String

section
variable {κ : Type} [DecidableEq κ]

def Scope.get (s : Scope κ) (key : κ) : Option String := s.names.lookup key

/-- The first claim for a key stands. -/
def Scope.claim (s : Scope κ) (key : κ) (natural : String) : Scope κ :=
  if (s.get key).isSome then s
  else
    let (name, taken) := claimBinding natural s.taken
    { names := (key, name) :: s.names, taken }

def claimAll (claims : List (κ × String)) : Scope κ :=
  claims.foldl (fun s claim => s.claim claim.1 claim.2) { names := [], taken := [] }

/-- Names tell keys apart, and all of them are taken. -/
structure Consistent (s : Scope κ) : Prop where
  apart : ∀ key other name, s.get key = some name → s.get other = some name → key = other
  recorded : ∀ key name, s.get key = some name → name ∈ s.taken

/-- What a scope promises after claims: the keys that were claimed have names, one each; a
    key has the name that its first claim found; and no name changes any more. -/
structure Settled (claims : List (κ × String)) (s : Scope κ) : Prop where
  apart : ∀ key other name, s.get key = some name → s.get other = some name → key = other
  claimed : ∀ key, (s.get key).isSome ↔ key ∈ claims.map (·.1)
  first : ∀ front key natural back, claims = front ++ (key, natural) :: back →
    key ∉ front.map (·.1) → s.get key = some (claimBinding natural (claimAll front).taken).1
  lasting : ∀ front back, claims = front ++ back → ∀ key name,
    (claimAll front).get key = some name → s.get key = some name

theorem claim_binding_fresh (preferred : String) (taken : List String) :
    (claimBinding preferred taken).1 ∉ taken := by
  unfold claimBinding
  split
  · assumption
  · exact FreshName.first_fresh (FreshName.numbered_injective preferred) 2

theorem claim_binding_taken (preferred : String) (taken : List String) :
    (claimBinding preferred taken).2 = (claimBinding preferred taken).1 :: taken := by
  unfold claimBinding
  split <;> rfl

theorem get_claim (s : Scope κ) (key : κ) (natural : String) (k : κ) :
    (s.claim key natural).get k =
      (s.get k).or (if k = key then some (claimBinding natural s.taken).1 else none) := by
  unfold Scope.claim
  split
  · rename_i named
    by_cases same : k = key
    · obtain ⟨name, found⟩ := Option.isSome_iff_exists.mp named
      rw [same, found, Option.some_or]
    · rw [if_neg same, Option.or_none]
  · rename_i unnamed
    rw [Option.not_isSome_iff_eq_none] at unnamed
    simp only [Scope.get, List.lookup_cons]
    by_cases same : k = key
    · rw [same, beq_self_eq_true, if_pos rfl, show s.names.lookup key = none from unnamed,
        Option.none_or]
    · rw [beq_false_of_ne same, if_neg same, Option.or_none]

theorem claim_consistent {s : Scope κ} (consistent : Consistent s) (key : κ) (natural : String) :
    Consistent (s.claim key natural) := by
  by_cases named : (s.get key).isSome
  · rwa [Scope.claim, if_pos named]
  have taken : (s.claim key natural).taken = (claimBinding natural s.taken).1 :: s.taken := by
    rw [Scope.claim, if_neg named]
    exact claim_binding_taken natural s.taken
  have cases_of : ∀ {k name}, (s.claim key natural).get k = some name →
      s.get k = some name ∨ k = key ∧ name = (claimBinding natural s.taken).1 := by
    intro k name found
    rw [get_claim] at found
    rcases Option.or_eq_some_iff.mp found with before | ⟨_, now⟩
    · exact .inl before
    · split at now
      · exact .inr ⟨‹_›, (Option.some.inj now).symm⟩
      · cases now
  have fresh := claim_binding_fresh natural s.taken
  constructor
  · intro k other name found also
    rcases cases_of found with before | ⟨rfl, rfl⟩
    · rcases cases_of also with earlier | ⟨rfl, rfl⟩
      · exact consistent.apart k other name before earlier
      · exact absurd (consistent.recorded k _ before) fresh
    · rcases cases_of also with earlier | ⟨rfl, _⟩
      · exact absurd (consistent.recorded other _ earlier) fresh
      · rfl
  · intro k name found
    rw [taken]
    rcases cases_of found with before | ⟨_, rfl⟩
    · exact List.mem_cons_of_mem _ (consistent.recorded k name before)
    · exact List.mem_cons_self

theorem claim_all_concat (claims : List (κ × String)) (key : κ) (natural : String) :
    claimAll (claims ++ [(key, natural)]) = (claimAll claims).claim key natural := by
  simp [claimAll]

theorem claim_all_lasting {front : List (κ × String)} {key : κ} {name : String}
    (found : (claimAll front).get key = some name) (back : List (κ × String)) :
    (claimAll (front ++ back)).get key = some name := by
  induction back using List.reverseRecOn with
  | nil => rwa [List.append_nil]
  | append_singleton back claim ih =>
    rw [← List.append_assoc, claim_all_concat, get_claim, ih, Option.some_or]

theorem claim_all_claimed (claims : List (κ × String)) (key : κ) :
    ((claimAll claims).get key).isSome ↔ key ∈ claims.map (·.1) := by
  induction claims using List.reverseRecOn with
  | nil => simp [claimAll, Scope.get]
  | append_singleton claims claim ih =>
    rw [claim_all_concat, get_claim, Option.isSome_or, Bool.or_eq_true, ih]
    by_cases same : key = claim.1
    · simp [same]
    · simp [same]

theorem claim_all_consistent (claims : List (κ × String)) : Consistent (claimAll claims) := by
  induction claims using List.reverseRecOn with
  | nil =>
    constructor
    · intro key other name found
      cases found
    · intro key name found
      cases found
  | append_singleton claims claim ih =>
    rw [claim_all_concat]
    exact claim_consistent ih claim.1 claim.2

theorem claim_all_settled (claims : List (κ × String)) : Settled claims (claimAll claims) where
  apart := (claim_all_consistent claims).apart
  claimed := claim_all_claimed claims
  first := by
    rintro front key natural back rfl unclaimed
    rw [List.append_cons]
    refine claim_all_lasting ?_ back
    have unnamed := (not_congr (claim_all_claimed front key)).mpr unclaimed
    rw [Option.not_isSome_iff_eq_none] at unnamed
    rw [claim_all_concat, get_claim, unnamed, Option.none_or, if_pos rfl]
  lasting := by
    rintro front back rfl key name found
    exact claim_all_lasting found back

end

end Claims
