import Mathlib
import Vespertide.Support.Neighbours

/-!
Semantic tokens on the wire. Byte ranges are resolved to a line, a start and a length,
sorted by their start, freed of neighbours over the same span, and written as differences
between unsigned numbers. The positions in the document come from `position_at`.
-/
namespace Vespertide
open Neighbours

structure RawToken where
  start : Nat
  stop : Nat
  tokenType : Nat
  tokenModifiers : Nat

structure Position where
  line : Nat
  character : Nat
  deriving DecidableEq

structure Resolved where
  line : Nat
  start : Nat
  length : Nat
  tokenType : Nat
  tokenModifiers : Nat
  deriving DecidableEq, Repr

def Resolved.span (t : Resolved) : Nat × Nat × Nat := (t.line, t.start, t.length)

structure SemanticToken where
  deltaLine : Nat
  deltaStart : Nat
  length : Nat
  tokenType : Nat
  tokenModifiersBitset : Nat
  deriving DecidableEq, Repr

def checkedSub (a b : Nat) : Option Nat := if b ≤ a then some (a - b) else none

/-- Empty and multi-line ranges are dropped, and ends that are no `u32`. -/
def Resolved.fromRaw (positionAt : Nat → Position) (raw : RawToken) : Option Resolved :=
  if raw.stop ≤ raw.start ∨ 2 ^ 32 ≤ raw.start ∨ 2 ^ 32 ≤ raw.stop then none
  else
    let startPos := positionAt raw.start
    let endPos := positionAt raw.stop
    if startPos.line ≠ endPos.line then none
    else (checkedSub endPos.character startPos.character).bind fun length =>
      if length = 0 then none
      else some { line := startPos.line, start := startPos.character, length
                  tokenType := raw.tokenType, tokenModifiers := raw.tokenModifiers }

abbrev startsBefore (a b : Resolved) : Prop := a.line < b.line ∨ a.line = b.line ∧ a.start ≤ b.start

/-- `none` where a difference would be negative. -/
def encodeFrom : Nat → Nat → List Resolved → Option (List SemanticToken)
  | _, _, [] => some []
  | prevLine, prevStart, t :: rest => do
      let deltaLine ← checkedSub t.line prevLine
      let deltaStart ← if deltaLine = 0 then checkedSub t.start prevStart else some t.start
      let later ← encodeFrom t.line t.start rest
      some ({ deltaLine, deltaStart, length := t.length, tokenType := t.tokenType
              tokenModifiersBitset := t.tokenModifiers } :: later)

section
variable (positionAt : Nat → Position) (tokens : List RawToken)

def resolvedTokens : List Resolved := tokens.filterMap (Resolved.fromRaw positionAt)

def encode : Option (List SemanticToken) :=
  encodeFrom 0 0 (firsts Resolved.span
    ((resolvedTokens positionAt tokens).insertionSort startsBefore))

end

/-- What a client reads, each token relative to the one before. -/
def decodeFrom : Nat → Nat → List SemanticToken → List Resolved
  | _, _, [] => []
  | prevLine, prevStart, t :: rest =>
      let line := prevLine + t.deltaLine
      let start := if t.deltaLine = 0 then prevStart + t.deltaStart else t.deltaStart
      { line, start, length := t.length, tokenType := t.tokenType
        tokenModifiers := t.tokenModifiersBitset } :: decodeFrom line start rest

def decode (out : List SemanticToken) : List Resolved := decodeFrom 0 0 out

/-- Among the tokens that start at one place, those of one length are listed together. -/
def LengthsTogether (resolved : List Resolved) : Prop :=
  ∀ a b c, [a, b, c].Sublist resolved → (a.line, a.start) = (b.line, b.start) →
    (b.line, b.start) = (c.line, c.start) → a.length = c.length → b.length = a.length

/-! Differences -/

instance : Std.Total startsBefore := ⟨fun a b => by unfold startsBefore; omega⟩

instance : IsTrans Resolved startsBefore := ⟨fun a b c => by unfold startsBefore; omega⟩

theorem check_sub {a b : Nat} (le : b ≤ a) : checkedSub a b = some (a - b) := if_pos le

theorem encode_decode : ∀ {sorted : List Resolved} {prevLine prevStart : Nat},
    sorted.Pairwise startsBefore →
    (∀ t ∈ sorted, prevLine < t.line ∨ prevLine = t.line ∧ prevStart ≤ t.start) →
    ∃ out, encodeFrom prevLine prevStart sorted = some out ∧
      decodeFrom prevLine prevStart out = sorted
  | [], prevLine, prevStart, _, _ => ⟨[], rfl, rfl⟩
  | t :: rest, prevLine, prevStart, ordered, ahead => by
    obtain ⟨first, later⟩ := List.pairwise_cons.mp ordered
    obtain ⟨out, encoded, decoded⟩ := encode_decode later first
    have here := ahead t List.mem_cons_self
    have line : prevLine ≤ t.line := by omega
    rw [encodeFrom, check_sub line]
    simp only [Option.bind_eq_bind, Option.bind_some, encoded]
    split
    · rename_i same
      have start : prevStart ≤ t.start := by omega
      refine ⟨_, by rw [check_sub start]; rfl, ?_⟩
      simp only [decodeFrom, if_pos same, Nat.add_sub_cancel' line, Nat.add_sub_cancel' start,
        decoded]
    · rename_i moved
      refine ⟨_, rfl, ?_⟩
      simp only [decodeFrom, if_neg moved, Nat.add_sub_cancel' line, decoded]

/-- Every list is encoded, without a negative difference, and what is read is in order. It is
    the first listed token of every span, each span once, exactly where tokens of one length
    are not parted by another that starts at the same place. -/
theorem encode_faithful_iff (positionAt : Nat → Position) (tokens : List RawToken) :
    ∃ out, encode positionAt tokens = some out ∧ (decode out).Pairwise startsBefore ∧
      (((decode out).map Resolved.span).Nodup ∧
          (∀ t, t ∈ decode out ↔ (resolvedTokens positionAt tokens).find?
            (·.span = t.span) = some t) ↔
        LengthsTogether (resolvedTokens positionAt tokens)) := by
  let resolved := resolvedTokens positionAt tokens
  let sorted := resolved.insertionSort startsBefore
  have level : ∀ a b : Resolved, a.span = b.span → startsBefore a b := by
    intro a b same
    obtain ⟨line, start, _⟩ : a.line = b.line ∧ a.start = b.start ∧ a.length = b.length := by
      simpa [Resolved.span] using same
    exact .inr ⟨line, start.le⟩
  have ordered : (firsts Resolved.span sorted).Pairwise startsBefore :=
    (List.pairwise_insertionSort startsBefore resolved).sublist (List.destutter_sublist _ _)
  obtain ⟨out, encoded, decoded⟩ := @encode_decode _ 0 0 ordered fun t _ => by
    omega
  have together : Together Resolved.span sorted ↔ LengthsTogether resolved := by
    refine (together_sort_iff level resolved).trans ?_
    constructor
    · intro apart a b c triple here there lengths
      obtain ⟨line, start⟩ := Prod.mk.inj here
      obtain ⟨next, later⟩ := Prod.mk.inj there
      have kind : a.span = c.span := by
        rw [Resolved.span, Resolved.span, line, start, next, later, lengths]
      have same := apart a b c triple (.inr ⟨line, start.le⟩) (.inr ⟨line.symm, start.ge⟩) kind
      simp only [Resolved.span, Prod.mk.injEq] at same
      exact same.2.2
    · intro apart a b c triple above below kind
      obtain ⟨line, start, length⟩ :
          a.line = c.line ∧ a.start = c.start ∧ a.length = c.length := by
        simpa [Resolved.span] using kind
      have same_line : a.line = b.line := by omega
      have same_start : a.start = b.start := by omega
      have lengths := apart a b c triple (by rw [same_line, same_start])
        (by rw [← same_line, ← same_start, line, start]) length
      rw [Resolved.span, Resolved.span, same_line, same_start, lengths]
  refine ⟨out, encoded, by rwa [decode, decoded], ?_⟩
  rw [decode, decoded, firsts_apart_iff, ← together]
  refine ⟨And.left, fun stand => ⟨stand, fun t => ?_⟩⟩
  rw [mem_firsts_iff stand, find_sort level]

def lineOf (length : Nat) (offset : Nat) : Position := ⟨0, min length offset⟩

theorem parted_spans_repeated : ¬ ∀ (positionAt : Nat → Position),
    (∀ a b, a ≤ b → (positionAt a).line < (positionAt b).line ∨
      (positionAt a).line = (positionAt b).line ∧
        (positionAt a).character ≤ (positionAt b).character) →
    ∀ tokens out, encode positionAt tokens = some out →
      ((decode out).map Resolved.span).Nodup := by
  intro always
  have monotone : ∀ a b, a ≤ b → (lineOf 2 a).line < (lineOf 2 b).line ∨
      (lineOf 2 a).line = (lineOf 2 b).line ∧
        (lineOf 2 a).character ≤ (lineOf 2 b).character := by
    intro a b le
    refine .inr ⟨rfl, ?_⟩
    simp only [lineOf]
    omega
  have repeated := always (lineOf 2) monotone [⟨0, 1, 0, 0⟩, ⟨0, 2, 1, 0⟩, ⟨0, 1, 2, 0⟩] _ rfl
  exact absurd repeated (by decide)

end Vespertide
