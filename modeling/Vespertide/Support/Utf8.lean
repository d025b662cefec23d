import Mathlib

/-!
UTF-8 and its lossy decoding. Bytes are read one at a time; where one cannot go on with
the character that was begun, that one is replaced and the byte begins another.
-/
namespace Utf8

def encode (c : Char) : List ℕ :=
  let n := c.toNat
  if n < 0x80 then [n]
  else if n < 0x800 then [0xC0 + n / 64, 0x80 + n % 64]
  else if n < 0x10000 then [0xE0 + n / 4096, 0x80 + n / 64 % 64, 0x80 + n % 64]
  else [0xF0 + n / 262144, 0x80 + n / 4096 % 64, 0x80 + n / 64 % 64, 0x80 + n % 64]

def replacement : Char := '\uFFFD'

/-- A byte within the bounds is owed, and `more` continuation bytes after it. -/
inductive State where
  | ready
  | owing (more lo hi value : ℕ)

/-- A byte at the start of a character: what is read, and the state after it. -/
def lead (b : ℕ) : List Char × State :=
  if b < 0x80 then ([Char.ofNat b], .ready)
  else if 0xC2 ≤ b ∧ b ≤ 0xDF then ([], .owing 0 0x80 0xBF (b - 0xC0))
  else if 0xE0 ≤ b ∧ b ≤ 0xEF then
    ([], .owing 1 (if b = 0xE0 then 0xA0 else 0x80) (if b = 0xED then 0x9F else 0xBF) (b - 0xE0))
  else if 0xF0 ≤ b ∧ b ≤ 0xF4 then
    ([], .owing 2 (if b = 0xF0 then 0x90 else 0x80) (if b = 0xF4 then 0x8F else 0xBF) (b - 0xF0))
  else ([replacement], .ready)

def feed : State → ℕ → List Char × State
  | .ready, b => lead b
  | .owing more lo hi value, b =>
      if lo ≤ b ∧ b ≤ hi then
        match more with
        | 0 => ([Char.ofNat (value * 64 + (b - 0x80))], .ready)
        | more + 1 => ([], .owing more 0x80 0xBF (value * 64 + (b - 0x80)))
      else (replacement :: (lead b).1, (lead b).2)

/-- What is read of the bytes; at the end a character that was begun is replaced. -/
def lossy : State → List ℕ → List Char
  | .ready, [] => []
  | .owing _ _ _ _, [] => [replacement]
  | s, b :: bs => (feed s b).1 ++ lossy (feed s b).2 bs

/-- Only continuation bytes are owed, and the character begun is no ASCII one. -/
def Sound : State → Prop
  | .ready => True
  | .owing more lo hi value =>
      0x80 ≤ lo ∧ hi ≤ 0xBF ∧ 0x80 ≤ (value * 64 + (lo - 0x80)) * 64 ^ more

theorem lead_sound (b : ℕ) : Sound (lead b).2 := by
  unfold lead
  split
  · trivial
  · split
    · simp only [Sound]
      omega
    · split
      · simp only [Sound]
        split <;> split <;> omega
      · split
        · simp only [Sound]
          split <;> split <;> omega
        · trivial

theorem feed_sound {s : State} (sound : Sound s) (b : ℕ) : Sound (feed s b).2 := by
  cases s with
  | ready => exact lead_sound b
  | owing more lo hi value =>
    obtain ⟨low, high, big⟩ := sound
    by_cases within : lo ≤ b ∧ b ≤ hi
    · cases more with
      | zero =>
        simp only [feed, if_pos within]
        exact True.intro
      | succ more =>
        simp only [feed, if_pos within]
        refine ⟨Nat.le_refl _, Nat.le_refl _, Nat.le_trans big ?_⟩
        rw [Nat.pow_succ, Nat.sub_self, Nat.add_zero, Nat.mul_comm (64 ^ more), ← Nat.mul_assoc]
        refine Nat.mul_le_mul_right _ (Nat.mul_le_mul_right _ ?_)
        omega
    · simp only [feed, if_neg within]
      exact lead_sound b

/-! Characters -/

theorem lossy_ready_cons (b : ℕ) (bs : List ℕ) :
    lossy .ready (b :: bs) = (lead b).1 ++ lossy (lead b).2 bs := rfl

theorem lossy_goes_on {lo hi b : ℕ} (within : lo ≤ b ∧ b ≤ hi) (more value : ℕ) (bs : List ℕ) :
    lossy (.owing (more + 1) lo hi value) (b :: bs) =
      lossy (.owing more 0x80 0xBF (value * 64 + (b - 0x80))) bs := by
  simp only [lossy, feed, if_pos within, List.nil_append]

theorem lossy_completes {lo hi b : ℕ} (within : lo ≤ b ∧ b ≤ hi) (value : ℕ) (bs : List ℕ) :
    lossy (.owing 0 lo hi value) (b :: bs) =
      Char.ofNat (value * 64 + (b - 0x80)) :: lossy .ready bs := by
  simp only [lossy, feed, if_pos within, List.singleton_append]

theorem lossy_restarts {lo hi b : ℕ} (outside : ¬ (lo ≤ b ∧ b ≤ hi)) (more value : ℕ)
    (bs : List ℕ) : lossy (.owing more lo hi value) (b :: bs) =
      replacement :: lossy .ready (b :: bs) := by
  simp only [lossy, feed, if_neg outside, List.cons_append]

theorem lossy_encode (c : Char) (bs : List ℕ) :
    lossy .ready (encode c ++ bs) = c :: lossy .ready bs := by
  have valid : c.toNat < 0xD800 ∨ 0xDFFF < c.toNat ∧ c.toNat < 0x110000 := c.valid
  have same : ∀ n, n = c.toNat → Char.ofNat n = c := by
    rintro n rfl
    exact Char.ofNat_toNat c
  simp only [encode]
  split
  · rename_i ascii
    rw [List.singleton_append, lossy_ready_cons, lead, if_pos ascii, same _ rfl,
      List.singleton_append]
  split
  · have begun : lead (0xC0 + c.toNat / 64) = ([], .owing 0 0x80 0xBF (c.toNat / 64)) := by
      rw [lead, if_neg (by omega), if_pos (by omega), Nat.add_sub_cancel_left]
    rw [List.cons_append, lossy_ready_cons, begun, List.nil_append, List.singleton_append,
      lossy_completes (by omega), same _ (by omega)]
  split
  · have begun : lead (0xE0 + c.toNat / 4096) = ([], .owing 1
        (if c.toNat / 4096 = 0 then 0xA0 else 0x80) (if c.toNat / 4096 = 13 then 0x9F else 0xBF)
        (c.toNat / 4096)) := by
      rw [lead, if_neg (by omega), if_neg (by omega), if_pos (by omega),
        Nat.add_sub_cancel_left]
      have surrogates : 0xE0 + c.toNat / 4096 = 0xED ↔ c.toNat / 4096 = 13 := by omega
      simp only [Nat.add_eq_left, surrogates]
    rw [List.cons_append, lossy_ready_cons, begun, List.nil_append, List.cons_append,
      lossy_goes_on (by constructor <;> split <;> omega), List.singleton_append,
      lossy_completes (by omega), same _ (by omega)]
  · have begun : lead (0xF0 + c.toNat / 262144) = ([], .owing 2
        (if c.toNat / 262144 = 0 then 0x90 else 0x80) (if c.toNat / 262144 = 4 then 0x8F else 0xBF)
        (c.toNat / 262144)) := by
      rw [lead, if_neg (by omega), if_neg (by omega), if_neg (by omega), if_pos (by omega),
        Nat.add_sub_cancel_left]
      have last_plane : 0xF0 + c.toNat / 262144 = 0xF4 ↔ c.toNat / 262144 = 4 := by omega
      simp only [Nat.add_eq_left, last_plane]
    rw [List.cons_append, lossy_ready_cons, begun, List.nil_append, List.cons_append,
      lossy_goes_on (by constructor <;> split <;> omega), List.cons_append,
      lossy_goes_on (by omega), List.singleton_append, lossy_completes (by omega),
      same _ (by omega)]

theorem encode_head (c : Char) : ∃ b bs, encode c = b :: bs ∧ (b < 0x80 ∨ 0xBF < b) := by
  simp only [encode]
  split
  · exact ⟨_, _, rfl, .inl ‹_›⟩
  split
  · exact ⟨_, _, rfl, .inr (by omega)⟩
  split
  · exact ⟨_, _, rfl, .inr (by omega)⟩
  · exact ⟨_, _, rfl, .inr (by omega)⟩

/-! ASCII characters -/

theorem of_nat_to_nat (n : ℕ) : (Char.ofNat n).toNat = if n.isValidChar then n else 0 := by
  unfold Char.ofNat
  split
  · rfl
  · rfl

section Ascii
variable {a : Char} (positive : 0 < a.toNat) (ascii : a.toNat < 0x80)
include positive ascii

theorem replacement_ne : replacement ≠ a := by
  rintro rfl
  exact absurd ascii (by decide)

theorem of_nat_ne {n : ℕ} (big : 0x80 ≤ n) : Char.ofNat n ≠ a := by
  rintro rfl
  rw [of_nat_to_nat] at positive ascii
  split at positive
  · rename_i valid
    rw [if_pos valid] at ascii
    omega
  · exact absurd positive (Nat.lt_irrefl 0)

theorem owing_head {more lo hi value : ℕ} (sound : Sound (.owing more lo hi value))
    (bs : List ℕ) : (lossy (.owing more lo hi value) bs).head? ≠ some a := by
  have apart := replacement_ne positive ascii
  induction bs generalizing more lo hi value with
  | nil => exact fun read => apart (Option.some.inj read)
  | cons b bs ih =>
    by_cases within : lo ≤ b ∧ b ≤ hi
    · cases more with
      | zero =>
        obtain ⟨low, high, big⟩ := sound
        rw [lossy_completes within]
        have value_big : 0x80 ≤ value * 64 + (b - 0x80) := by omega
        exact fun read => of_nat_ne positive ascii value_big (Option.some.inj read)
      | succ more =>
        have next := feed_sound sound b
        simp only [feed, if_pos within] at next
        rw [lossy_goes_on within]
        exact ih next
    · rw [lossy_restarts within]
      exact fun read => apart (Option.some.inj read)

theorem ascii_of_head {b : ℕ} {bs : List ℕ} (read : (lossy .ready (b :: bs)).head? = some a) :
    b = a.toNat := by
  have sound := lead_sound b
  rw [lossy_ready_cons] at read
  unfold lead at read sound
  split at read
  · rename_i small
    have same : Char.ofNat b = a := Option.some.inj read
    have valid : b.isValidChar := .inl (by omega)
    rw [← same, of_nat_to_nat, if_pos valid]
  · rename_i large
    rw [if_neg large] at sound
    split at read
    · rename_i two
      rw [if_pos two] at sound
      exact absurd read (owing_head positive ascii sound bs)
    · rename_i not_two
      rw [if_neg not_two] at sound
      split at read
      · rename_i three
        rw [if_pos three] at sound
        exact absurd read (owing_head positive ascii sound bs)
      · rename_i not_three
        rw [if_neg not_three] at sound
        split at read
        · rename_i four
          rw [if_pos four] at sound
          exact absurd read (owing_head positive ascii sound bs)
        · exact absurd (Option.some.inj read) (replacement_ne positive ascii)

end Ascii

/-! How much is read -/

/-- A single byte, or all bytes of a character. -/
inductive Piece where
  | byte (b : ℕ)
  | char (c : Char)

def Piece.bytes : Piece → List ℕ
  | .byte b => [b]
  | .char c => encode c

def State.begun : State → ℕ
  | .ready => 0
  | .owing _ _ _ _ => 1

theorem lead_length (b : ℕ) : (lead b).1.length + (lead b).2.begun = 1 := by
  unfold lead
  split
  · rfl
  split
  · rfl
  split
  · rfl
  split <;> rfl

theorem feed_length (s : State) (b : ℕ) :
    (feed s b).1.length + (feed s b).2.begun ≤ s.begun + 1 := by
  have again := lead_length b
  cases s with
  | ready => exact Nat.le_of_eq again
  | owing more lo hi value =>
    by_cases within : lo ≤ b ∧ b ≤ hi
    · cases more with
      | zero => simp [feed, if_pos within, State.begun]
      | succ more => simp [feed, if_pos within, State.begun]
    · simp only [feed, if_neg within, List.length_cons]
      rw [Nat.add_right_comm, again]
      exact Nat.le_refl 2

/-- No more characters are read than there are pieces: a whole character is read as one,
    whatever stands before it. -/
theorem lossy_length_le (pieces : List Piece) {s : State} (sound : Sound s) :
    (lossy s (pieces.flatMap Piece.bytes)).length ≤ pieces.length + s.begun := by
  induction pieces generalizing s with
  | nil => cases s <;> simp [lossy, State.begun]
  | cons piece pieces ih =>
    rw [List.flatMap_cons, List.length_cons]
    cases piece with
    | byte b =>
      have step := feed_length s b
      have rest := ih (feed_sound sound b)
      have unfolded : lossy s ([b] ++ pieces.flatMap Piece.bytes) =
          (feed s b).1 ++ lossy (feed s b).2 (pieces.flatMap Piece.bytes) := by
        cases s <;> rfl
      rw [Piece.bytes, unfolded, List.length_append]
      omega
    | char c =>
      have rest := @ih .ready True.intro
      have whole := lossy_encode c (pieces.flatMap Piece.bytes)
      cases s with
      | ready =>
        rw [Piece.bytes, whole, List.length_cons]
        omega
      | owing more lo hi value =>
        obtain ⟨low, high, _⟩ := sound
        obtain ⟨b, bs, split, outside⟩ := encode_head c
        rw [split] at whole
        rw [Piece.bytes, split, List.cons_append, lossy_restarts (by omega), ← List.cons_append,
          whole, List.length_cons, List.length_cons]
        simp only [State.begun] at rest ⊢
        omega

end Utf8
