import Mathlib
import Vespertide.CheckLexemes
import Vespertide.FillText
import Vespertide.Support.Literals

/-!
A fill value is an expression of the user. It is left alone unless a cast in it
follows a literal or a bare token, and a literal or name with its casts is
rewritten for the backend without a change to what is cast.
-/
namespace Vespertide
open Text

/-! Texts -/

/-- Inside a literal or not, and the number of open brackets. -/
def place : Bool × Nat → Char → Bool × Nat
  | (true, depth), c => (decide (c ≠ '\''), depth)
  | (false, depth), c =>
      if c = '\'' then (true, depth)
      else if c = '(' then (false, depth + 1)
      else if c = ')' then (false, depth - 1)
      else (false, depth)

/-- What follows the text stands in no literal and in no bracket. -/
def Outside (text : List Char) : Prop := text.foldl place (false, 0) = (false, 0)

def CompleteLiteral (text : List Char) : Prop := ∃ body, text = quote '\'' body

def BareToken (text : List Char) : Prop :=
  text ≠ [] ∧ ∀ c ∈ text, isWhitespace c = false ∧ c ∉ ['(', ')', ',', ';', '\'', '"']

def PortableSpelling (text : List Char) : Prop :=
  matchesAnySpelling text uuidFunctionSpellings ∨ matchesAnySpelling text timestampFunctionSpellings

def NoCast (text : List Char) : Prop :=
  ∀ before rest, text = before ++ ':' :: ':' :: rest → ¬ Outside before

/-- The last cast outside literals and brackets follows one literal or one bare token. -/
def CastOnToken (text : List Char) : Prop :=
  ∃ before rest, text = before ++ ':' :: ':' :: rest ∧ Outside before ∧ NoCast rest ∧
    (CompleteLiteral (trim before) ∨ BareToken (trim before))

/-! Atoms with casts -/

def identifierChar (c : Char) : Bool :=
  c.isAlphanum || decide (c ∈ ['_', '$', '.']) || (decide (128 ≤ c.toNat) && !isWhitespace c)

def IdentifierText (text : List Char) : Prop := text ≠ [] ∧ ∀ c ∈ text, identifierChar c = true

def typesOfWords : List String :=
  ["double precision", "character varying", "bit varying", "timestamp with time zone",
    "timestamp without time zone", "time with time zone", "time without time zone"]

inductive TypeText : List Char → Prop where
  | identifier {text : List Char} (name : IdentifierText text) : TypeText text
  | words {text : List Char} (known : matchesAnySpelling text typesOfWords) : TypeText text
  | modified {text : List Char} (type : TypeText text) (modifiers : List Char)
      (numbers : ∀ c ∈ modifiers, c.isDigit ∨ c = ',') : TypeText (text ++ '(' :: modifiers ++ [')'])
  | array {text : List Char} (type : TypeText text) : TypeText (text ++ ['[', ']'])

def NamedText (text : List Char) : Prop :=
  IdentifierText text ∨ ∃ number : NumberParts, text = number.text

def castChain (types : List (List Char)) : List Char := types.flatMap fun type => ':' :: ':' :: type

/-- What is cast, the types between, and the last type; white space may stand around the last
    cast. A literal has one cast, a name or a number a chain of them. -/
structure CastAtom where
  operand : List Char
  inner : List (List Char)
  before : List Char
  after : List Char
  type : List Char
  atom : CompleteLiteral operand ∧ inner = [] ∨
    NamedText operand ∧ ∀ name ∈ inner, IdentifierText name
  blanks : ∀ c ∈ before ++ after, isWhitespace c = true
  typed : TypeText type

namespace CastAtom

def text (a : CastAtom) : List Char :=
  a.operand ++ castChain a.inner ++ a.before ++ ':' :: ':' :: (a.after ++ a.type)

def types (a : CastAtom) : List (List Char) := a.inner ++ [a.type]

end CastAtom

/-! Casts stand outside -/

theorem scan_append (s : CastScan) (i : Nat) (a b : List Char) :
    scanCasts s i (a ++ b) = scanCasts (scanCasts s i a) (i + a.length) b := by
  induction a generalizing s i with
  | nil => rfl
  | cons c a ih =>
    rw [List.cons_append, scanCasts, scanCasts, ih, List.length_cons]
    congr 1
    omega

theorem no_cast_append {text : List Char} (free : NoCast text) {c : Char}
    (apart : c = ':' → text.getLast? = some ':' → ¬ Outside text) : NoCast (text ++ [c]) := by
  intro before rest same outside
  rcases List.eq_nil_or_concat rest with rfl | ⟨rest, d, rfl⟩
  · obtain ⟨rfl, last⟩ := List.append_inj' (show text ++ [c] = (before ++ [':']) ++ [':'] by
      simpa using same) rfl
    refine apart (by simpa using last) (by simp) ?_
    rw [Outside, List.foldl_append, outside]
    rfl
  · have longer : text ++ [c] = (before ++ ':' :: ':' :: rest) ++ [d] := by simpa using same
    exact free before rest (List.append_inj' longer rfl).1 outside

def SinceCast (text : List Char) (last : Option Nat) (rest : List Char) : Prop :=
  match last with
  | none => text = rest
  | some i => ∃ before, text = before ++ ':' :: ':' :: rest ∧ before.length = i ∧ Outside before

theorem SinceCast.next {text rest : List Char} {last : Option Nat} (since : SinceCast text last rest)
    (c : Char) : SinceCast (text ++ [c]) last (rest ++ [c]) := by
  cases last with
  | none => exact congrArg (· ++ [c]) since
  | some i =>
    obtain ⟨before, same, length, outside⟩ := since
    exact ⟨before, by simp [same], length, outside⟩

theorem SinceCast.place {text rest : List Char} {last : Option Nat}
    (since : SinceCast text last rest) :
    text.foldl Vespertide.place (false, 0) = rest.foldl Vespertide.place (false, 0) := by
  cases last with
  | none => rw [since]
  | some i =>
    obtain ⟨before, same, -, outside⟩ := since
    rw [same, List.foldl_append, outside]
    rfl

/-- What the scan of a text knows: where the text ends, the colon it ends with, and the text that
    follows the last cast outside. -/
structure Scanned (text : List Char) (s : CastScan) : Prop where
  place : text.foldl place (false, 0) = (s.inQuote, s.depth)
  pending : ∀ i, s.pendingColon = some i → s.inQuote = false ∧
    ∃ before, text = before ++ [':'] ∧ before.length = i ∧
      before.foldl Vespertide.place (false, 0) = (s.inQuote, s.depth)
  since : ∃ rest, SinceCast text s.last rest ∧ NoCast rest ∧
    (s.inQuote = false → s.depth = 0 → s.pendingColon = none → rest.getLast? ≠ some ':')

theorem Scanned.next {text : List Char} {s : CastScan} (scanned : Scanned text s) (c : Char) :
    Scanned (text ++ [c]) (s.next text.length c) := by
  have here : (text ++ [c]).foldl Vespertide.place (false, 0) =
      Vespertide.place (s.inQuote, s.depth) c := by
    rw [List.foldl_append, scanned.place]
    rfl
  obtain ⟨rest, since, free, ended⟩ := scanned.since
  have place := since.place.symm.trans scanned.place
  have other : c ≠ ':' → NoCast (rest ++ [c]) ∧ (rest ++ [c]).getLast? ≠ some ':' := fun other =>
    ⟨no_cast_append free fun colon => absurd colon other, by simpa using other⟩
  obtain ⟨inQuote, depth, pendingColon, last⟩ := s
  cases inQuote with
  | true =>
    refine ⟨here, fun i held => (by cases held), rest ++ [c], since.next c, ?_, fun closed _ _ => ?_⟩
    · refine no_cast_append free fun _ _ outside => ?_
      cases place.symm.trans outside
    · obtain rfl : c = '\'' := by simpa [CastScan.next] using closed
      exact (other (by decide)).2
  | false =>
    simp only [CastScan.next, Bool.false_eq_true, if_false]
    split
    · have kept := other (by decide)
      exact ⟨here, fun i held => (by cases held), rest ++ ['\''], since.next _, kept.1,
        fun _ _ _ => kept.2⟩
    · have kept := other (by decide)
      exact ⟨here, fun i held => (by cases held), rest ++ ['('], since.next _, kept.1,
        fun _ _ _ => kept.2⟩
    · have kept := other (by decide)
      exact ⟨here, fun i held => (by cases held), rest ++ [')'], since.next _, kept.1,
        fun _ _ _ => kept.2⟩
    · cases pendingColon with
      | none =>
        refine ⟨here, fun i held => ?_, rest ++ [':'], since.next _, ?_, fun _ _ held => by cases held⟩
        · obtain rfl := Option.some.inj held
          exact ⟨rfl, text, rfl, rfl, scanned.place⟩
        · refine no_cast_append free fun _ colon outside => ?_
          have level : depth = 0 := congrArg Prod.snd (place.symm.trans outside)
          exact ended rfl level rfl colon
      | some start =>
        by_cases level : depth = 0
        · subst level
          obtain ⟨-, before, same, length, outside⟩ := scanned.pending start rfl
          refine ⟨here, fun i held => (by cases held), [], ⟨before, by simp [same], length, outside⟩,
            ?_, fun _ _ _ => by simp⟩
          intro front rest same
          simp at same
        · refine ⟨here, fun i held => (by cases held), rest ++ [':'], ?_, ?_, fun _ flat => ?_⟩
          · simpa only [if_neg level] using since.next ':'
          · refine no_cast_append free fun _ _ outside => ?_
            exact level (congrArg Prod.snd (place.symm.trans outside))
          · exact absurd flat level
    · rename_i quote opening closing colon
      have kept := other colon
      refine ⟨?_, fun i held => (by cases held), rest ++ [c], since.next c, kept.1,
        fun _ _ _ => kept.2⟩
      rw [here, Vespertide.place, if_neg quote, if_neg opening, if_neg closing]

theorem scanned (text : List Char) : Scanned text (scanCasts ⟨false, 0, none, none⟩ 0 text) := by
  induction text using List.reverseRecOn with
  | nil =>
    refine ⟨rfl, fun i held => (by cases held), [], rfl, fun before rest same => ?_,
      fun _ _ _ => by simp⟩
    simp at same
  | append_singleton text c ih =>
    have step := ih.next c
    rw [scan_append, Nat.zero_add]
    exact step

/-- The cast that is found is the last one in no literal and in no bracket. -/
theorem last_cast_outside {text : List Char} {split : Nat}
    (found : findLastTopLevelCast text = some split) :
    ∃ before rest, text = before ++ ':' :: ':' :: rest ∧ before.length = split ∧
      Outside before ∧ NoCast rest := by
  dsimp only [findLastTopLevelCast] at found
  split at found
  · cases found
  · obtain ⟨rest, since, free, -⟩ := (scanned text).since
    rw [found] at since
    obtain ⟨before, same, length, outside⟩ := since
    exact ⟨before, rest, same, length, outside, free⟩

/-! What the classifier takes -/

theorem quoted_throughout_iff (text : List Char) :
    (quotedThroughout true text = true ↔ ∃ body, text = doubled '\'' body ++ ['\'']) ∧
    (quotedThroughout false text = true ↔ text = [] ∨ CompleteLiteral text) := by
  induction text with
  | nil => simp [quotedThroughout, CompleteLiteral, quote]
  | cons c text ih =>
    obtain ⟨inside, outside⟩ := ih
    by_cases mark : c = '\''
    · subst mark
      constructor
      · rw [quotedThroughout, if_pos rfl, Bool.not_true, outside]
        constructor
        · rintro (rfl | ⟨body, rfl⟩)
          · exact ⟨[], rfl⟩
          · exact ⟨'\'' :: body, by simp [quote_doubled, doubled]⟩
        · rintro ⟨body, same⟩
          cases body with
          | nil => exact .inl (List.cons.inj same).2
          | cons d body =>
            by_cases double : d = '\''
            · subst double
              refine .inr ⟨body, ?_⟩
              simpa [quote_doubled, doubled] using same
            · simp [doubled, double] at same
              exact absurd same.1.symm double
      · rw [quotedThroughout, if_pos rfl, Bool.not_false, inside]
        simp only [List.cons_ne_nil, false_or, CompleteLiteral, quote_doubled, List.cons_append,
          List.cons.injEq, true_and]
    · constructor
      · rw [quotedThroughout, if_neg mark, if_pos rfl, inside]
        constructor
        · rintro ⟨body, rfl⟩
          exact ⟨c :: body, by simp [doubled, mark]⟩
        · rintro ⟨body, same⟩
          cases body with
          | nil => simp [doubled, mark] at same
          | cons d body =>
            by_cases double : d = '\''
            · simp [doubled, double, mark] at same
            · simp only [doubled, List.flatMap_cons, if_neg double, List.cons_append,
                List.nil_append, List.cons.injEq] at same
              exact ⟨body, same.2⟩
      · rw [quotedThroughout, if_neg mark, if_neg Bool.false_ne_true]
        simp [CompleteLiteral, quote, mark]

theorem single_atom_iff (text : List Char) :
    isSingleSqlAtom text = true ↔ CompleteLiteral text ∨ BareToken text := by
  unfold isSingleSqlAtom
  split
  · simp [CompleteLiteral, quote, BareToken]
  · rename_i rest
    rw [isOneCompleteQuotedLiteral, (quoted_throughout_iff _).2]
    simp [BareToken]
  · rename_i empty quoted
    have literal : ¬ CompleteLiteral text := by
      rintro ⟨body, same⟩
      exact quoted _ same
    rw [or_iff_right literal, BareToken, and_iff_right empty]
    simp only [Bool.not_eq_true', List.any_eq_false, Bool.or_eq_true, decide_eq_true_eq, not_or,
      Bool.not_eq_true]

theorem blank_upper {c : Char} (blank : isWhitespace c = true) : c.toUpper = c := by
  unfold Char.toUpper
  split
  · rename_i lower
    have bounds : 97 ≤ c.toNat ∧ c.toNat ≤ 122 := lower
    simp only [isWhitespace, decide_eq_true_eq] at blank
    omega
  · rfl

theorem tight_of_case {text other : List Char} (same : eqIgnoreAsciiCase text other = true)
    (tight : Tight (other.map Char.toUpper)) : Tight text := by
  rw [← (of_decide_eq_true same : text.map Char.toUpper = other.map Char.toUpper)] at tight
  have visible : ∀ c : Char, isWhitespace c.toUpper = false → isWhitespace c = false := by
    intro c raised
    by_contra blank
    rw [Bool.not_eq_false] at blank
    rw [blank_upper blank, blank] at raised
    cases raised
  constructor
  · intro c first
    exact visible c (tight.1 _ (by rw [List.head?_map, Option.mem_def.mp first]; rfl))
  · intro c last
    exact visible c (tight.2 _ (by rw [List.getLast?_map, Option.mem_def.mp last]; rfl))

theorem spelling_tight {text : List Char} {spellings : List String}
    (known : matchesAnySpelling text spellings = true)
    (tight : ∀ spelling ∈ spellings, Tight (spelling.toList.map Char.toUpper)) : Tight text := by
  obtain ⟨spelling, mem, same⟩ := List.any_eq_true.mp known
  exact tight_of_case same (tight spelling mem)

instance (s : List Char) : Decidable (Tight s) :=
  @instDecidableAnd _ _ (Option.decidableForallMem s.head?) (Option.decidableForallMem s.getLast?)

theorem portable_tight {text : List Char} (portable : PortableSpelling text) : Tight text := by
  rcases portable with uuid | timestamp
  · exact spelling_tight uuid (by decide)
  · exact spelling_tight timestamp (by decide)

/-! Characters of names, numbers and types -/

theorem alnum_visible {c : Char} (letter : c.isAlphanum = true) : isWhitespace c = false := by
  have bounds : 48 ≤ c.toNat ∧ c.toNat ≤ 122 := by
    simp [Char.isAlphanum, Char.isAlpha, Char.isUpper, Char.isLower, Char.isDigit,
      UInt32.le_iff_toNat_le] at letter
    omega
  simp only [isWhitespace, decide_eq_false_iff_not]
  omega

/-- A character that neither ends a token nor stands for anything in a scan. -/
def TokenChar (c : Char) : Prop :=
  isWhitespace c = false ∧ c ∉ ['(', ')', ',', ';', '\'', '"', ':']

theorem token_unmarked {c : Char} (token : TokenChar c) : c ∉ ['(', ')', '\'', ':'] := by
  intro mark
  have marks := token.2
  simp only [List.mem_cons, List.not_mem_nil, or_false] at mark marks
  tauto

theorem identifier_token {c : Char} (named : identifierChar c = true) : TokenChar c := by
  simp only [identifierChar, Bool.or_eq_true, Bool.and_eq_true, decide_eq_true_eq,
    Bool.not_eq_true'] at named
  refine ⟨?_, fun mark => ?_⟩
  · rcases named with (letter | mark) | ⟨-, visible⟩
    · exact alnum_visible letter
    · simp only [List.mem_cons, List.not_mem_nil, or_false] at mark
      rcases mark with rfl | rfl | rfl <;> rfl
    · exact visible
  · simp only [List.mem_cons, List.not_mem_nil, or_false] at mark
    rcases mark with rfl | rfl | rfl | rfl | rfl | rfl | rfl <;> simp at named

theorem number_chars (n : NumberParts) :
    ∀ c ∈ n.text, c.isDigit = true ∨ c ∈ ['+', '-', '.', 'e', 'E'] := by
  obtain ⟨sign, whole, fraction, exponent, signed, digits, point, scale, -⟩ := n
  have sign_chars : ∀ {s : List Char}, SignText s → ∀ c ∈ s, c = '+' ∨ c = '-' := by
    rintro s (_ | _ | _) <;> simp
  intro c mem
  simp only [NumberParts.text, List.mem_append] at mem
  rcases mem with mem | mem | mem | mem
  · rcases sign_chars signed c mem with rfl | rfl <;> simp
  · exact .inl (digits c mem)
  · cases point with
    | none => cases mem
    | some read =>
      rcases List.mem_cons.mp mem with rfl | mem
      · simp
      · exact .inl (read c mem)
  · cases scale with
    | none => cases mem
    | some opens signed read present =>
      rcases List.mem_cons.mp mem with rfl | mem
      · rcases opens with rfl | rfl <;> simp
      · rcases List.mem_append.mp mem with mem | mem
        · rcases sign_chars signed c mem with rfl | rfl <;> simp
        · exact .inl (read c mem)

theorem named_token {text : List Char} (named : NamedText text) : ∀ c ∈ text, TokenChar c := by
  intro c mem
  rcases named with name | ⟨n, rfl⟩
  · exact identifier_token (name.2 c mem)
  · rcases number_chars n c mem with digit | mark
    · exact identifier_token (by simp [identifierChar, Char.isAlphanum, digit])
    · simp only [List.mem_cons, List.not_mem_nil, or_false] at mark
      rcases mark with rfl | rfl | rfl | rfl | rfl <;> exact ⟨rfl, by simp⟩

theorem named_nonempty {text : List Char} (named : NamedText text) : text ≠ [] := by
  rcases named with name | ⟨n, rfl⟩
  · exact name.1
  · intro empty
    simp only [NumberParts.text, List.append_eq_nil_iff] at empty
    rcases n.present with whole | fraction
    · exact whole empty.2.1
    · simp [empty.2.2.1] at fraction

theorem token_tight {text : List Char} (tokens : ∀ c ∈ text, TokenChar c) : Tight text :=
  ⟨fun c first => (tokens c (List.mem_of_mem_head? first)).1,
    fun c last => (tokens c (List.mem_of_mem_getLast? last)).1⟩

theorem tight_append {a b : List Char} (first : a ≠ []) (last : b ≠ []) (tight : Tight a)
    (closed : Tight b) : Tight (a ++ b) := by
  refine ⟨fun c head => tight.1 c ?_, fun c final => closed.2 c ?_⟩
  · rwa [List.head?_append_of_ne_nil _ first] at head
  · rwa [List.getLast?_append_of_ne_nil _ last] at final

theorem word_symbol {text : List Char} {spellings : List String} {c : Char}
    (known : matchesAnySpelling text spellings = true) (kept : c.toUpper = c)
    (absent : ∀ spelling ∈ spellings, c ∉ spelling.toList.map Char.toUpper) : c ∉ text := by
  obtain ⟨spelling, mem, same⟩ := List.any_eq_true.mp known
  intro here
  have raised : text.map Char.toUpper = spelling.toList.map Char.toUpper := of_decide_eq_true same
  exact absent spelling mem (raised ▸ List.mem_map.mpr ⟨c, here, kept⟩)

theorem colon_not_portable {text : List Char} (colon : ':' ∈ text) : ¬ PortableSpelling text := by
  rintro (uuid | timestamp)
  · exact word_symbol uuid rfl (by decide) colon
  · exact word_symbol timestamp rfl (by decide) colon

theorem type_shape {text : List Char} (type : TypeText text) :
    text ≠ [] ∧ Tight text ∧ ':' ∉ text ∧ '\'' ∉ text := by
  induction type with
  | identifier name =>
    have tokens := fun c mem => identifier_token (name.2 c mem)
    exact ⟨name.1, token_tight tokens, fun mem => (tokens _ mem).2 (by simp),
      fun mem => (tokens _ mem).2 (by simp)⟩
  | @words text known =>
    refine ⟨?_, spelling_tight known (by decide), word_symbol known rfl (by decide),
      word_symbol known rfl (by decide)⟩
    rintro rfl
    exact absurd known (by decide)
  | modified type modifiers numbers ih =>
    obtain ⟨nonempty, tight, colon, quote⟩ := ih
    have closed : Tight ('(' :: modifiers ++ [')']) := by
      constructor
      · intro c first
        cases first
        rfl
      · intro c last
        rw [List.getLast?_concat] at last
        cases last
        rfl
    have absent : ∀ c, c.isDigit = false → c ≠ ',' → c ∉ modifiers := by
      intro c digit comma mem
      rcases numbers c mem with here | here
      · simp [digit] at here
      · exact comma here
    refine ⟨by simp, ?_, ?_, ?_⟩
    · rw [List.append_assoc]
      exact tight_append nonempty (by simp) tight closed
    · simp [colon, absent ':' rfl (by decide)]
    · simp [quote, absent '\'' rfl (by decide)]
  | array type ih =>
    obtain ⟨nonempty, tight, colon, quote⟩ := ih
    exact ⟨by simp, tight_append nonempty (by simp) tight (by decide), by simpa using colon,
      by simpa using quote⟩

/-! Scans of atoms -/

theorem scan_tokens {s : CastScan} {text : List Char} (outside : s.inQuote = false)
    (pending : s.pendingColon = none) (plain : ∀ c ∈ text, c ∉ ['(', ')', '\'', ':']) (i : Nat) :
    scanCasts s i text = s := by
  induction text generalizing i with
  | nil => rfl
  | cons c text ih =>
    obtain ⟨mark, later⟩ := List.forall_mem_cons.mp plain
    obtain ⟨inQuote, depth, pendingColon, last⟩ := s
    obtain rfl : inQuote = false := outside
    obtain rfl : pendingColon = none := pending
    have same : CastScan.next ⟨false, depth, none, last⟩ i c = ⟨false, depth, none, last⟩ := by
      simp only [CastScan.next, Bool.false_eq_true, if_false]
      split
      · simp at mark
      · simp at mark
      · simp at mark
      · simp at mark
      · rfl
    rw [scanCasts, same]
    exact ih later (i + 1)

theorem scan_doubled {depth : Nat} {last : Option Nat} (body : List Char) (i : Nat) :
    scanCasts ⟨true, depth, none, last⟩ i (doubled '\'' body) = ⟨true, depth, none, last⟩ := by
  induction body generalizing i with
  | nil => rfl
  | cons c body ih =>
    simp only [doubled] at ih
    by_cases mark : c = '\''
    · simp [doubled, mark, scanCasts, CastScan.next, ih]
    · simp [doubled, mark, scanCasts, CastScan.next, ih]

theorem scan_literal {s : CastScan} (outside : s.inQuote = false) (pending : s.pendingColon = none)
    (body : List Char) (i : Nat) : scanCasts s i (quote '\'' body) = s := by
  obtain ⟨inQuote, depth, pendingColon, last⟩ := s
  obtain rfl : inQuote = false := outside
  obtain rfl : pendingColon = none := pending
  have opened : scanCasts ⟨false, depth, none, last⟩ i ('\'' :: doubled '\'' body) =
      ⟨true, depth, none, last⟩ := scan_doubled body (i + 1)
  rw [quote_doubled, scan_append, opened]
  rfl

def Calm (s : CastScan) : Prop := s.inQuote = false ∧ s.depth = 0 ∧ s.pendingColon = none

theorem scan_cast {s : CastScan} (calm : Calm s) (i : Nat) :
    scanCasts s i [':', ':'] = { s with last := some i } := by
  obtain ⟨inQuote, depth, pendingColon, last⟩ := s
  obtain ⟨rfl, rfl, rfl⟩ := calm
  rfl

theorem scan_chain {s : CastScan} (calm : Calm s) {types : List (List Char)}
    (tokens : ∀ type ∈ types, ∀ c ∈ type, TokenChar c) (i : Nat) :
    Calm (scanCasts s i (castChain types)) := by
  induction types generalizing s i with
  | nil => exact calm
  | cons type types ih =>
    obtain ⟨here, later⟩ := List.forall_mem_cons.mp tokens
    have chain : castChain (type :: types) = [':', ':'] ++ (type ++ castChain types) := rfl
    have plain : ∀ c ∈ type, c ∉ ['(', ')', '\'', ':'] := fun c mem => token_unmarked (here c mem)
    rw [chain, scan_append, scan_cast calm, scan_append]
    rw [scan_tokens (by exact calm.1) (by exact calm.2.2) plain]
    exact ih (by exact calm) later _

/-- Two scans in step. The first keeps the cast it had until the second finds one. -/
structure Alike (last : Option Nat) (s t : CastScan) : Prop where
  inQuote : s.inQuote = t.inQuote
  depth : s.depth = t.depth
  pending : s.pendingColon.isSome = t.pendingColon.isSome
  last : t.last = none → s.last = last

theorem Alike.next {last : Option Nat} {s t : CastScan} (alike : Alike last s t) (i j : Nat)
    (c : Char) : Alike last (s.next i c) (t.next j c) := by
  obtain ⟨inQuote, depth, pending, had⟩ := s
  obtain ⟨inQuote', depth', pending', had'⟩ := t
  obtain ⟨rfl, rfl, same, kept⟩ := alike
  cases inQuote with
  | true => exact ⟨rfl, rfl, rfl, kept⟩
  | false =>
    simp only [CastScan.next, Bool.false_eq_true, if_false]
    split
    · exact ⟨rfl, rfl, rfl, kept⟩
    · exact ⟨rfl, rfl, rfl, kept⟩
    · exact ⟨rfl, rfl, rfl, kept⟩
    · cases pending with
      | none =>
        obtain rfl : pending' = none := by simpa using same.symm
        exact ⟨rfl, rfl, rfl, kept⟩
      | some start =>
        obtain ⟨start', rfl⟩ := Option.isSome_iff_exists.mp same.symm
        by_cases level : depth = 0
        · exact ⟨rfl, rfl, rfl, fun none => by simp [level] at none⟩
        · exact ⟨rfl, rfl, rfl, by simpa only [if_neg level] using kept⟩
    · exact ⟨rfl, rfl, rfl, kept⟩

theorem Alike.scan {last : Option Nat} {s t : CastScan} (alike : Alike last s t) (i j : Nat)
    (text : List Char) : Alike last (scanCasts s i text) (scanCasts t j text) := by
  induction text generalizing s t i j with
  | nil => exact alike
  | cons c text ih => exact ih (alike.next i j c) (i + 1) (j + 1)

theorem no_cast_iff {text : List Char} :
    NoCast text ↔ (scanCasts ⟨false, 0, none, none⟩ 0 text).last = none := by
  obtain ⟨rest, since, free, -⟩ := (scanned text).since
  constructor
  · intro none_outside
    cases found : (scanCasts ⟨false, 0, none, none⟩ 0 text).last with
    | none => rfl
    | some i =>
      rw [found] at since
      obtain ⟨before, same, -, outside⟩ := since
      exact absurd outside (none_outside before rest same)
  · intro none_found
    rw [none_found] at since
    exact (show text = rest from since) ▸ free

theorem unmarked_free {text : List Char} (colon : ':' ∉ text) : NoCast text := by
  rintro before rest rfl
  simp at colon

theorem unmarked_closed {text : List Char} (quote : '\'' ∉ text) :
    (text.foldl place (false, 0)).1 = false := by
  induction text using List.reverseRecOn with
  | nil => rfl
  | append_singleton text c ih =>
    rw [List.mem_append, List.mem_singleton, not_or] at quote
    have closed := ih quote.1
    rw [List.foldl_append, List.foldl_cons, List.foldl_nil]
    generalize text.foldl place (false, 0) = here at closed ⊢
    obtain ⟨inQuote, depth⟩ := here
    obtain rfl : inQuote = false := closed
    rw [place, if_neg (Ne.symm quote.2)]
    split
    · rfl
    · split <;> rfl

theorem find_cast {before rest : List Char} (calm : Calm (scanCasts ⟨false, 0, none, none⟩ 0 before))
    (closed : (rest.foldl place (false, 0)).1 = false) (free : NoCast rest) :
    findLastTopLevelCast (before ++ ':' :: ':' :: rest) = some before.length := by
  have start : Alike (some before.length)
      { scanCasts ⟨false, 0, none, none⟩ 0 before with last := some before.length }
      ⟨false, 0, none, none⟩ := ⟨calm.1, calm.2.1, congrArg Option.isSome calm.2.2, fun _ => rfl⟩
  have alike : Alike (some before.length)
      (scanCasts ⟨false, 0, none, none⟩ 0 (before ++ ([':', ':'] ++ rest)))
      (scanCasts ⟨false, 0, none, none⟩ 0 rest) := by
    rw [scan_append, scan_append, scan_cast calm, Nat.zero_add]
    exact start.scan _ _ rest
  have outside : (scanCasts ⟨false, 0, none, none⟩ 0 rest).inQuote = false :=
    (congrArg Prod.fst (scanned rest).place).symm.trans closed
  change (if (scanCasts ⟨false, 0, none, none⟩ 0 (before ++ ([':', ':'] ++ rest))).inQuote then none
    else (scanCasts ⟨false, 0, none, none⟩ 0 (before ++ ([':', ':'] ++ rest))).last) = _
  rw [alike.inQuote, outside, alike.last (no_cast_iff.mp free)]
  rfl

/-- What an operand is to a scan, and to a trimmed text. -/
structure Operand (text : List Char) : Prop where
  nonempty : text ≠ []
  tight : Tight text
  still : ∀ s i, s.inQuote = false → s.pendingColon = none → scanCasts s i text = s

theorem literal_operand {text : List Char} (literal : CompleteLiteral text) : Operand text := by
  obtain ⟨body, rfl⟩ := literal
  refine ⟨List.cons_ne_nil _ _, ?_, fun s i outside pending => scan_literal outside pending body i⟩
  exact trim_eq_self_iff.mp (trim_quote rfl body)

theorem named_operand {text : List Char} (named : NamedText text) : Operand text := by
  have tokens := named_token named
  exact ⟨named_nonempty named, token_tight tokens, fun s i outside pending =>
    scan_tokens outside pending (fun c mem => token_unmarked (tokens c mem)) i⟩

section Chain
variable {operand : List Char} (named : NamedText operand) {types : List (List Char)}
  (names : ∀ name ∈ types, IdentifierText name)
include named names

theorem chain_token : BareToken (operand ++ castChain types) := by
  refine ⟨by simp [named_nonempty named], fun c mem => ?_⟩
  have token : TokenChar c ∨ c = ':' := by
    rcases List.mem_append.mp mem with mem | mem
    · exact .inl (named_token named c mem)
    · obtain ⟨name, here, mem⟩ := List.mem_flatMap.mp mem
      rcases List.mem_cons.mp mem with rfl | mem
      · exact .inr rfl
      · rcases List.mem_cons.mp mem with rfl | mem
        · exact .inr rfl
        · exact .inl (identifier_token ((names name here).2 c mem))
  rcases token with ⟨visible, marks⟩ | rfl
  · refine ⟨visible, fun mark => marks ?_⟩
    simp only [List.mem_cons, List.not_mem_nil, or_false] at mark ⊢
    tauto
  · exact ⟨rfl, by simp⟩

theorem chain_tight : Tight (operand ++ castChain types) :=
  ⟨fun c first => ((chain_token named names).2 c (List.mem_of_mem_head? first)).1,
    fun c last => ((chain_token named names).2 c (List.mem_of_mem_getLast? last)).1⟩

theorem chain_calm : Calm (scanCasts ⟨false, 0, none, none⟩ 0 (operand ++ castChain types)) := by
  rw [scan_append, (named_operand named).still _ 0 rfl rfl]
  exact scan_chain ⟨rfl, rfl, rfl⟩ (fun name mem c here =>
    identifier_token ((names name mem).2 c here)) _

end Chain

namespace CastAtom
variable (a : CastAtom)

def front : List Char := a.operand ++ castChain a.inner

theorem front_atom : CompleteLiteral a.front ∨ BareToken a.front := by
  rcases a.atom with ⟨literal, single⟩ | ⟨named, names⟩
  · rw [front, single, castChain, List.flatMap_nil, List.append_nil]
    exact .inl literal
  · exact .inr (chain_token named names)

theorem front_operand : a.front ≠ [] ∧ Tight a.front ∧
    Calm (scanCasts ⟨false, 0, none, none⟩ 0 a.front) := by
  rcases a.atom with ⟨literal, single⟩ | ⟨named, names⟩
  · have operand := literal_operand literal
    rw [front, single, castChain, List.flatMap_nil, List.append_nil, operand.still _ 0 rfl rfl]
    exact ⟨operand.nonempty, operand.tight, rfl, rfl, rfl⟩
  · exact ⟨(chain_token named names).1, chain_tight named names, chain_calm named names⟩

theorem blank_token {c : Char} (blank : isWhitespace c = true) : c ∉ ['(', ')', '\'', ':'] := by
  intro mark
  simp only [List.mem_cons, List.not_mem_nil, or_false] at mark
  rcases mark with rfl | rfl | rfl | rfl <;> cases blank

theorem calm : Calm (scanCasts ⟨false, 0, none, none⟩ 0 (a.front ++ a.before)) := by
  have calm := a.front_operand.2.2
  rw [scan_append, scan_tokens calm.1 calm.2.2 fun c mem =>
    blank_token (a.blanks c (List.mem_append_left _ mem))]
  exact calm

theorem trim_front : trim (a.front ++ a.before) = a.front :=
  @trim_between [] a.front a.before (fun _ mem => absurd mem List.not_mem_nil)
    (fun c mem => a.blanks c (List.mem_append_left _ mem)) a.front_operand.2.1

theorem trim_type : trim (a.after ++ a.type) = a.type := by
  have trimmed := trim_between (fun c mem => a.blanks c (List.mem_append_right _ mem))
    (fun _ mem => absurd mem List.not_mem_nil) (type_shape a.typed).2.1
  rwa [List.append_nil] at trimmed

theorem rest_unmarked : ':' ∉ a.after ++ a.type ∧ '\'' ∉ a.after ++ a.type := by
  obtain ⟨-, -, colon, quote⟩ := type_shape a.typed
  have blanks := fun c mem => blank_token (a.blanks c (List.mem_append_right _ mem))
  simp only [List.mem_append, not_or]
  exact ⟨⟨fun mem => blanks _ mem (by simp), colon⟩, fun mem => blanks _ mem (by simp), quote⟩

theorem text_eq : a.text = a.front ++ a.before ++ ':' :: ':' :: (a.after ++ a.type) := rfl

theorem not_portable : ¬ PortableSpelling a.text := colon_not_portable (by simp [text])

theorem taken {fill : String} (trimmed : trim fill.toList = a.text)
    (keyword : containsCompositeKeyword a.text = false) : isSimpleLiteralFill fill.toList = true := by
  obtain ⟨uuid, timestamp⟩ := not_or.mp a.not_portable
  have found : findLastTopLevelCast a.text = some (a.front ++ a.before).length :=
    find_cast a.calm (unmarked_closed a.rest_unmarked.2) (unmarked_free a.rest_unmarked.1)
  have cut : a.text.take (a.front ++ a.before).length = a.front ++ a.before := by
    rw [text_eq, List.take_left]
  simp only [isSimpleLiteralFill, trimmed, uuid, timestamp, keyword, found, cut, trim_front,
    Bool.or_self, Bool.false_eq_true, if_false]
  exact (single_atom_iff _).mpr a.front_atom

end CastAtom

section Conversion
variable (lowercase : List Char → List Char)

theorem portable_trim {text : List Char} (portable : PortableSpelling text) :
    PortableSpelling (trim text) := by
  rwa [trim_eq_self_iff.mpr (portable_tight portable)]

variable {lowercase} in
theorem convert_plain {text : String} (portable : ¬ PortableSpelling (trim text.toList))
    (backend : DatabaseBackend) : convertDefaultForBackend lowercase text backend =
      match parsePgTypeCast lowercase text.toList with
      | some (value, castType) => convertCastChain lowercase value castType backend
      | none => text := by
  obtain ⟨uuid, timestamp⟩ := not_or.mp (mt portable_trim portable)
  unfold convertDefaultForBackend
  exact (if_neg uuid).trans (if_neg timestamp)

/-- Without a cast on a literal or a token, or with a keyword of a larger expression, nothing
    but the spelling of a call is changed. -/
theorem fill_unchanged {fill : String} (backend : DatabaseBackend)
    (portable : ¬ PortableSpelling (trim fill.toList))
    (plain : ¬ CastOnToken (trim fill.toList) ∨ containsCompositeKeyword (trim fill.toList) = true) :
    convertFillWithForBackend lowercase fill backend = fill := by
  obtain ⟨uuid, timestamp⟩ := not_or.mp portable
  unfold convertFillWithForBackend
  split
  · rfl
  · rename_i taken
    have accepted : isSimpleLiteralFill fill.toList = true := by simpa using (not_or.mp taken).2
    simp only [isSimpleLiteralFill, uuid, timestamp, Bool.or_self, Bool.false_eq_true, if_false]
      at accepted
    split at accepted
    · cases accepted
    · rename_i keyword
      have casts := plain.resolve_right keyword
      rw [convert_plain portable, parsePgTypeCast]
      cases found : findLastTopLevelCast (trim fill.toList) with
      | none => rfl
      | some split =>
        obtain ⟨before, rest, same, length, outside, free⟩ := last_cast_outside found
        have front : (trim fill.toList).take split = before := by
          rw [same, ← length, List.take_left]
        rw [found] at accepted
        simp only [front, single_atom_iff] at accepted
        exact absurd ⟨before, rest, same, outside, free, accepted⟩ casts

/-! Rendered casts -/

/-- What the casts of a text come to: one call around another, or nothing where casts are dropped. -/
def castsRendered (operand : String) (types : List String) : DatabaseBackend → String
  | .mySql => types.foldl (fun inner type =>
      "CAST(" ++ inner ++ " AS " ++ pgTypeToMysqlCast type ++ ")") operand
  | .sqlite => operand
  | .postgres => types.foldl (fun inner type => inner ++ "::" ++ type) operand

theorem rendered_snoc (operand : String) (types : List String) (type : String)
    (backend : DatabaseBackend) : castsRendered operand (types ++ [type]) backend =
      convertTypeCast (castsRendered operand types backend) type backend := by
  cases backend <;> simp [castsRendered, convertTypeCast, List.foldl_append]

section Chains
variable {lowercase : List Char → List Char} (kept : ∀ t, t ≠ [] → lowercase t ≠ [])
include kept

theorem parse_cast {expr before rest value type : List Char}
    (shape : trim expr = before ++ ':' :: ':' :: rest)
    (calm : Calm (scanCasts ⟨false, 0, none, none⟩ 0 before))
    (closed : (rest.foldl place (false, 0)).1 = false) (free : NoCast rest)
    (value_eq : trim before = value) (type_eq : trim rest = type) (nonempty : value ≠ [])
    (typed : type ≠ []) :
    parsePgTypeCast lowercase expr = some (value, lowercase type) := by
  have cut : (before ++ ':' :: ':' :: rest).drop (before.length + 2) = rest := by
    rw [← List.drop_drop, List.drop_left]
    rfl
  simp only [parsePgTypeCast, shape, find_cast calm closed free, Option.bind_some, List.take_left,
    cut, value_eq, type_eq]
  rw [if_neg (not_or.mpr ⟨nonempty, kept type typed⟩)]

omit kept in
theorem parse_operand {text : List Char} (operand : Operand text) :
    parsePgTypeCast lowercase text = none := by
  have still : scanCasts ⟨false, 0, none, none⟩ 0 text = ⟨false, 0, none, none⟩ :=
    operand.still _ 0 rfl rfl
  simp [parsePgTypeCast, trim_eq_self_iff.mpr operand.tight, findLastTopLevelCast, still]

omit kept in
theorem convert_chain_none {value type : List Char} (plain : parsePgTypeCast lowercase value = none)
    (backend : DatabaseBackend) : convertCastChain lowercase value type backend =
      convertTypeCast (String.ofList value) (String.ofList type) backend := by
  rw [convertCastChain]
  split
  · rename_i parsed
    rw [plain] at parsed
    cases parsed
  · rfl

omit kept in
theorem convert_chain_some {value type inner innerType : List Char}
    (parsed : parsePgTypeCast lowercase value = some (inner, innerType))
    (backend : DatabaseBackend) : convertCastChain lowercase value type backend =
      convertTypeCast (convertCastChain lowercase inner innerType backend) (String.ofList type)
        backend := by
  rw [convertCastChain]
  split
  · rename_i here
    obtain ⟨rfl, rfl⟩ := Prod.mk.inj (Option.some.inj (parsed.symm.trans here))
    rfl
  · rename_i plain
    rw [parsed] at plain
    cases plain

theorem chain_rendered {operand : List Char} (named : NamedText operand) {inner : List (List Char)}
    (types : ∀ name ∈ inner, IdentifierText name) (type : List Char) (backend : DatabaseBackend) :
    convertCastChain lowercase (operand ++ castChain inner) type backend =
      castsRendered (String.ofList operand)
        ((inner.map lowercase ++ [type]).map String.ofList) backend := by
  rw [List.map_append, List.map_singleton, rendered_snoc]
  induction inner using List.reverseRecOn generalizing type with
  | nil =>
    have plain : parsePgTypeCast lowercase operand = none := parse_operand (named_operand named)
    rw [castChain, List.flatMap_nil, List.append_nil, convert_chain_none plain]
    cases backend <;> rfl
  | append_singleton inner name ih =>
    have earlier : ∀ other ∈ inner, IdentifierText other := fun other mem =>
      types other (List.mem_append_left _ mem)
    have ident := types name (by simp)
    have parsed : parsePgTypeCast lowercase (operand ++ castChain (inner ++ [name])) =
        some (operand ++ castChain inner, lowercase name) := by
      have shape : operand ++ castChain (inner ++ [name]) =
          operand ++ castChain inner ++ ':' :: ':' :: name := by simp [castChain]
      have tokens := fun c mem => identifier_token (ident.2 c mem)
      refine parse_cast kept (by rw [trim_eq_self_iff.mpr (chain_tight named types), shape])
        (chain_calm named earlier) (unmarked_closed fun mem => (tokens _ mem).2 (by simp))
        (unmarked_free fun mem => (tokens _ mem).2 (by simp))
        (trim_eq_self_iff.mpr (chain_tight named earlier)) (trim_eq_self_iff.mpr (token_tight tokens))
        (chain_token named earlier).1 ident.1
    rw [convert_chain_some parsed, ih earlier, List.map_append, List.map_append, List.map_singleton,
      List.map_singleton, rendered_snoc]

end Chains

theorem cast_atom_rendered (kept : ∀ t, t ≠ [] → lowercase t ≠ []) {fill : String} (a : CastAtom)
    (trimmed : trim fill.toList = a.text) (keyword : containsCompositeKeyword a.text = false)
    {backend : DatabaseBackend} (other : backend ≠ .postgres) :
    convertFillWithForBackend lowercase fill backend =
      castsRendered (String.ofList a.operand)
        ((a.types.map lowercase).map String.ofList) backend := by
  have parsed : parsePgTypeCast lowercase fill.toList = some (a.front, lowercase a.type) :=
    parse_cast kept (trimmed.trans a.text_eq) a.calm (unmarked_closed a.rest_unmarked.2)
      (unmarked_free a.rest_unmarked.1) a.trim_front a.trim_type a.front_operand.1
      (type_shape a.typed).1
  have plain : ¬ PortableSpelling (trim fill.toList) := trimmed ▸ a.not_portable
  rw [convertFillWithForBackend, if_neg (by simp [other, a.taken trimmed keyword]),
    convert_plain plain, parsed, CastAtom.types, List.map_append, List.map_singleton]
  simp only
  rcases a.atom with ⟨literal, single⟩ | ⟨named, names⟩
  · have plain : parsePgTypeCast lowercase a.operand = none := parse_operand (literal_operand literal)
    rw [CastAtom.front, single, castChain, List.flatMap_nil, List.append_nil,
      convert_chain_none plain]
    cases backend <;> rfl
  · exact chain_rendered kept named names (lowercase a.type) backend

end Conversion

/-- PostgreSQL is sent every text as it stands. Elsewhere a text stays as it is unless it is a
    portable call or its last cast follows a literal or a bare token, and an atom with casts keeps
    what is cast. -/
theorem fill_value_kept (lowercase : List Char → List Char)
    (kept : ∀ t, t ≠ [] → lowercase t ≠ []) (fill : String) :
    convertFillWithForBackend lowercase fill .postgres = fill ∧
    (∀ backend, ¬ PortableSpelling (trim fill.toList) →
      ¬ CastOnToken (trim fill.toList) ∨ containsCompositeKeyword (trim fill.toList) = true →
      convertFillWithForBackend lowercase fill backend = fill) ∧
    ∀ (a : CastAtom) (backend : DatabaseBackend), trim fill.toList = a.text →
      containsCompositeKeyword a.text = false → backend ≠ .postgres →
      convertFillWithForBackend lowercase fill backend =
        castsRendered (String.ofList a.operand) ((a.types.map lowercase).map String.ofList) backend :=
  ⟨if_pos (.inl rfl), fun backend => fill_unchanged lowercase backend, fun a _ trimmed keyword other =>
    cast_atom_rendered lowercase kept a trimmed keyword other⟩

/-! A name with two casts, and a call with one -/

def legacyId : CastAtom where
  operand := "legacy_id".toList
  inner := ["text".toList]
  before := []
  after := [' ']
  type := "json".toList
  atom := .inr ⟨.inl ⟨by decide, List.all_eq_true.mp (by decide)⟩,
    by simp [IdentifierText, identifierChar]⟩
  blanks := List.all_eq_true.mp (by decide)
  typed := .identifier ⟨by decide, List.all_eq_true.mp (by decide)⟩

theorem legacy_id_rendered :
    convertFillWithForBackend (List.map Char.toLower) "legacy_id::text:: json" .mySql =
      "CAST(CAST(legacy_id AS CHAR) AS JSON)" ∧
    convertFillWithForBackend (List.map Char.toLower) "CASE WHEN a::int = 1 THEN b END" .sqlite =
      "CASE WHEN a::int = 1 THEN b END" := by
  have nonempty : ∀ t : List Char, t ≠ [] → t.map Char.toLower ≠ [] := fun t => by simp
  obtain ⟨-, -, rendered⟩ :=
    fill_value_kept (List.map Char.toLower) nonempty "legacy_id::text:: json"
  obtain ⟨-, unchanged, -⟩ :=
    fill_value_kept (List.map Char.toLower) nonempty "CASE WHEN a::int = 1 THEN b END"
  refine ⟨(rendered legacyId .mySql (by decide) (by decide) (by decide)).trans (by decide),
    unchanged .sqlite ?_ (.inr (by decide))⟩
  unfold PortableSpelling
  decide

theorem call_cast_kept :
    convertFillWithForBackend (List.map Char.toLower) "json_build_array('a')::json" .mySql =
      "json_build_array('a')::json" ∧
    convertFillWithForBackend (List.map Char.toLower) "json_build_array('a')::json" .mySql ≠
      "CAST(json_build_array('a') AS JSON)" := by
  decide

end Vespertide
