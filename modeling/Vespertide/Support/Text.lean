import Mathlib.Data.String.Basic

/-!
Texts as lists of characters: trimming, splitting at a separator, the comparison
that ignores the case of ASCII letters, and names between delimiters.
-/
namespace Text

/-- The characters of the Unicode property `White_Space`. -/
def isWhitespace (c : Char) : Bool :=
  let n := c.toNat
  (0x9 ≤ n ∧ n ≤ 0xD) ∨ n = 0x20 ∨ n = 0x85 ∨ n = 0xA0 ∨ n = 0x1680 ∨
    (0x2000 ≤ n ∧ n ≤ 0x200A) ∨ n = 0x2028 ∨ n = 0x2029 ∨ n = 0x202F ∨ n = 0x205F ∨ n = 0x3000

def trim (s : List Char) : List Char :=
  ((s.dropWhile isWhitespace).reverse.dropWhile isWhitespace).reverse

/-- The text before and after the first `sep`. -/
def splitOnce (sep : Char) (s : List Char) : Option (List Char × List Char) :=
  match s with
  | [] => none
  | c :: rest =>
      if c = sep then some ([], rest)
      else (splitOnce sep rest).map fun (head, tail) => (c :: head, tail)

def eqIgnoreAsciiCase (a b : List Char) : Bool := a.map Char.toUpper = b.map Char.toUpper

/-- One word spells one entry where no two differ in case only. -/
theorem spelled_once {α : Type} {entries : List α} {spelling : α → String}
    (apart : ∀ a ∈ entries, ∀ b ∈ entries,
      (spelling a).toList.map Char.toUpper = (spelling b).toList.map Char.toUpper → a = b)
    {word : List Char} {a b : α} (left : a ∈ entries) (right : b ∈ entries)
    (first : eqIgnoreAsciiCase word (spelling a).toList = true)
    (second : eqIgnoreAsciiCase word (spelling b).toList = true) : a = b := by
  simp only [eqIgnoreAsciiCase, decide_eq_true_eq] at first second
  exact apart a left b right (first.symm.trans second)

def contains (s part : List Char) : Bool := s.tails.any (part.isPrefixOf ·)

def after : List Char → List Char → Option (List Char)
  | [], s => some s
  | _ :: _, [] => none
  | p :: opening, c :: s => if p = c then after opening s else none

theorem after_append (opening s : List Char) : after opening (opening ++ s) = some s := by
  induction opening with
  | nil => rfl
  | cons p opening ih => simpa [after] using ih

/-- A delimiter inside the name is doubled. -/
def quote (delim : Char) (s : List Char) : List Char :=
  delim :: s.flatMap (fun c => if c = delim then [delim, delim] else [c]) ++ [delim]

/-- The name that ends at the first delimiter that is not doubled, the opening one read. -/
def unquote (delim : Char) : List Char → List Char
  | [] => []
  | [c] => if c = delim then [] else [c]
  | c :: d :: rest =>
      if c ≠ delim then c :: unquote delim (d :: rest)
      else if d = delim then delim :: unquote delim rest else []

theorem unquote_cons {delim c : Char} (other : c ≠ delim) (rest : List Char) :
    unquote delim (c :: rest) = c :: unquote delim rest := by
  cases rest with
  | nil => simp [unquote, other]
  | cons d rest => simp [unquote, other]

theorem unquote_quote {delim : Char} (s : List Char) {after : List Char}
    (apart : after.head? ≠ some delim) :
    unquote delim ((quote delim s).tail ++ after) = s := by
  simp only [quote, List.cons_append, List.tail_cons, List.append_assoc, List.nil_append]
  induction s with
  | nil =>
    cases after with
    | nil => simp [unquote]
    | cons d rest =>
      have other : d ≠ delim := by simpa using apart
      simp [unquote, other]
  | cons c s ih =>
    by_cases same : c = delim
    · subst same
      simp only [List.flatMap_cons, ↓reduceIte, List.cons_append, List.nil_append, unquote,
        ne_eq, not_true_eq_false]
      rw [ih]
    · simp only [List.flatMap_cons, same, ↓reduceIte, List.cons_append, List.nil_append]
      rw [unquote_cons same, ih]

end Text
