import Vespertide.Support.Text
import Mathlib.Data.List.DropRight

/-!
Literals between delimiters. Doubling the delimiters of a text leaves its two
ends as they are, so a trimmed text stays trimmed, and changes nothing exactly
where the text has no delimiter.
-/
namespace Text

def doubled (delim : Char) (s : List Char) : List Char :=
  s.flatMap fun c => if c = delim then [delim, delim] else [c]

theorem quote_doubled (delim : Char) (s : List Char) :
    quote delim s = delim :: doubled delim s ++ [delim] := rfl

theorem doubled_split (delim : Char) (s : List Char) :
    [delim, delim].intercalate (s.splitOn delim) = doubled delim s := by
  induction s with
  | nil => rfl
  | cons c s ih =>
    obtain ⟨piece, pieces, split⟩ := List.exists_cons_of_ne_nil (List.splitOn_ne_nil delim s)
    simp only [doubled] at ih
    rw [List.splitOn_cons_eq_if_modifyHead]
    by_cases same : c = delim
    · subst same
      simp [doubled, split, ← ih, List.intercalate_cons_cons]
    · cases pieces with
      | nil => simp [doubled, split, ← ih, same]
      | cons next pieces => simp [doubled, split, ← ih, same, List.intercalate_cons_cons]

theorem doubled_length (delim : Char) (s : List Char) :
    (doubled delim s).length = s.length + s.count delim := by
  induction s with
  | nil => rfl
  | cons c s ih =>
    simp only [doubled] at ih
    by_cases same : c = delim
    · simp [doubled, same, ih]
      omega
    · simp [doubled, same, ih]
      omega

theorem doubled_eq_self_iff {delim : Char} {s : List Char} :
    doubled delim s = s ↔ delim ∉ s := by
  constructor
  · intro same
    have length := doubled_length delim s
    rw [same] at length
    exact List.count_eq_zero.mp (by omega)
  · intro absent
    induction s with
    | nil => rfl
    | cons c s ih =>
      obtain ⟨other, rest⟩ := not_or.mp (mt List.mem_cons.mpr absent)
      simp only [doubled] at ih
      simp [doubled, Ne.symm other, ih rest]

theorem doubled_head (delim : Char) (s : List Char) : (doubled delim s).head? = s.head? := by
  cases s with
  | nil => rfl
  | cons c s => by_cases same : c = delim <;> simp [doubled, same]

theorem doubled_last (delim : Char) (s : List Char) :
    (doubled delim s).getLast? = s.getLast? := by
  rcases List.eq_nil_or_concat s with rfl | ⟨front, c, rfl⟩
  · rfl
  · by_cases same : c = delim <;> simp [doubled, same]

/-! Trimmed texts -/

def Tight (s : List Char) : Prop :=
  (∀ c ∈ s.head?, isWhitespace c = false) ∧ ∀ c ∈ s.getLast?, isWhitespace c = false

theorem trim_tight (s : List Char) : Tight (trim s) := by
  constructor
  · intro c first
    obtain ⟨rest, front⟩ : trim s <+: s.dropWhile isWhitespace :=
      List.rdropWhile_prefix isWhitespace (s.dropWhile isWhitespace)
    have kept := List.head?_dropWhile_not isWhitespace s
    rw [← front, List.head?_append, Option.mem_def.mp first] at kept
    exact kept
  · intro c last
    have nonempty : trim s ≠ [] := by
      rintro empty
      simp [empty] at last
    have kept := List.rdropWhile_last_not isWhitespace (s.dropWhile isWhitespace) nonempty
    rw [List.getLast?_eq_some_getLast nonempty, Option.mem_some_iff] at last
    rw [← last]
    exact Bool.eq_false_iff.mpr kept

theorem trim_eq_self_iff {s : List Char} : trim s = s ↔ Tight s := by
  constructor
  · intro same
    exact same ▸ trim_tight s
  · rintro ⟨front, back⟩
    have kept : s.dropWhile isWhitespace = s := by
      cases s with
      | nil => rfl
      | cons c s => simp [front c rfl]
    change (s.dropWhile isWhitespace).rdropWhile isWhitespace = s
    rw [kept, List.rdropWhile_eq_self_iff]
    intro nonempty
    simp [back _ (List.getLast?_eq_some_getLast nonempty)]

theorem trim_trim (s : List Char) : trim (trim s) = trim s := trim_eq_self_iff.mpr (trim_tight s)

theorem mem_of_mem_trim {s : List Char} {c : Char} (mem : c ∈ trim s) : c ∈ s :=
  (List.dropWhile_sublist isWhitespace).mem
    ((List.rdropWhile_prefix isWhitespace (s.dropWhile isWhitespace)).mem mem)

theorem trim_head {s : List Char} {c : Char} (first : s.head? = some c)
    (visible : isWhitespace c = false) : (trim s).head? = some c := by
  obtain ⟨s, rfl⟩ := List.head?_eq_some_iff.mp first
  have front : (c :: s).dropWhile isWhitespace = c :: s := by simp [visible]
  obtain ⟨rest, split⟩ : trim (c :: s) <+: (c :: s).dropWhile isWhitespace :=
    List.rdropWhile_prefix isWhitespace ((c :: s).dropWhile isWhitespace)
  rw [front] at split
  cases kept : trim (c :: s) with
  | nil =>
    have blank : ((c :: s).dropWhile isWhitespace).rdropWhile isWhitespace = [] := kept
    rw [front, List.rdropWhile_eq_nil_iff] at blank
    simp [blank c List.mem_cons_self] at visible
  | cons d rest' =>
    rw [kept] at split
    simp [(List.cons.inj split).1]

theorem trim_between {front s back : List Char} (first : ∀ c ∈ front, isWhitespace c = true)
    (last : ∀ c ∈ back, isWhitespace c = true) (tight : Tight s) :
    trim (front ++ s ++ back) = s := by
  have kept : (s ++ back).dropWhile isWhitespace = if s = [] then [] else s ++ back := by
    cases s with
    | nil => simpa using last
    | cons c s => simp [tight.1 c rfl]
  change ((front ++ s ++ back).dropWhile isWhitespace).rdropWhile isWhitespace = s
  rw [List.append_assoc, List.dropWhile_append_of_pos first, kept]
  rcases List.eq_nil_or_concat s with rfl | ⟨init, c, rfl⟩
  · rfl
  · rw [if_neg (by simp)]
    have visible : isWhitespace c = false := tight.2 c (by simp)
    clear kept
    induction back using List.reverseRecOn with
    | nil => simp [visible]
    | append_singleton back d ih =>
      have blank : isWhitespace d = true := last d (by simp)
      rw [← List.append_assoc, List.rdropWhile_concat_pos _ _ _ blank]
      exact ih fun e mem => last e (by simp [mem])

theorem trimmed_split (text : List Char) : text = text.takeWhile isWhitespace ++
    (trim text ++ ((text.dropWhile isWhitespace).reverse.takeWhile isWhitespace).reverse) := by
  have inner : text.dropWhile isWhitespace = trim text ++
      ((text.dropWhile isWhitespace).reverse.takeWhile isWhitespace).reverse := by
    rw [trim, ← List.reverse_append, List.takeWhile_append_dropWhile, List.reverse_reverse]
  rw [← inner, List.takeWhile_append_dropWhile]

theorem trim_append {front s : List Char} (present : front ≠ []) (tight : Tight front)
    (visible : trim s ≠ []) :
    trim (front ++ s) = front ++ s.takeWhile isWhitespace ++ trim s := by
  have blank : ∀ c ∈ ((s.dropWhile isWhitespace).reverse.takeWhile isWhitespace).reverse,
      isWhitespace c = true := fun c mem => List.mem_takeWhile_imp (List.mem_reverse.mp mem)
  have kept : Tight (front ++ s.takeWhile isWhitespace ++ trim s) := by
    refine ⟨fun c first => tight.1 c ?_, fun c last => (trim_tight s).2 c ?_⟩
    · rwa [List.append_assoc, List.head?_append_of_ne_nil _ present] at first
    · rwa [List.getLast?_append_of_ne_nil _ visible] at last
  have trimmed := @trim_between [] _ _ (fun _ mem => absurd mem List.not_mem_nil) blank kept
  rw [List.nil_append] at trimmed
  nth_rewrite 1 [trimmed_split s]
  rw [← trimmed]
  simp only [List.append_assoc]

theorem trim_doubled (delim : Char) (s : List Char) :
    trim (doubled delim (trim s)) = doubled delim (trim s) := by
  rw [trim_eq_self_iff, Tight, doubled_head, doubled_last]
  exact trim_tight s

theorem trim_quote {delim : Char} (visible : isWhitespace delim = false) (s : List Char) :
    trim (quote delim s) = quote delim s := by
  rw [trim_eq_self_iff]
  refine ⟨by simp [quote, visible], ?_⟩
  rw [quote_doubled, List.getLast?_concat]
  simpa using visible

/-! Reading quoted texts -/

/-- What the text between two delimiters stands for, unless a delimiter in it has no partner. -/
def halve (delim : Char) : List Char → Option (List Char)
  | [] => some []
  | [c] => if c = delim then none else some [c]
  | c :: d :: rest =>
      if c ≠ delim then (halve delim (d :: rest)).map (c :: ·)
      else if d = delim then (halve delim rest).map (delim :: ·)
      else none

theorem halve_cons {delim c : Char} (other : c ≠ delim) (rest : List Char) :
    halve delim (c :: rest) = (halve delim rest).map (c :: ·) := by
  cases rest with
  | nil => simp [halve, other]
  | cons d rest => simp [halve, other]

theorem halve_doubled (delim : Char) (s : List Char) : halve delim (doubled delim s) = some s := by
  induction s with
  | nil => rfl
  | cons c s ih =>
    simp only [doubled] at ih
    by_cases same : c = delim
    · subst same
      simp [doubled, halve, ih]
    · simp only [doubled, List.flatMap_cons, same, ↓reduceIte, List.cons_append,
        List.nil_append]
      rw [halve_cons same, ih, Option.map_some]

/-- Where a reader of a list stands: before a literal, within one, after a delimiter
    that closes it unless another one follows, before the next comma. -/
inductive ListPlace where
  | opening
  | inside
  | closing
  | between
  deriving DecidableEq, Repr

/-- Literals with commas between them; white space around a literal is skipped, and
    anything else is refused. -/
def splitLiterals (delim comma : Char) : ListPlace → List Char → List Char →
    Option (List (List Char))
  | .opening, _, [] => none
  | .inside, _, [] => none
  | .closing, read, [] => some [read]
  | .between, _, [] => some []
  | .opening, _, c :: s =>
      if c = delim then splitLiterals delim comma .inside [] s
      else if isWhitespace c then splitLiterals delim comma .opening [] s
      else none
  | .inside, read, c :: s =>
      if c = delim then splitLiterals delim comma .closing read s
      else splitLiterals delim comma .inside (read ++ [c]) s
  | .closing, read, c :: s =>
      if c = delim then splitLiterals delim comma .inside (read ++ [delim]) s
      else if c = comma then (splitLiterals delim comma .opening [] s).map (read :: ·)
      else if isWhitespace c then (splitLiterals delim comma .between [] s).map (read :: ·)
      else none
  | .between, _, c :: s =>
      if c = comma then splitLiterals delim comma .opening [] s
      else if isWhitespace c then splitLiterals delim comma .between [] s
      else none

theorem split_doubled_inside (delim comma : Char) (read s rest : List Char) :
    splitLiterals delim comma .inside read (doubled delim s ++ delim :: rest) =
      splitLiterals delim comma .closing (read ++ s) rest := by
  induction s generalizing read with
  | nil => simp [doubled, splitLiterals]
  | cons c s ih =>
    simp only [doubled] at ih
    by_cases same : c = delim
    · subst same
      simp [doubled, splitLiterals, ih]
    · simp [doubled, splitLiterals, same, ih]

section Lists
variable {delim comma : Char}

theorem split_quote (s rest : List Char) :
    splitLiterals delim comma .opening [] (quote delim s ++ rest) =
      splitLiterals delim comma .closing s rest := by
  have opened : quote delim s ++ rest = delim :: (doubled delim s ++ delim :: rest) := by
    simp [quote_doubled]
  rw [opened, splitLiterals, if_pos rfl, split_doubled_inside, List.nil_append]

theorem split_blanks {blanks : List Char} (visible : isWhitespace delim = false)
    (blank : ∀ c ∈ blanks, isWhitespace c = true) (s : List Char) :
    splitLiterals delim comma .opening [] (blanks ++ s) =
      splitLiterals delim comma .opening [] s := by
  induction blanks with
  | nil => rfl
  | cons c blanks ih =>
    have here := blank c List.mem_cons_self
    have other : c ≠ delim := by
      rintro rfl
      rw [here] at visible
      cases visible
    rw [List.cons_append, splitLiterals, if_neg other, if_pos here]
    exact ih fun d mem => blank d (List.mem_cons_of_mem c mem)

/-- Quoted texts with a comma and white space between them are read back as they are. -/
theorem split_joined (apart : comma ≠ delim) (visible : isWhitespace delim = false)
    {blanks : List Char} (blank : ∀ c ∈ blanks, isWhitespace c = true) (text : List Char)
    (texts : List (List Char)) :
    splitLiterals delim comma .opening []
      ((comma :: blanks).intercalate ((text :: texts).map (quote delim))) = some (text :: texts) := by
  induction texts generalizing text with
  | nil =>
    have closed := @split_quote delim comma text []
    rw [List.append_nil] at closed
    rw [List.map_singleton, List.intercalate_singleton, closed]
    rfl
  | cons next texts ih =>
    rw [List.map_cons, List.map_cons, List.intercalate_cons_cons, List.append_assoc, split_quote,
      List.cons_append, splitLiterals, if_neg apart, if_pos rfl, split_blanks visible blank]
    have later := ih next
    rw [List.map_cons] at later
    rw [later, Option.map_some]

end Lists

end Text
