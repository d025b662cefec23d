import Mathlib
import Vespertide.SeaOrmRelations

/-!
The variants of an exported enum. A label is re-cased, prefixed and folded into
an identifier; where every label is in capitals the variants are spelled in words,
and the derive macro spells the label again from them.
-/
namespace Vespertide

/-! Labels to variants -/

def isScreamingSnakeValue (value : String) : Bool :=
  value.toList.all (fun ch => !ch.isLower && (ch.isUpper || ch.isDigit || ch == '_')) &&
    value.toList.any Char.isUpper

def usesScreamingSnakeVariants (values : List String) : Bool :=
  !values.isEmpty && values.all isScreamingSnakeValue

def capitalised : List Char → List Char
  | [] => []
  | first :: rest => first.toUpper :: rest.map Char.toLower

def screamingSnakeToPascalCase (value : String) : String :=
  let pascal := ((value.toList.splitOn '_').filter (· ≠ [])).flatMap capitalised
  if pascal = [] then "Value" else String.ofList pascal

def finalizeEnumVariantName (pascal : String) : String :=
  if pascal = "" then "Value"
  else if pascal.toList.head?.any Char.isDigit then sanitizeTypeName ("N" ++ pascal)
  else sanitizeTypeName pascal

def enumStringVariantName (s : String) (useScreamingSnakeVariants : Bool) : String :=
  finalizeEnumVariantName
    (if useScreamingSnakeVariants then screamingSnakeToPascalCase s else toPascalCase s)

def enumVariants (labels : List String) : List String :=
  labels.map fun label => enumStringVariantName label (usesScreamingSnakeVariants labels)

def spelled (c : Char) : List Char := if c.isUpper then ['_', c] else [c.toUpper]

/-- The renaming of the derive macro. -/
def serdeScreamingSnake (variant : String) : String :=
  match variant.toList with
  | [] => ""
  | first :: rest => String.ofList (first.toUpper :: rest.flatMap spelled)

/-! When labels survive -/

/-- A capital stands wherever one is due: after every underscore. -/
def Lettered : Bool → List Char → Bool
  | due, [] => !due
  | true, c :: cs => c.isUpper && Lettered false cs
  | false, c :: cs => Lettered (c == '_') cs

/-- The label is a row of words that start with a capital, one underscore between two. -/
def LetteredWords (label : String) : Prop := Lettered true label.toList

instance (label : String) : Decidable (LetteredWords label) :=
  inferInstanceAs (Decidable (_ = true))

def folded (text : String) : List Char :=
  text.toList.map fun ch => if ch.isAlphanum then ch else '_'

def escaped : List Char → Option (List Char)
  | [] => some "Value".toList
  | c :: cs =>
      if c.isDigit then some ('N' :: c :: cs)
      else if c.isAlpha then none
      else some ('X' :: c :: cs)

/-- The labels fold into one text, or one folds into what is written for the other. -/
def FoldTogether (a b : String) : Prop :=
  let first := folded (toPascalCase a)
  let second := folded (toPascalCase b)
  first = second ∨ escaped first = some second ∨ escaped second = some first

instance (a b : String) : Decidable (FoldTogether a b) :=
  inferInstanceAs (Decidable (_ ∨ _ ∨ _))

/-! The text of a variant -/

/-- The words written in one pass: the next letter is the first of its word, or not. -/
def walk : Bool → List Char → List Char
  | _, [] => []
  | start, c :: cs =>
      if c = '_' then walk true cs
      else (if start then c.toUpper else c.toLower) :: walk false cs

theorem split_walk (cs : List Char) : ∃ piece pieces, cs.splitOn '_' = piece :: pieces ∧
    walk false cs = piece.map Char.toLower ++ (pieces.filter (· ≠ [])).flatMap capitalised ∧
    walk true cs = ((piece :: pieces).filter (· ≠ [])).flatMap capitalised := by
  induction cs with
  | nil => exact ⟨[], [], rfl, rfl, rfl⟩
  | cons c cs ih =>
    obtain ⟨piece, pieces, split, inside, start⟩ := ih
    rw [List.splitOn_cons_eq_if_modifyHead, split]
    by_cases mark : c = '_'
    · subst mark
      exact ⟨[], piece :: pieces, rfl, start, start⟩
    · refine ⟨c :: piece, pieces, by simp [mark], ?_, ?_⟩
      · simp [walk, mark, inside]
      · simp [walk, mark, inside, capitalised]

theorem screaming_chars (value : String) : screamingSnakeToPascalCase value =
    if walk true value.toList = [] then "Value" else String.ofList (walk true value.toList) := by
  obtain ⟨piece, pieces, split, -, start⟩ := split_walk value.toList
  rw [screamingSnakeToPascalCase, split, start]

/-- A text whose first letter is none that could be raised. -/
def Raised (text : String) : Prop := ∀ c ∈ text.toList.head?, c.toUpper = c

theorem sanitize_chars (text : String) : (sanitizeIdentifier text .letter).toList =
    if (folded text).head?.any Char.isAlpha then folded text
    else (if ((folded text).find? Char.isAlpha).any Char.isUpper then 'X' else 'x') ::
      folded text := by
  rw [sanitizeIdentifier, String.toList_ofList]
  by_cases alpha : (folded text).head?.any Char.isAlpha
  · rw [if_pos alpha]
    exact if_neg (by simpa only [folded, not_not, decide_eq_true_eq] using alpha)
  · rw [if_neg alpha]
    exact if_pos (by simpa only [folded, decide_eq_true_eq] using alpha)

theorem folded_head {text : String} {c : Char} {cs : List Char} (raised : Raised text)
    (chars : folded text = c :: cs) : c.toUpper = c := by
  have head := congrArg List.head? chars
  rw [folded, List.head?_map, List.head?_cons, Option.map_eq_some_iff] at head
  obtain ⟨first, head, rfl⟩ := head
  split
  · exact raised first head
  · rfl

theorem folded_digit {text : String} {c : Char} {cs : List Char} (chars : folded text = c :: cs) :
    text.toList.head?.any Char.isDigit = c.isDigit := by
  obtain ⟨first, rest, text_chars, same, -⟩ := List.map_eq_cons_iff.mp chars
  rw [text_chars, List.head?_cons, Option.any_some, ← same]
  split
  · rfl
  · rename_i other
    simp_all [Char.isAlphanum]

theorem sanitize_type_chars {text : String} {c : Char} {cs : List Char} (raised : Raised text)
    (chars : folded text = c :: cs) :
    (sanitizeTypeName text).toList = if c.isAlpha then c :: cs else 'X' :: c :: cs := by
  have sanitized := sanitize_chars text
  rw [chars, List.head?_cons, Option.any_some] at sanitized
  unfold sanitizeTypeName
  rw [sanitized]
  by_cases alpha : c.isAlpha
  · simp only [if_pos alpha, String.toList_ofList, folded_head raised chars]
  · simp only [if_neg alpha, String.toList_ofList]
    split <;> rfl

theorem finalize_chars {pascal : String} (raised : Raised pascal) :
    (finalizeEnumVariantName pascal).toList =
      (escaped (folded pascal)).getD (folded pascal) := by
  cases chars : folded pascal with
  | nil =>
    have empty : pascal = "" := by simpa [folded] using chars
    simp [finalizeEnumVariantName, empty, escaped]
  | cons c cs =>
    have nonempty : pascal ≠ "" := by rintro rfl; cases chars
    have digit := folded_digit chars
    rw [finalizeEnumVariantName, if_neg nonempty, digit, escaped]
    by_cases number : c.isDigit
    · rw [if_pos number, if_pos number, Option.getD_some]
      have chars : folded ("N" ++ pascal) = 'N' :: c :: cs := by
        simp [folded, ← chars]
      rw [sanitize_type_chars (by simp [Raised]) chars]
      rfl
    · rw [if_neg number, if_neg number, sanitize_type_chars raised chars]
      split <;> rfl

theorem pascal_raised (cs : List Char) : ∀ c ∈ (toPascalCase.pascal true cs).head?,
    c.toUpper = c := by
  induction cs with
  | nil => simp [toPascalCase.pascal]
  | cons d cs ih =>
    rw [toPascalCase.pascal]
    split
    · exact ih
    · simp

theorem walk_raised (cs : List Char) : ∀ c ∈ (walk true cs).head?, c.toUpper = c := by
  induction cs with
  | nil => simp [walk]
  | cons d cs ih =>
    rw [walk]
    split
    · exact ih
    · simp

theorem to_pascal_raised (label : String) : Raised (toPascalCase label) := by
  rw [Raised, toPascalCase, String.toList_ofList]
  exact pascal_raised _

theorem screaming_raised (label : String) : Raised (screamingSnakeToPascalCase label) := by
  rw [Raised, screaming_chars]
  split
  · simp
  · rw [String.toList_ofList]
    exact walk_raised _

/-! Labels in other letters -/

theorem escaped_once {text other : List Char} (here : escaped text = some other) :
    escaped other = none := by
  unfold escaped at here
  split at here
  · cases here
    rfl
  · split at here
    · cases here
      rfl
    · split at here <;> cases here
      rfl

theorem escaped_injective {first second other : List Char} (here : escaped first = some other)
    (there : escaped second = some other) : first = second := by
  unfold escaped at here there
  split at here <;> split at there <;> grind

theorem escaped_eq_iff (first second : List Char) :
    (escaped first).getD first = (escaped second).getD second ↔
      first = second ∨ escaped first = some second ∨ escaped second = some first := by
  cases here : escaped first with
  | none =>
    cases there : escaped second with
    | none => simp
    | some other =>
      have apart : first ≠ second := fun same => by simp [same, there] at here
      simp [apart, eq_comm]
  | some text =>
    have once := escaped_once here
    cases there : escaped second with
    | none =>
      have apart : first ≠ second := fun same => by simp [same, there] at here
      simp [apart]
    | some other =>
      have kept : text = other ↔ first = second :=
        ⟨fun same => escaped_injective here (same ▸ there), fun same => by simp_all⟩
      have first_apart : text ≠ second := fun same => by simp [← same, once] at there
      have second_apart : other ≠ first := fun same => by
        simp [← same, escaped_once there] at here
      simp [kept, first_apart, second_apart]

theorem plain_variants_iff (a b : String) :
    enumStringVariantName a false = enumStringVariantName b false ↔ FoldTogether a b := by
  rw [← String.toList_inj, enumStringVariantName, enumStringVariantName, if_neg Bool.false_ne_true,
    if_neg Bool.false_ne_true, finalize_chars (to_pascal_raised a),
    finalize_chars (to_pascal_raised b)]
  exact escaped_eq_iff _ _

/-! Labels in capitals -/

def Capitals (cs : List Char) : Prop := ∀ c ∈ cs, c.isUpper ∨ c.isDigit ∨ c = '_'

theorem screaming_capitals {value : String} (screaming : isScreamingSnakeValue value = true) :
    Capitals value.toList := by
  intro c mem
  have allowed := List.all_eq_true.mp (Bool.and_eq_true_iff.mp screaming).1 c mem
  simp only [Bool.and_eq_true, Bool.or_eq_true, beq_iff_eq] at allowed
  exact or_assoc.mp allowed.2

theorem digit_fixed {c : Char} (digit : c.isDigit) : c.toLower = c ∧ c.toUpper = c := by
  refine ⟨Char.toLower_eq_of_not_isUpper fun upper => ?_,
    Char.toUpper_eq_of_not_isLower fun lower => ?_⟩
  · simp [Char.isDigit, Char.isUpper, UInt32.le_iff_toNat_le] at digit upper
    omega
  · simp [Char.isDigit, Char.isLower, UInt32.le_iff_toNat_le] at digit lower
    omega

theorem capital_raised {c : Char} (capital : c.isUpper ∨ c.isDigit ∨ c = '_') : c.toUpper = c := by
  rcases capital with upper | digit | rfl
  · exact Char.toUpper_eq_of_not_isLower (mt Char.not_isUpper_of_isLower (not_not.mpr upper))
  · exact (digit_fixed digit).2
  · rfl

theorem alnum_recased {c : Char} (letter : c.isAlphanum) :
    c.toLower.isAlphanum ∧ c.toUpper.isAlphanum := by
  rcases Bool.or_eq_true_iff.mp letter with alpha | digit
  · simp [Char.isAlphanum, alpha]
  · rw [(digit_fixed digit).1, (digit_fixed digit).2]
    exact ⟨letter, letter⟩

theorem walk_spelled {cs : List Char} (due : Bool) (capitals : Capitals cs)
    (lettered : Lettered due cs) :
    (walk due cs).flatMap spelled = (if due then ['_'] else []) ++ cs := by
  induction cs generalizing due with
  | nil =>
    cases due with
    | true => cases lettered
    | false => rfl
  | cons c cs ih =>
    obtain ⟨capital, later⟩ := List.forall_mem_cons.mp capitals
    have raised := capital_raised capital
    cases due with
    | true =>
      obtain ⟨upper, lettered⟩ := Bool.and_eq_true_iff.mp lettered
      have word : c ≠ '_' := by rintro rfl; cases upper
      simp [walk, word, raised, spelled, upper, ih false later lettered]
    | false =>
      rw [Lettered] at lettered
      by_cases mark : c = '_'
      · subst mark
        rw [walk, if_pos rfl, ih true later lettered]
        rfl
      · rw [beq_eq_false_iff_ne.mpr mark] at lettered
        simp [walk, mark, raised, spelled, ih false later lettered]

theorem spelled_lettered {cs : List Char} (alnum : ∀ c ∈ cs, c.isAlphanum) :
    Lettered false (cs.flatMap spelled) := by
  induction cs with
  | nil => rfl
  | cons c cs ih =>
    obtain ⟨letter, alnum⟩ := List.forall_mem_cons.mp alnum
    have later := ih alnum
    rw [List.flatMap_cons, spelled]
    split
    · rename_i upper
      simp [Lettered, upper, later]
    · have word : c.toUpper ≠ '_' := by
        intro mark
        have kept := (alnum_recased letter).2
        rw [mark] at kept
        cases kept
      rw [List.singleton_append, Lettered, beq_eq_false_iff_ne.mpr word]
      exact later

theorem walk_alnum {cs : List Char} (start : Bool) (capitals : Capitals cs) :
    ∀ c ∈ walk start cs, c.isAlphanum := by
  induction cs generalizing start with
  | nil => simp [walk]
  | cons c cs ih =>
    obtain ⟨capital, later⟩ := List.forall_mem_cons.mp capitals
    rw [walk]
    split
    · exact ih true later
    · rename_i word
      refine List.forall_mem_cons.mpr ⟨?_, ih false later⟩
      have letter : c.isAlphanum := by
        rcases capital with upper | digit | mark
        · simp [Char.isAlphanum, Char.isAlpha, upper]
        · simp [Char.isAlphanum, digit]
        · exact absurd mark word
      split
      · exact (alnum_recased letter).2
      · exact (alnum_recased letter).1

theorem folded_alnum {text : String} (alnum : ∀ c ∈ text.toList, c.isAlphanum) :
    folded text = text.toList := by
  refine (List.map_congr_left fun c mem => ?_).trans (List.map_id _)
  rw [if_pos (alnum c mem)]
  rfl

theorem escaped_letters {text : List Char} (alnum : ∀ c ∈ text, c.isAlphanum)
    (raised : ∀ c ∈ text.head?, c.toUpper = c) : ∃ first rest,
    (escaped text).getD text = first :: rest ∧ first.isUpper ∧ ∀ c ∈ rest, c.isAlphanum := by
  cases text with
  | nil => exact ⟨'V', "alue".toList, rfl, rfl, List.all_eq_true.mp rfl⟩
  | cons c cs =>
    obtain ⟨letter, later⟩ := List.forall_mem_cons.mp alnum
    rw [escaped]
    by_cases digit : c.isDigit
    · exact ⟨'N', c :: cs, by rw [if_pos digit, Option.getD_some], rfl, alnum⟩
    · have alpha : c.isAlpha := (Bool.or_eq_true_iff.mp letter).resolve_right digit
      refine ⟨c, cs, by rw [if_neg digit, if_pos alpha, Option.getD_none], ?_, later⟩
      have upper := Char.isUpper_toUpper_eq_isAlpha c
      rwa [raised c rfl, alpha] at upper

theorem screaming_alnum {label : String} (screaming : isScreamingSnakeValue label = true) :
    ∀ c ∈ (screamingSnakeToPascalCase label).toList, c.isAlphanum := by
  rw [screaming_chars]
  split
  · exact List.all_eq_true.mp rfl
  · rw [String.toList_ofList]
    exact walk_alnum true (screaming_capitals screaming)

theorem screaming_variant {label : String} (screaming : isScreamingSnakeValue label = true) :
    (enumStringVariantName label true).toList =
      (escaped (screamingSnakeToPascalCase label).toList).getD
        (screamingSnakeToPascalCase label).toList := by
  rw [enumStringVariantName, if_pos rfl, finalize_chars (screaming_raised label),
    folded_alnum (screaming_alnum screaming)]

/-- The derive macro spells the label again just where it is a row of words. -/
theorem screaming_spelled_iff {label : String} (screaming : isScreamingSnakeValue label = true) :
    serdeScreamingSnake (enumStringVariantName label true) = label ↔ LetteredWords label := by
  have variant := screaming_variant screaming
  constructor
  · intro same
    obtain ⟨first, rest, chars, upper, alnum⟩ :=
      escaped_letters (screaming_alnum screaming) (screaming_raised label)
    rw [LetteredWords, ← same, serdeScreamingSnake, variant, chars]
    simp only [String.toList_ofList]
    rw [capital_raised (.inl upper), Lettered, upper, Bool.true_and]
    exact spelled_lettered alnum
  · intro words
    have capitals := screaming_capitals screaming
    rw [LetteredWords] at words
    cases chars : label.toList with
    | nil => rw [chars] at words; cases words
    | cons c cs =>
      rw [chars] at words capitals
      obtain ⟨upper, lettered⟩ := Bool.and_eq_true_iff.mp words
      have word : c ≠ '_' := by rintro rfl; cases upper
      have letter : c.isAlpha := by simp [Char.isAlpha, upper]
      have digit : ¬ c.isDigit := by
        intro digit
        simp [Char.isDigit, Char.isUpper, UInt32.le_iff_toNat_le] at digit upper
        omega
      have pascal : (screamingSnakeToPascalCase label).toList = c :: walk false cs := by
        rw [screaming_chars, chars, walk, if_neg word, if_pos rfl, capital_raised (.inl upper)]
        simp
      have text : (enumStringVariantName label true).toList = c :: walk false cs := by
        rw [variant, pascal, escaped, if_neg digit, if_pos letter, Option.getD_none]
      have spelling := walk_spelled false (List.forall_mem_cons.mp capitals).2 lettered
      rw [serdeScreamingSnake, text]
      simp only
      rw [capital_raised (.inl upper), spelling, ← String.toList_inj, String.toList_ofList, chars]
      rfl

/-- The variants of an enum. In capitals they are apart and spell their labels again just where
    every label is a row of words, otherwise they are apart just where no two labels fold
    together. -/
theorem variants_kept_iff {labels : List String} (distinct : labels.Nodup) :
    ((enumVariants labels).Nodup ∧ (usesScreamingSnakeVariants labels = true →
      ∀ label ∈ labels, serdeScreamingSnake (enumStringVariantName label true) = label)) ↔
    if usesScreamingSnakeVariants labels = true then ∀ label ∈ labels, LetteredWords label
    else labels.Pairwise fun a b => ¬ FoldTogether a b := by
  unfold enumVariants
  by_cases capitals : usesScreamingSnakeVariants labels = true
  · have screaming := List.all_eq_true.mp (Bool.and_eq_true_iff.mp capitals).2
    rw [if_pos capitals, capitals]
    constructor
    · rintro ⟨-, again⟩ label mem
      exact (screaming_spelled_iff (screaming label mem)).mp (again rfl label mem)
    · intro words
      have again : ∀ label ∈ labels,
          serdeScreamingSnake (enumStringVariantName label true) = label := fun label mem =>
        (screaming_spelled_iff (screaming label mem)).mpr (words label mem)
      refine ⟨distinct.map_on fun a a_mem b b_mem same => ?_, fun _ => again⟩
      rw [← again a a_mem, ← again b b_mem, same]
  · rw [if_neg capitals, Bool.eq_false_iff.mpr capitals]
    constructor
    · rintro ⟨apart, -⟩
      exact (List.pairwise_map.mp apart).imp fun apart together =>
        apart ((plain_variants_iff _ _).mpr together)
    · intro apart
      refine ⟨List.pairwise_map.mpr (apart.imp fun apart same => ?_), fun uses => by cases uses⟩
      exact apart ((plain_variants_iff _ _).mp same)

theorem order_states : (enumVariants ["PENDING", "IN_TRANSIT"]).Nodup ∧
    ∀ label ∈ ["PENDING", "IN_TRANSIT"],
      serdeScreamingSnake (enumStringVariantName label true) = label := by
  have distinct : ["PENDING", "IN_TRANSIT"].Nodup := by decide
  have kept := (variants_kept_iff distinct).mpr (by decide)
  exact ⟨kept.1, kept.2 (by decide)⟩

theorem labels_lost : ["a-b", "a_b"].Nodup ∧ ¬ (enumVariants ["a-b", "a_b"]).Nodup ∧
    usesScreamingSnakeVariants ["HTTP_404"] = true ∧
    serdeScreamingSnake (enumStringVariantName "HTTP_404" true) = "HTTP404" := by
  decide

end Vespertide
