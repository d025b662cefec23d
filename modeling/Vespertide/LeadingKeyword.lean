import Mathlib
import Vespertide.PlanValidation

/-!
The first token of a data migration. White space and comments ahead of a statement
are skipped however many there are, and a keyword counts only as the whole word the
statement starts with.
-/
namespace Vespertide
open Text

/-- A piece of what may stand ahead of a statement; a comment holds no end of its own. -/
inductive Trivia where
  | blank (c : Char) (space : isWhitespace c = true)
  | line (content : List Char) (open_end : '\n' ∉ content)
  | block (content : List Char) (open_end : ¬ ['*', '/'] <:+: content)

def Trivia.text : Trivia → List Char
  | .blank c _ => [c]
  | .line content _ => '-' :: '-' :: content ++ ['\n']
  | .block content _ => '/' :: '*' :: content ++ ['*', '/']

structure StatementStart (body : List Char) : Prop where
  solid : ∀ c, body.head? = some c → isWhitespace c = false
  no_line : ¬ ['-', '-'] <+: body
  no_block : ¬ ['/', '*'] <+: body

def wordChar (c : Char) : Bool := c.isAlphanum || c = '_'

def leadingWord (body : List Char) : List Char := body.takeWhile wordChar

/-! Marks -/

theorem after_some_iff {opening s tail : List Char} :
    after opening s = some tail ↔ s = opening ++ tail := by
  constructor
  · intro found
    induction opening generalizing s with
    | nil => exact Option.some.inj found
    | cons p opening ih =>
      cases s with
      | nil => simp [after] at found
      | cons c s =>
        simp only [after] at found
        split at found
        · rename_i same
          rw [same, ih found, List.cons_append]
        · cases found
  · rintro rfl
    exact after_append opening tail

theorem after_none_iff {opening s : List Char} : after opening s = none ↔ ¬ opening <+: s := by
  rw [Option.eq_none_iff_forall_ne_some]
  constructor
  · rintro missing ⟨tail, rfl⟩
    exact missing tail (after_append opening tail)
  · intro apart tail found
    exact apart ⟨tail, (after_some_iff.mp found).symm⟩

/-- The first mark is found where the text ahead of it holds none, also across its end. -/
theorem drop_through_first {mark content : List Char} {c : Char} (s : List Char)
    (first : ∀ front d rest, content = front ++ d :: rest →
      ¬ (c :: mark) <+: d :: rest ++ (c :: mark ++ s)) :
    dropThrough (c :: mark) (content ++ (c :: mark ++ s)) = s := by
  induction content with
  | nil =>
    have here := after_append (c :: mark) s
    rw [List.cons_append] at here
    rw [List.nil_append, List.cons_append, dropThrough, here]
  | cons d content ih =>
    have none_here : after (c :: mark) (d :: (content ++ (c :: mark ++ s))) = none :=
      after_none_iff.mpr (first [] d content rfl)
    rw [List.cons_append, dropThrough, none_here]
    exact ih fun front e rest split => first (d :: front) e rest (by rw [split, List.cons_append])

theorem drop_line {content : List Char} (open_end : '\n' ∉ content) (s : List Char) :
    dropThrough ['\n'] (content ++ ('\n' :: s)) = s := by
  refine drop_through_first s fun front d rest split here => ?_
  obtain ⟨more, same⟩ := here
  obtain rfl : '\n' = d := (List.cons.inj same).1
  exact open_end (split ▸ by simp)

theorem drop_block {content : List Char} (open_end : ¬ ['*', '/'] <:+: content) (s : List Char) :
    dropThrough ['*', '/'] (content ++ ('*' :: '/' :: s)) = s := by
  refine drop_through_first s fun front d rest split here => ?_
  obtain ⟨more, same⟩ := here
  obtain ⟨rfl, tail⟩ := List.cons.inj same
  cases rest with
  | nil => cases (List.cons.inj tail).1
  | cons e rest =>
    obtain rfl : '/' = e := (List.cons.inj tail).1
    exact open_end ⟨front, rest, by rw [split]; simp⟩

/-! Skipping -/

theorem strip_blank {c : Char} (space : isWhitespace c = true) (s : List Char) :
    stripLeadingTrivia (c :: s) = stripLeadingTrivia s := by
  rw [stripLeadingTrivia, stripLeadingTrivia, List.dropWhile_cons_of_pos space]

theorem strip_line {content : List Char} (open_end : '\n' ∉ content) (s : List Char) :
    stripLeadingTrivia ('-' :: '-' :: content ++ '\n' :: s) = stripLeadingTrivia s := by
  rw [stripLeadingTrivia]
  have opened : after ['-', '-'] (('-' :: '-' :: content ++ '\n' :: s).dropWhile isWhitespace) =
      some (content ++ '\n' :: s) := rfl
  split
  · rename_i tail found
    obtain rfl := Option.some.inj (opened.symm.trans found)
    rw [drop_line open_end]
  · rename_i missing
    cases opened.symm.trans missing

theorem strip_block {content : List Char} (open_end : ¬ ['*', '/'] <:+: content) (s : List Char) :
    stripLeadingTrivia ('/' :: '*' :: content ++ '*' :: '/' :: s) = stripLeadingTrivia s := by
  rw [stripLeadingTrivia]
  have no_line : after ['-', '-'] (('/' :: '*' :: content ++ '*' :: '/' :: s).dropWhile
      isWhitespace) = none := rfl
  have opened : after ['/', '*'] (('/' :: '*' :: content ++ '*' :: '/' :: s).dropWhile
      isWhitespace) = some (content ++ '*' :: '/' :: s) := rfl
  split
  · rename_i tail found
    cases no_line.symm.trans found
  · split
    · rename_i tail found
      obtain rfl := Option.some.inj (opened.symm.trans found)
      rw [drop_block open_end]
    · rename_i missing
      cases opened.symm.trans missing

theorem strip_body {body : List Char} (start : StatementStart body) :
    stripLeadingTrivia body = body := by
  have kept : body.dropWhile isWhitespace = body := by
    cases body with
    | nil => rfl
    | cons c body => exact List.dropWhile_cons_of_neg (by simp [start.solid c rfl])
  rw [stripLeadingTrivia]
  split
  · rename_i tail found
    rw [kept] at found
    exact absurd ⟨tail, (after_some_iff.mp found).symm⟩ start.no_line
  · split
    · rename_i tail found
      rw [kept] at found
      exact absurd ⟨tail, (after_some_iff.mp found).symm⟩ start.no_block
    · exact kept

theorem strip_trivia (trivia : List Trivia) {body : List Char} (start : StatementStart body) :
    stripLeadingTrivia (trivia.flatMap Trivia.text ++ body) = body := by
  induction trivia with
  | nil => exact strip_body start
  | cons piece trivia ih =>
    rw [List.flatMap_cons, List.append_assoc]
    cases piece with
    | blank c space => exact (strip_blank space _).trans ih
    | line content open_end =>
      have skipped := strip_line open_end (trivia.flatMap Trivia.text ++ body)
      simpa [Trivia.text, ih] using skipped
    | block content open_end =>
      have skipped := strip_block open_end (trivia.flatMap Trivia.text ++ body)
      simpa [Trivia.text, ih] using skipped

/-! The word in front -/

theorem eq_case_cons (c d : Char) (s other : List Char) :
    eqIgnoreAsciiCase (c :: s) (d :: other) =
      (decide (c.toUpper = d.toUpper) && eqIgnoreAsciiCase s other) := by
  rw [Bool.eq_iff_iff]
  simp [eqIgnoreAsciiCase]

theorem letter_of_case {c d : Char} (same : c.toUpper = d.toUpper) (letter : d.isAlpha = true) :
    wordChar c = true := by
  have alpha : c.isAlpha = true := by
    rw [← Char.isUpper_toUpper_eq_isAlpha, same, Char.isUpper_toUpper_eq_isAlpha, letter]
  simp [wordChar, Char.isAlphanum, alpha]

/-- A text opens with a keyword of letters as a whole token where its first word is that one. -/
theorem whole_word_iff {keyword : List Char} (letters : ∀ c ∈ keyword, c.isAlpha = true)
    (body : List Char) :
    (eqIgnoreAsciiCase (body.take keyword.length) keyword &&
      (match body[keyword.length]? with
        | none => true
        | some next => !(next.isAlphanum || next = '_'))) =
      eqIgnoreAsciiCase (leadingWord body) keyword := by
  induction keyword generalizing body with
  | nil =>
    cases body with
    | nil => rfl
    | cons c body =>
      rw [leadingWord, List.takeWhile_cons]
      cases word : wordChar c
      · simpa [eqIgnoreAsciiCase, wordChar] using word
      · simpa [eqIgnoreAsciiCase, wordChar, or_iff_not_imp_left] using word
  | cons d keyword ih =>
    cases body with
    | nil => rfl
    | cons c body =>
      simp only [List.length_cons, List.take_succ_cons, List.getElem?_cons_succ, eq_case_cons,
        Bool.and_assoc, ih fun e mem => letters e (List.mem_cons_of_mem _ mem)]
      by_cases same : c.toUpper = d.toUpper
      · have word := letter_of_case same (letters d List.mem_cons_self)
        simp only [leadingWord, List.takeWhile_cons_of_pos word, eq_case_cons]
      · rw [decide_eq_false same, Bool.false_and, leadingWord, List.takeWhile_cons]
        split
        · rw [eq_case_cons, decide_eq_false same, Bool.false_and]
        · rfl

theorem starts_with_keyword (body : List Char) {keyword : String} (mem : keyword ∈ ddlKeywords) :
    startsWithKeyword body keyword = eqIgnoreAsciiCase (leadingWord body) keyword.toList := by
  have letters : ∀ keyword ∈ ddlKeywords, keyword.toList.all (·.isAlpha) = true := by decide
  exact whole_word_iff (List.all_eq_true.mp (letters keyword mem)) body

theorem keyword_unique {word : List Char} {first second : String} (mem : first ∈ ddlKeywords)
    (other : second ∈ ddlKeywords) (same : eqIgnoreAsciiCase word first.toList = true)
    (again : eqIgnoreAsciiCase word second.toList = true) : first = second :=
  @spelled_once _ ddlKeywords id (by decide) _ _ _ mem other same again

/-- The guard sees the first word behind any white space and comments, whole and in
    any case of its letters. -/
theorem leading_keyword_iff (trivia : List Trivia) {body : List Char}
    (start : StatementStart body) :
    let sql := String.ofList (trivia.flatMap Trivia.text ++ body)
    (∀ keyword, leadingDdlKeyword sql = some keyword ↔
      keyword ∈ ddlKeywords ∧ eqIgnoreAsciiCase (leadingWord body) keyword.toList = true) ∧
    (leadingDdlKeyword sql = none ↔
      ∀ keyword ∈ ddlKeywords, eqIgnoreAsciiCase (leadingWord body) keyword.toList = false) := by
  intro sql
  have reduced : leadingDdlKeyword sql = ddlKeywords.find? (startsWithKeyword body) := by
    rw [leadingDdlKeyword, String.toList_ofList, strip_trivia trivia start]
  rw [reduced]
  refine ⟨fun keyword => ⟨fun found => ?_, fun ⟨mem, same⟩ => ?_⟩, ?_⟩
  · have mem := List.mem_of_find?_eq_some found
    exact ⟨mem, (starts_with_keyword body mem).symm.trans (List.find?_some found)⟩
  · have matched : (ddlKeywords.find? (startsWithKeyword body)).isSome :=
      List.find?_isSome.mpr ⟨keyword, mem, (starts_with_keyword body mem).trans same⟩
    obtain ⟨first, found⟩ := Option.isSome_iff_exists.mp matched
    have listed := List.mem_of_find?_eq_some found
    have hit := (starts_with_keyword body listed).symm.trans (List.find?_some found)
    rw [found, keyword_unique listed mem hit same]
  · rw [List.find?_eq_none]
    constructor
    · intro missed keyword mem
      rw [← starts_with_keyword body mem]
      exact Bool.eq_false_iff.mpr (missed keyword mem)
    · intro apart keyword mem
      rw [starts_with_keyword body mem, apart keyword mem]
      exact Bool.false_ne_true

/-- `/* - */ -- /` and a line end ahead of `drop TABLE t`. -/
theorem hidden_drop_seen :
    leadingDdlKeyword (String.ofList ([Trivia.block [' ', '-', ' '] (by decide),
      .blank ' ' (by decide), .line [' ', '/'] (by decide)].flatMap Trivia.text ++
      "drop TABLE t".toList)) = some "DROP" := by
  have start : StatementStart "drop TABLE t".toList :=
    ⟨fun c first => by cases first; decide, by decide, by decide⟩
  exact ((leading_keyword_iff _ start).1 "DROP").mpr ⟨by decide, by decide⟩

end Vespertide
