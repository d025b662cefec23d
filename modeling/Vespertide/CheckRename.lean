import Vespertide.CheckLexemes

/-!
The rename of a column inside CHECK texts: the editor's edit of the identifiers
the lexer finds, and the texts cut into names, names of functions and the rest,
where only a name can be a column.
-/
namespace Vespertide

/-! The editor: byte ranges of the identifiers that match, and none if the text does not lex -/

def columnRanges (column : String) (tokens : List SpannedToken) : List (Nat × Nat) :=
  (tokens.filter fun t => t.token = .ident column).map fun t => (t.start, t.stop)

def checkExprMatches (column : String) (expr : List Char) : List (Nat × Nat) :=
  match tokenizeSpanned expr with
  | none => []
  | some tokens => columnRanges column tokens

def splitBytes : Nat → List Char → List Char × List Char
  | _, [] => ([], [])
  | n, c :: rest =>
      if c.utf8Size ≤ n then
        let (taken, left) := splitBytes (n - c.utf8Size) rest
        (c :: taken, left)
      else ([], c :: rest)

def replaceRanges (new : List Char) : Nat → List (Nat × Nat) → List Char → List Char
  | _, [], s => s
  | pos, (start, stop) :: ranges, s =>
      let (kept, here) := splitBytes (start - pos) s
      let (_, after) := splitBytes (stop - start) here
      kept ++ new ++ replaceRanges new stop ranges after

def renameInCheckExpr (column new expr : String) : String :=
  String.ofList
    (replaceRanges new.toList 0 (checkExprMatches column expr.toList) expr.toList)

/-! The names of any text, quoted names included -/

inductive CheckPiece where
  | name (word : List Char)
  | called (word : List Char)
  | other (text : List Char)
  deriving DecidableEq

def CheckPiece.text : CheckPiece → List Char
  | .name word => word
  | .called word => word
  | .other text => text

def isNameChar (c : Char) : Bool := isAsciiWord c ∨ c = '$' ∨ 127 < c.toNat

/-- What is quoted and what follows its closing quote; a doubled quote does not close it. -/
def takeQuotedName : List Char → Option (List Char × List Char)
  | [] => none
  | '"' :: '"' :: rest => (takeQuotedName rest).map fun (s, rest) => ('"' :: '"' :: s, rest)
  | '"' :: rest => some ([], rest)
  | c :: rest => (takeQuotedName rest).map fun (s, rest) => (c :: s, rest)

/-- A word before an opening bracket is a function's. -/
def wordPiece (word rest : List Char) : CheckPiece :=
  match classifyWord word with
  | .ident _ =>
      if (rest.dropWhile isAsciiWhitespace).head? = some '(' then .called word else .name word
  | _ => .other word

def nextPieces : List Char → List CheckPiece × List Char
  | [] => ([], [])
  | c :: rest =>
      if c = '\'' then
        match takeQuoted rest with
        | some (body, rest) => ([.other (c :: body)], rest)
        | none => ([.other (c :: rest)], [])
      else if c = '"' then
        match takeQuotedName rest with
        | some (name, rest) => ([.other [c], .name name, .other [c]], rest)
        | none => ([.other (c :: rest)], [])
      else if c.isDigit then
        let (number, rest) := takeSignedNumber (c :: rest)
        ([.other number], rest)
      else if c.isAlpha ∨ c = '_' ∨ 127 < c.toNat then
        let (word, rest) := takeWhileRest isNameChar (c :: rest)
        ([wordPiece word rest], rest)
      else ([.other [c]], rest)

/-- Every step takes a character, so the length of the text is fuel enough. -/
def piecesFrom : Nat → List Char → List CheckPiece
  | _, [] => []
  | 0, s => [.other s]
  | fuel + 1, s =>
      let (pieces, rest) := nextPieces s
      pieces ++ piecesFrom fuel rest

def checkPieces (s : List Char) : List CheckPiece := piecesFrom s.length s

def renameNamed (column new expr : String) : String :=
  String.ofList <| (checkPieces expr.toList).flatMap fun piece =>
    if piece = .name column.toList then new.toList else piece.text

/-- An identifier of a text that lexes is the column's name, or a function's of that name. -/
def checkIdentifies (column expr : String) : Bool :=
  (tokenizeSpanned expr.toList).isSome ∧ (.name column.toList ∈ checkPieces expr.toList ∨
    .called column.toList ∈ checkPieces expr.toList)

/-! Pieces of a text -/

theorem take_quoted_name_sound {s body rest : List Char}
    (read : takeQuotedName s = some (body, rest)) : s = body ++ '"' :: rest := by
  induction s using takeQuotedName.induct generalizing body rest with
  | case1 => cases read
  | case2 s ih =>
    obtain ⟨⟨inner, left⟩, taken, shape⟩ := Option.map_eq_some_iff.mp read
    cases shape
    rw [ih taken]
    rfl
  | case3 s plain =>
    rw [takeQuotedName.eq_3 s plain] at read
    cases read
    rfl
  | case4 c s plain lone ih =>
    rw [takeQuotedName.eq_4 c s plain lone] at read
    obtain ⟨⟨inner, left⟩, taken, shape⟩ := Option.map_eq_some_iff.mp read
    cases shape
    rw [ih taken]
    rfl

theorem word_piece_text (word rest : List Char) : (wordPiece word rest).text = word := by
  unfold wordPiece
  split
  · split <;> rfl
  · rfl

theorem take_signed_text (s : List Char) :
    (takeSignedNumber s).1 ++ (takeSignedNumber s).2 = s := by
  simp only [takeSignedNumber]
  cases run : takeWhileRest (fun c => c.isDigit || c = '.') s with
  | mk body rest =>
    dsimp only
    cases scaled : takeExponent rest with
    | mk exponent after =>
      obtain ⟨split, -⟩ := take_while_rest_sound run
      obtain ⟨splitRest, -⟩ := take_exponent_sound scaled
      rw [List.append_assoc, ← splitRest, ← split]

theorem next_pieces_text (s : List Char) :
    (nextPieces s).1.flatMap CheckPiece.text ++ (nextPieces s).2 = s := by
  cases s with
  | nil => rfl
  | cons c rest =>
    simp only [nextPieces]
    split
    · split
      · rename_i body after taken
        obtain ⟨content, -, split, -⟩ := take_quoted_sound taken
        simp [CheckPiece.text, split]
      · simp [CheckPiece.text]
    split
    · rename_i quote
      split
      · rename_i name after taken
        simp [CheckPiece.text, take_quoted_name_sound taken, quote]
      · simp [CheckPiece.text]
    split
    · have number := take_signed_text (c :: rest)
      simpa [CheckPiece.text] using number
    split
    · simp [word_piece_text, takeWhileRest, List.takeWhile_append_dropWhile]
    · simp [CheckPiece.text]

theorem next_pieces_shorter (c : Char) (rest : List Char) :
    (nextPieces (c :: rest)).2.length ≤ rest.length := by
  simp only [nextPieces]
  split
  · split
    · rename_i body after taken
      obtain ⟨content, -, split, -⟩ := take_quoted_sound taken
      simp [split]
    · simp
  split
  · split
    · rename_i name after taken
      simp only [take_quoted_name_sound taken, List.length_append, List.length_cons]
      omega
    · simp
  split
  · rename_i digit
    have whole := take_signed_text (c :: rest)
    have first : (takeSignedNumber (c :: rest)).1 ≠ [] := by
      simp [takeSignedNumber, takeWhileRest, digit]
    have lengths := congrArg List.length whole
    have present := List.length_pos_iff.mpr first
    simp only [List.length_append, List.length_cons] at lengths
    dsimp only
    omega
  split
  · rename_i first
    have opens : isNameChar c = true := by
      obtain letter | line | wide := first
      · simp [isNameChar, isAsciiWord, Char.isAlphanum, letter]
      · simp [isNameChar, isAsciiWord, line]
      · simp [isNameChar, wide]
    simp only [takeWhileRest, List.dropWhile_cons, opens, ↓reduceIte]
    exact List.length_dropWhile_le _ rest
  · exact le_rfl

theorem pieces_from_enough {fuel : Nat} {s : List Char} (enough : s.length ≤ fuel) :
    piecesFrom fuel s = checkPieces s := by
  induction fuel using Nat.strong_induction_on generalizing s with
  | _ fuel ih =>
    cases s with
    | nil => cases fuel <;> rfl
    | cons c rest =>
      cases fuel with
      | zero => exact absurd enough (by simp)
      | succ fuel =>
        have shorter := next_pieces_shorter c rest
        have room : rest.length ≤ fuel := Nat.le_of_succ_le_succ enough
        have here := ih fuel (Nat.lt_succ_self fuel) (shorter.trans room)
        have there := ih rest.length (Nat.lt_succ_of_le room) shorter
        simp only [checkPieces, List.length_cons, piecesFrom] at here there ⊢
        rw [here, there]

theorem check_pieces_step {s : List Char} (present : s ≠ []) :
    checkPieces s = (nextPieces s).1 ++ checkPieces (nextPieces s).2 := by
  obtain ⟨c, rest, rfl⟩ := List.exists_cons_of_ne_nil present
  rw [← pieces_from_enough (next_pieces_shorter c rest)]
  rfl

theorem check_pieces_text (s : List Char) : (checkPieces s).flatMap CheckPiece.text = s := by
  induction length : s.length using Nat.strong_induction_on generalizing s with
  | _ n ih =>
    subst length
    cases s with
    | nil => rfl
    | cons c rest =>
      have shorter := Nat.lt_succ_of_le (next_pieces_shorter c rest)
      rw [check_pieces_step (List.cons_ne_nil c rest), List.flatMap_append,
        ih _ shorter _ rfl]
      exact next_pieces_text (c :: rest)

/-! Pieces of a text that lexes -/

/-- What the editor makes of a piece: it does not tell a function's name from a column. -/
def CheckPiece.edited (column : String) (new : List Char) : CheckPiece → List Char
  | .name word => if word = column.toList then new else word
  | .called word => if word = column.toList then new else word
  | .other text => text

/-- The text does not go on with a name the lexer would cut short. -/
def Narrow (s : List Char) : Prop :=
  ∀ c, s.head? = some c → isNameChar c = true → isAsciiWord c = true

section Lexed
variable {column : String} {new : List Char}

def editedPieces (column : String) (new : List Char) (s : List Char) : List Char :=
  (checkPieces s).flatMap (CheckPiece.edited column new)

theorem edited_step {s text rest : List Char} (present : s ≠ []) {pieces : List CheckPiece}
    (next : nextPieces s = (pieces, rest))
    (same : pieces.flatMap (CheckPiece.edited column new) = text) :
    editedPieces column new s = text ++ editedPieces column new rest := by
  rw [editedPieces, check_pieces_step present, next, List.flatMap_append, same]
  rfl

theorem edited_mark {c : Char} (mark : c ∈ ['(', ')', ',', '<', '>', '=', '!', '+', '-', '.'])
    (rest : List Char) :
    editedPieces column new (c :: rest) = c :: editedPieces column new rest := by
  have plain : nextPieces (c :: rest) = ([.other [c]], rest) := by
    simp only [List.mem_cons, List.not_mem_nil, or_false] at mark
    obtain rfl | rfl | rfl | rfl | rfl | rfl | rfl | rfl | rfl | rfl := mark <;> rfl
  exact edited_step (List.cons_ne_nil c rest) plain rfl

theorem edited_blank {c : Char} (space : isAsciiWhitespace c = true) (rest : List Char) :
    editedPieces column new (c :: rest) = c :: editedPieces column new rest := by
  have plain : nextPieces (c :: rest) = ([.other [c]], rest) := by
    simp only [isAsciiWhitespace, decide_eq_true_eq] at space
    obtain rfl | rfl | rfl | rfl | rfl := space <;> rfl
  exact edited_step (List.cons_ne_nil c rest) plain rfl

theorem digit_unquoted {c : Char} (digit : c.isDigit = true) : c ≠ '\'' ∧ c ≠ '"' := by
  constructor <;> rintro rfl <;> exact absurd digit (by decide)

theorem edited_number (n : NumberParts) (leading : n.whole ≠ []) {rest : List Char}
    (ends : n.EndsAt rest.head?) :
    editedPieces column new (n.body ++ rest) = n.body ++ editedPieces column new rest := by
  have taken := signed_number_complete n ends
  obtain ⟨c, tail, split⟩ := List.exists_cons_of_ne_nil leading
  have digit : c.isDigit = true := n.digits c (by simp [split])
  obtain ⟨single, double⟩ := digit_unquoted digit
  have head : n.body ++ rest = c :: (tail ++ (n.fraction ++ n.exponent) ++ rest) := by
    simp [NumberParts.body, split]
  have next : nextPieces (n.body ++ rest) = ([.other n.body], rest) := by
    rw [head] at taken ⊢
    simp only [nextPieces, single, double, digit, ↓reduceIte, taken]
  refine edited_step ?_ next (by simp [CheckPiece.edited])
  rw [head]
  exact List.cons_ne_nil _ _

theorem edited_body (n : NumberParts) {rest : List Char} (ends : n.EndsAt rest.head?) :
    editedPieces column new (n.body ++ rest) = n.body ++ editedPieces column new rest := by
  by_cases leading : n.whole = []
  · obtain ⟨sign, whole, fraction, exponent, signed, digits, point, scale, present⟩ := n
    subst leading
    cases point with
    | none => exact absurd present (by simp)
    | some read =>
      rename_i fractional
      have later : fractional ≠ [] := by
        rintro rfl
        exact absurd present (by simp)
      let behind : NumberParts :=
        ⟨[], fractional, [], exponent, .none, read, .none, scale, .inl later⟩
      have body : editedPieces column new (behind.body ++ rest) =
          behind.body ++ editedPieces column new rest := edited_number behind later ends
      simpa [NumberParts.body, behind, edited_mark] using body
  · exact edited_number n leading ends

theorem word_unmarked {c : Char} (first : c.isAlpha = true ∨ c = '_') :
    c ≠ '\'' ∧ c ≠ '"' ∧ c.isDigit = false := by
  refine ⟨?_, ?_, word_not_digit first⟩ <;> rintro rfl <;> exact absurd first (by decide)

theorem next_pieces_word {c : Char} {word rest : List Char} (first : c.isAlpha = true ∨ c = '_')
    (others : ∀ d ∈ word, isAsciiWord d = true)
    (ends : ∀ d, rest.head? = some d → isAsciiWord d = false) (narrow : Narrow rest) :
    nextPieces (c :: (word ++ rest)) = ([wordPiece (c :: word) rest], rest) := by
  obtain ⟨single, double, digit⟩ := word_unmarked first
  have wide : ∀ {d}, isAsciiWord d = true → isNameChar d = true := by
    intro d letter
    simp [isNameChar, letter]
  have taken : takeWhileRest isNameChar ((c :: word) ++ rest) = (c :: word, rest) := by
    apply take_while_rest_complete
    · intro d mem
      cases mem with
      | head =>
        obtain letter | rfl := first
        · exact wide (by simp [isAsciiWord, Char.isAlphanum, letter])
        · decide
      | tail _ mem => exact wide (others d mem)
    · intro d head
      cases named : isNameChar d with
      | false => rfl
      | true =>
        have ascii := narrow d head named
        rw [ends d head] at ascii
        cases ascii
  rw [List.cons_append] at taken
  have start : c.isAlpha = true ∨ c = '_' ∨ 127 < c.toNat := first.imp_right .inl
  simp only [nextPieces, single, double, digit, ↓reduceIte, Bool.false_eq_true, start, taken]

theorem number_no_name (n : NumberParts) : n.token ≠ .ident column := by
  unfold NumberParts.token
  split <;> simp

theorem edited_lexeme {before : Option CheckToken} {token : CheckToken} {text rest : List Char}
    (lexeme : Lexeme before token text rest) (narrow : Narrow rest) :
    editedPieces column new (text ++ rest) =
      (if token = .ident column then new else text) ++ editedPieces column new rest := by
  cases lexeme with
  | opening => exact edited_mark (by decide) rest
  | closing => exact edited_mark (by decide) rest
  | separator => exact edited_mark (by decide) rest
  | string content closed =>
    have taken := take_quoted_complete content closed
    rw [if_neg (by simp), quote_closing]
    have next : nextPieces ('\'' :: (closing content ++ rest)) =
        ([.other ('\'' :: closing content)], rest) := by
      simp only [nextPieces, ↓reduceIte, taken]
    exact edited_step (List.cons_ne_nil _ _) next (by simp [CheckPiece.edited])
  | operator written longest =>
    rw [if_neg (by simp)]
    cases written <;> simp [edited_mark]
  | unsigned n plain leading ends =>
    have text : n.text = n.body := by rw [NumberParts.text_eq, plain, List.nil_append]
    rw [if_neg (number_no_name n), text]
    exact edited_body n ends
  | signed n sign slot ends =>
    have signed := n.signed
    have body : editedPieces column new (n.body ++ rest) = n.body ++ editedPieces column new rest :=
      edited_body n ends
    rw [if_neg (number_no_name n), NumberParts.text_eq]
    generalize n.sign = mark at sign signed ⊢
    cases signed with
    | none => exact absurd rfl sign
    | plus => simp [edited_mark, body]
    | minus => simp [edited_mark, body]
  | keyword listed first others ends same =>
    rename_i kw name c word
    have token : classifyWord (c :: word) = .keyword kw :=
      (classify_word_iff _ _).2 (.inl ⟨name, kw, listed, rfl, same⟩)
    rw [if_neg (by simp)]
    refine edited_step (List.cons_ne_nil _ _) (next_pieces_word first others ends narrow) ?_
    simp [wordPiece, token, CheckPiece.edited]
  | identifier first others ends free =>
    rename_i c word
    have token : classifyWord (c :: word) = .ident (String.ofList (c :: word)) :=
      (classify_word_iff _ _).2 (.inr ⟨free, rfl⟩)
    have same : CheckToken.ident (String.ofList (c :: word)) = .ident column ↔
        c :: word = column.toList := by
      rw [CheckToken.ident.injEq, ← String.toList_inj, String.toList_ofList]
    refine edited_step (List.cons_ne_nil _ _) (next_pieces_word first others ends narrow) ?_
    simp only [wordPiece, token]
    split <;> simp only [CheckPiece.edited, List.flatMap_cons, List.flatMap_nil, List.append_nil,
      same]

theorem wide_unread {c : Char} (wide : 127 < c.toNat) (out : List SpannedToken) (s : List Char) :
    isAsciiWhitespace c = false ∧ nextToken out (c :: s) = none := by
  have other : ∀ {d : Char}, d.toNat ≤ 127 → c ≠ d := by
    rintro d small rfl
    omega
  have marks : ∀ d ∈ ['(', ')', ',', '\'', '<', '>', '=', '!', '-', '+'], d.toNat ≤ 127 := by
    simp
  have digit : c.isDigit = false := by
    rw [Bool.eq_false_iff]
    intro digit
    simp only [Char.isDigit, Bool.and_eq_true, decide_eq_true_eq, UInt32.le_iff_toNat_le] at digit
    have nine : ('9').val.toNat = 57 := rfl
    have value : c.toNat = c.val.toNat := rfl
    omega
  have letter : c.isAlpha = false := by
    rw [Bool.eq_false_iff]
    intro letter
    delta Char.isAlpha Char.isUpper Char.isLower at letter
    simp only [Bool.or_eq_true, Bool.and_eq_true, decide_eq_true_eq, ge_iff_le,
      UInt32.le_iff_toNat_le] at letter
    have upper : ('Z').val.toNat = 90 := rfl
    have lower : ('z').val.toNat = 122 := rfl
    have value : c.toNat = c.val.toNat := rfl
    omega
  constructor
  · simp [isAsciiWhitespace, other (d := ' ') (by decide), other (d := '\t') (by decide),
      other (d := '\n') (by decide), other (d := '\r') (by decide),
      other (d := '\x0c') (by decide)]
  · rw [next_token_unmarked fun d mark => other (marks d mark), digit, letter]
    simp [other (d := '_') (by decide)]

theorem tokens_narrow {fuel pos : Nat} {out all : List SpannedToken} {s : List Char}
    (read : tokenizeFrom fuel pos out s = some all) : Narrow s := by
  intro c head named
  obtain ⟨tail, rfl⟩ := List.head?_eq_some_iff.mp head
  cases ascii : isAsciiWord c with
  | true => rfl
  | false =>
    have unread : isAsciiWhitespace c = false ∧ nextToken out (c :: tail) = none := by
      simp only [isNameChar, ascii, Bool.false_eq_true, false_or, decide_eq_true_eq] at named
      obtain rfl | wide := named
      · exact ⟨rfl, rfl⟩
      · exact wide_unread wide out tail
    cases fuel with
    | zero => cases read
    | succ fuel =>
      rw [tokenizeFrom, unread.1, unread.2] at read
      cases read

theorem byte_length_from (s : List Char) (n : Nat) :
    s.foldl (fun n c => n + c.utf8Size) n = n + byteLength s := by
  induction s generalizing n with
  | nil => rfl
  | cons c s ih =>
    rw [byteLength, List.foldl_cons, List.foldl_cons, ih, ih (0 + c.utf8Size)]
    omega

theorem byte_length_append (s t : List Char) :
    byteLength (s ++ t) = byteLength s + byteLength t := by
  rw [byteLength, List.foldl_append, byte_length_from]
  rfl

theorem split_bytes_append (s t : List Char) : splitBytes (byteLength s) (s ++ t) = (s, t) := by
  induction s with
  | nil =>
    cases t with
    | nil => rfl
    | cons c t =>
      have size := c.utf8Size_pos
      rw [List.nil_append, splitBytes, if_neg (by simpa [byteLength] using size.ne')]
  | cons c s ih =>
    have length : byteLength (c :: s) = c.utf8Size + byteLength s := by
      rw [byteLength, List.foldl_cons, byte_length_from, Nat.zero_add]
    rw [length, List.cons_append, splitBytes, if_pos (Nat.le_add_right _ _),
      Nat.add_sub_cancel_left, ih]

/-- Replacing the ranges of the column's tokens edits every piece, whatever the
    edits before have left. -/
theorem ranges_edit {fuel pos : Nat} {out all : List SpannedToken} {s : List Char}
    (read : tokenizeFrom fuel pos out s = some all) :
    ∃ more, all = out ++ more ∧ ∀ start before, start + byteLength before = pos →
      replaceRanges new start (columnRanges column more) (before ++ s) =
        before ++ editedPieces column new s := by
  induction fuel generalizing pos out s with
  | zero =>
    cases s with
    | nil =>
      cases read
      exact ⟨[], (List.append_nil _).symm, fun _ _ _ => rfl⟩
    | cons c rest => cases read
  | succ fuel ih =>
    cases s with
    | nil =>
      cases read
      exact ⟨[], (List.append_nil _).symm, fun _ _ _ => rfl⟩
    | cons c rest =>
      unfold tokenizeFrom at read
      split at read
      · rename_i space
        obtain ⟨more, split, edits⟩ := ih read
        refine ⟨more, split, fun start before here => ?_⟩
        have later := edits start (before ++ [c]) (by
          have one : byteLength [c] = 1 := by
            simp only [isAsciiWhitespace, decide_eq_true_eq] at space
            obtain rfl | rfl | rfl | rfl | rfl := space <;> rfl
          rw [byte_length_append, one, ← here, Nat.add_assoc])
        rw [List.append_assoc] at later
        rw [edited_blank space]
        simpa using later
      · split at read
        · cases read
        · rename_i token text after next
          have undotted : after.head? ≠ some '.' := by
            intro dotted
            rw [dot_no_tokens dotted] at read
            cases read
          obtain ⟨split, lexeme⟩ := next_token_sound next undotted
          obtain ⟨more, splitAll, edits⟩ := ih read
          refine ⟨⟨token, pos, pos + byteLength text⟩ :: more, by simp [splitAll], ?_⟩
          intro start before here
          rw [split, edited_lexeme lexeme (tokens_narrow read)]
          by_cases matched : token = .ident column
          · have kept : splitBytes (pos - start) (before ++ (text ++ after)) =
                (before, text ++ after) := by
              rw [← here, Nat.add_sub_cancel_left, split_bytes_append]
            have passed : splitBytes (pos + byteLength text - pos) (text ++ after) =
                (text, after) := by
              rw [Nat.add_sub_cancel_left, split_bytes_append]
            have later := edits (pos + byteLength text) [] rfl
            rw [columnRanges, List.filter_cons_of_pos (by simpa using matched), List.map_cons,
              replaceRanges]
            simp only [kept, passed, matched, ↓reduceIte, List.append_assoc]
            simpa [columnRanges] using later
          · have later := edits start (before ++ text) (by
              rw [byte_length_append, ← here, Nat.add_assoc])
            rw [columnRanges, List.filter_cons_of_neg (by simpa using matched), if_neg matched]
            rw [List.append_assoc, List.append_assoc] at later
            exact later

theorem rename_lexed {expr : String} {tokens : List SpannedToken}
    (read : tokenizeSpanned expr.toList = some tokens) (new : String) :
    renameInCheckExpr column new expr =
      String.ofList (editedPieces column new.toList expr.toList) := by
  obtain ⟨more, rfl, edits⟩ := ranges_edit read
  rw [renameInCheckExpr, checkExprMatches, read]
  exact congrArg String.ofList (edits 0 [] rfl)

theorem rename_unlexed {expr : String} (unread : tokenizeSpanned expr.toList = none)
    (new : String) : renameInCheckExpr column new expr = expr := by
  rw [renameInCheckExpr, checkExprMatches, unread]
  exact String.ofList_toList

end Lexed

/-! The editor against the names -/

section Parts
variable {α β : Type} {f g : α → List β} {parts : List α}

theorem shorter_parts (each : ∀ p ∈ parts, f p = g p ∨ (f p).length < (g p).length) :
    (parts.flatMap f).length ≤ (parts.flatMap g).length ∧
      ((parts.flatMap f).length = (parts.flatMap g).length → ∀ p ∈ parts, f p = g p) := by
  induction parts with
  | nil => simp
  | cons p parts ih =>
    obtain ⟨here, others⟩ := List.forall_mem_cons.mp each
    obtain ⟨bound, alike⟩ := ih others
    simp only [List.flatMap_cons, List.length_append, List.forall_mem_cons]
    obtain same | shorter := here
    · rw [same]
      exact ⟨by omega, fun total => ⟨rfl, alike (by omega)⟩⟩
    · exact ⟨by omega, fun total => by omega⟩

theorem even_parts (each : ∀ p ∈ parts, (f p).length = (g p).length)
    (same : parts.flatMap f = parts.flatMap g) : ∀ p ∈ parts, f p = g p := by
  induction parts with
  | nil => simp
  | cons p parts ih =>
    obtain ⟨here, others⟩ := List.forall_mem_cons.mp each
    obtain ⟨first, later⟩ := List.append_inj same here
    exact List.forall_mem_cons.mpr ⟨first, ih others later⟩

/-- Where the parts that differ are all one text on the left and one other text on
    the right, the whole texts agree only if no part differs. -/
theorem flat_map_same_iff {x y : List β}
    (each : ∀ p ∈ parts, f p = g p ∨ (f p = x ∧ g p = y)) :
    parts.flatMap f = parts.flatMap g ↔ ∀ p ∈ parts, f p = g p := by
  refine ⟨fun same => ?_, fun same => List.flatMap_congr same⟩
  obtain shorter | even | longer := lt_trichotomy x.length y.length
  · refine (shorter_parts fun p mem => ?_).2 (congrArg List.length same)
    exact (each p mem).imp_right fun ⟨left, right⟩ => by rwa [left, right]
  · refine even_parts (fun p mem => ?_) same
    obtain alike | ⟨left, right⟩ := each p mem
    · rw [alike]
    · rw [left, right, even]
  · have flipped := (shorter_parts fun p mem => ?_).2 (congrArg List.length same.symm)
    · exact fun p mem => (flipped p mem).symm
    · exact (each p mem).imp Eq.symm fun ⟨left, right⟩ => by rwa [left, right]

end Parts

theorem edited_fixed_iff {column new : String} (apart : column ≠ new) (piece : CheckPiece) :
    piece.edited column new.toList = piece.text ↔
      piece ≠ .name column.toList ∧ piece ≠ .called column.toList := by
  have differ : new.toList ≠ column.toList := fun same => apart (String.toList_inj.mp same.symm)
  cases piece with
  | name word =>
    by_cases same : word = column.toList
    · simp [CheckPiece.edited, CheckPiece.text, same, differ]
    · simp [CheckPiece.edited, CheckPiece.text, same]
  | called word =>
    by_cases same : word = column.toList
    · simp [CheckPiece.edited, CheckPiece.text, same, differ]
    · simp [CheckPiece.edited, CheckPiece.text, same]
  | other text => simp [CheckPiece.edited, CheckPiece.text]

theorem rename_in_check_fixed_iff {column new : String} (apart : column ≠ new) (expr : String) :
    renameInCheckExpr column new expr = expr ↔ checkIdentifies column expr = false := by
  cases read : tokenizeSpanned expr.toList with
  | none => simp [rename_unlexed read, checkIdentifies, read]
  | some tokens =>
    have whole : (checkPieces expr.toList).flatMap CheckPiece.text = expr.toList :=
      check_pieces_text _
    have each : ∀ piece ∈ checkPieces expr.toList,
        piece.edited column new.toList = piece.text ∨
          piece.edited column new.toList = new.toList ∧ piece.text = column.toList := by
      intro piece _
      by_cases fixed : piece.edited column new.toList = piece.text
      · exact .inl fixed
      · rw [edited_fixed_iff apart, not_and_or, not_not, not_not] at fixed
        rcases fixed with rfl | rfl <;>
          exact .inr ⟨by simp [CheckPiece.edited], by simp [CheckPiece.text]⟩
    calc renameInCheckExpr column new expr = expr ↔
          editedPieces column new.toList expr.toList =
            (checkPieces expr.toList).flatMap CheckPiece.text := by
          rw [rename_lexed read, whole, ← String.toList_inj, String.toList_ofList]
      _ ↔ ∀ piece ∈ checkPieces expr.toList,
            piece ≠ .name column.toList ∧ piece ≠ .called column.toList := by
          rw [editedPieces, flat_map_same_iff each]
          exact forall₂_congr fun piece _ => edited_fixed_iff apart piece
      _ ↔ checkIdentifies column expr = false := by
          simp only [checkIdentifies, read, Option.isSome_some, true_and, decide_eq_false_iff_not,
            not_or]
          exact ⟨fun none => ⟨fun mem => (none _ mem).1 rfl, fun mem => (none _ mem).2 rfl⟩,
            fun absent piece mem => ⟨fun same => absent.1 (same ▸ mem),
              fun same => absent.2 (same ▸ mem)⟩⟩

end Vespertide
