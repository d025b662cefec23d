import Vespertide.CheckLexemes
import Vespertide.Support.Reading

/-!
The documented grammar of CHECK expressions over tokens, and the parser that
reads exactly its words.
-/
namespace Vespertide

open Reading

/-! Grammar -/

inductive LiteralToken : CheckToken → CheckLiteral → Prop where
  | integer (n : Int) : LiteralToken (.integer n) (.integer n)
  | float (text : String) : LiteralToken (.float text) (.float text)
  | string (quoted : String) : LiteralToken (.quotedString quoted) (.string quoted)
  | true : LiteralToken (.keyword .true) (.bool Bool.true)
  | false : LiteralToken (.keyword .false) (.bool Bool.false)
  | null : LiteralToken (.keyword .null) .null

def LiteralWord : Language CheckToken CheckLiteral := fun tokens value =>
  ∃ token, tokens = [token] ∧ LiteralToken token value

def optionalNot (negated : Bool) : List CheckToken := if negated then [.keyword .not] else []

/-- `predicate`; an `IN` list holds `fewest` literals at least. -/
inductive Predicate (fewest : Nat) : Language CheckToken CheckExpr where
  | comparison (column : String) (op : CheckOp) {token : CheckToken} {value : CheckLiteral}
      (literal : LiteralToken token value) :
      Predicate fewest [.ident column, .op op, token] (.compare column op value)
  | inList (column : String) (negated : Bool) {token : CheckToken} {value : CheckLiteral}
      {tokens : List CheckToken} {values : List CheckLiteral} (first : LiteralToken token value)
      (others : Separated .comma LiteralWord tokens values)
      (enough : fewest ≤ (value :: values).length) :
      Predicate fewest
        (.ident column :: (optionalNot negated ++
          .keyword .in :: .lparen :: token :: (tokens ++ [.rparen])))
        (.in column (value :: values) negated)
  | between (column : String) (negated : Bool) {lower upper : CheckToken}
      {low high : CheckLiteral} (lowest : LiteralToken lower low)
      (highest : LiteralToken upper high) :
      Predicate fewest
        (.ident column :: (optionalNot negated ++
          [.keyword .between, lower, .keyword .and, upper]))
        (.between column low high negated)
  | isNull (column : String) (negated : Bool) :
      Predicate fewest (.ident column :: .keyword .is :: (optionalNot negated ++ [.keyword .null]))
        (.isNull column negated)

section Levels
variable (atom : Language CheckToken CheckExpr)

/-- `not_expr = 'NOT' atom | atom` -/
inductive NotExpr : Language CheckToken CheckExpr where
  | negated {tokens : List CheckToken} {inner : CheckExpr} (word : atom tokens inner) :
      NotExpr (.keyword .not :: tokens) (.not inner)
  | plain {tokens : List CheckToken} {inner : CheckExpr} (word : atom tokens inner) :
      NotExpr tokens inner

/-- `operand ( kw operand )*` -/
inductive Joined (kw : CheckKeyword) (join : List CheckExpr → CheckExpr)
    (operand : Language CheckToken CheckExpr) : Language CheckToken CheckExpr where
  | single {tokens : List CheckToken} {part : CheckExpr} (word : operand tokens part) :
      Joined kw join operand tokens part
  | several {tokens more : List CheckToken} {part : CheckExpr} {parts : List CheckExpr}
      (word : operand tokens part) (others : Separated (.keyword kw) operand more parts)
      (some : parts ≠ []) : Joined kw join operand (tokens ++ more) (join (part :: parts))

def AndExpr : Language CheckToken CheckExpr := Joined .and .and (NotExpr atom)

def OrExpr : Language CheckToken CheckExpr := Joined .or .or (AndExpr atom)

end Levels

/-- `atom = '(' expr ')' | predicate`, with `nesting` brackets inside each other at most. -/
def Atom (fewest : Nat) : Nat → Language CheckToken CheckExpr
  | 0 => Predicate fewest
  | nesting + 1 => fun tokens expr =>
      Predicate fewest tokens expr ∨
        ∃ inner, tokens = .lparen :: (inner ++ [.rparen]) ∧ OrExpr (Atom fewest nesting) inner expr

/-! Predicates -/

theorem literal_read (tokens : List CheckToken) (value : CheckLiteral) (rest : List CheckToken) :
    tryTakeLiteral tokens = some (value, rest) ↔
      ∃ token, tokens = token :: rest ∧ LiteralToken token value := by
  constructor
  · intro taken
    unfold tryTakeLiteral at taken
    split at taken <;> cases taken
    · exact ⟨_, rfl, .integer _⟩
    · exact ⟨_, rfl, .float _⟩
    · exact ⟨_, rfl, .string _⟩
    · exact ⟨_, rfl, .true⟩
    · exact ⟨_, rfl, .false⟩
    · exact ⟨_, rfl, .null⟩
  · intro ⟨token, split, literal⟩
    subst split
    cases literal <;> rfl

theorem literal_taken {token : CheckToken} {value : CheckLiteral}
    (literal : LiteralToken token value) (rest : List CheckToken) :
    tryTakeLiteral (token :: rest) = some (value, rest) :=
  (literal_read _ _ _).2 ⟨token, rfl, literal⟩

theorem in_values_sound {fuel : Nat} {tokens rest : List CheckToken} {values : List CheckLiteral}
    (taken : parseInValues fuel tokens = some (values, rest)) :
    ∃ token value others more, values = value :: others ∧ LiteralToken token value ∧
      tokens = token :: (more ++ .rparen :: rest) ∧ Separated .comma LiteralWord more others := by
  induction fuel generalizing tokens values with
  | zero => cases taken
  | succ fuel ih =>
    unfold parseInValues at taken
    split at taken
    · cases taken
    · rename_i value following literal
      obtain ⟨token, split, word⟩ := (literal_read _ _ _).1 literal
      obtain ⟨⟨others, after⟩, more, same⟩ := Option.map_eq_some_iff.1 taken
      cases same
      obtain ⟨next, first, tail, unread, head, nextWord, shape, words⟩ := ih more
      subst head shape split
      refine ⟨token, value, _, .comma :: ([next] ++ unread), rfl, word, by simp, ?_⟩
      exact .cons ⟨next, rfl, nextWord⟩ words
    · rename_i value following literal
      obtain ⟨token, split, word⟩ := (literal_read _ _ _).1 literal
      cases taken
      exact ⟨token, value, [], [], rfl, word, split, .nil⟩
    · cases taken

theorem in_values_complete {more : List CheckToken} {others : List CheckLiteral}
    (words : Separated .comma LiteralWord more others) {token : CheckToken} {value : CheckLiteral}
    (literal : LiteralToken token value) (rest : List CheckToken) {fuel : Nat}
    (enough : others.length < fuel) :
    parseInValues fuel (token :: (more ++ .rparen :: rest)) = some (value :: others, rest) := by
  induction words generalizing token value fuel with
  | nil =>
    obtain ⟨fuel, rfl⟩ := Nat.exists_eq_succ_of_ne_zero (Nat.ne_of_gt enough)
    simp [parseInValues, literal_taken literal]
  | cons first words ih =>
    obtain ⟨fuel, rfl⟩ := Nat.exists_eq_succ_of_ne_zero (Nat.ne_of_gt (Nat.zero_lt_of_lt enough))
    obtain ⟨next, one, nextLiteral⟩ := first
    subst one
    have later := ih nextLiteral (Nat.lt_of_succ_lt_succ enough)
    simp only [parseInValues, literal_taken literal, List.cons_append, List.nil_append, later,
      Option.map_some]

theorem eat_keyword_iff {kw : CheckKeyword} {tokens rest : List CheckToken} :
    eatKeyword kw tokens = some rest ↔ tokens = .keyword kw :: rest := by
  unfold eatKeyword
  split
  · rename_i k following
    by_cases same : k = kw <;> simp [same]
  · rename_i other
    constructor
    · intro taken
      cases taken
    · intro split
      exact absurd split (other kw rest)

theorem optional_not_split (tokens : List CheckToken) :
    tokens = optionalNot (eatKeyword .not tokens).isSome ++ (eatKeyword .not tokens).getD tokens := by
  cases eaten : eatKeyword .not tokens with
  | none => rfl
  | some rest => exact eat_keyword_iff.1 eaten

theorem optional_not_eaten (negated : Bool) (rest : List CheckToken)
    (other : eatKeyword .not rest = none) :
    (eatKeyword .not (optionalNot negated ++ rest)).isSome = negated ∧
      (eatKeyword .not (optionalNot negated ++ rest)).getD (optionalNot negated ++ rest) = rest := by
  cases negated with
  | false => simp [optionalNot, other]
  | true => simp [optionalNot, eatKeyword]

theorem predicate_sound {column : String} {tokens rest : List CheckToken} {expr : CheckExpr}
    (taken : parsePredicate column tokens = some (expr, rest)) :
    ∃ used, tokens = used ++ rest ∧ Predicate 1 (.ident column :: used) expr := by
  unfold parsePredicate at taken
  have start := optional_not_split tokens
  generalize (eatKeyword .not tokens).isSome = negated at taken start
  generalize (eatKeyword .not tokens).getD tokens = inner at taken start
  subst start
  dsimp only at taken
  split at taken
  · split at taken
    · cases taken
    · rename_i op following plain
      obtain ⟨⟨value, after⟩, literal, same⟩ := Option.map_eq_some_iff.1 taken
      cases same
      obtain ⟨token, shape, word⟩ := (literal_read _ _ _).1 literal
      rw [Bool.not_eq_true] at plain
      subst plain shape
      exact ⟨[.op op, token], rfl, .comparison column op word⟩
  · obtain ⟨⟨values, after⟩, list, same⟩ := Option.map_eq_some_iff.1 taken
    cases same
    obtain ⟨token, value, others, more, head, word, shape, words⟩ := in_values_sound list
    subst head shape
    exact ⟨_, by simp, .inList column negated word words (by simp)⟩
  · split at taken
    · rename_i low following lowest
      obtain ⟨⟨high, after⟩, highest, same⟩ := Option.map_eq_some_iff.1 taken
      cases same
      obtain ⟨lower, shape, lowWord⟩ := (literal_read _ _ _).1 lowest
      obtain ⟨upper, tailShape, highWord⟩ := (literal_read _ _ _).1 highest
      subst shape tailShape
      exact ⟨_, by simp, .between column negated lowWord highWord⟩
    · cases taken
  · split at taken
    · cases taken
    · rename_i following plain
      rw [Bool.not_eq_true] at plain
      subst plain
      obtain ⟨after, null, same⟩ := Option.map_eq_some_iff.1 taken
      cases same
      have shape := optional_not_split following
      rw [eat_keyword_iff.1 null] at shape
      refine ⟨_, ?_, .isNull column (eatKeyword .not following).isSome⟩
      simpa [optionalNot] using shape
  · cases taken

theorem predicate_complete {column : String} {used : List CheckToken} {expr : CheckExpr}
    (word : Predicate 1 (.ident column :: used) expr) (rest : List CheckToken) :
    parsePredicate column (used ++ rest) = some (expr, rest) := by
  cases word with
  | comparison _ op literal =>
    simp [parsePredicate, eatKeyword, literal_taken literal]
  | inList _ negated first others enough =>
    rename_i token value tokens values
    have eaten := optional_not_eaten negated
      (.keyword .in :: .lparen :: token :: (tokens ++ .rparen :: rest)) rfl
    have short : values.length < (token :: (tokens ++ .rparen :: rest)).length := by
      have bound := others.length_le
      simp only [List.length_cons, List.length_append]
      omega
    have listed := in_values_complete others first rest short
    unfold parsePredicate
    simp only [List.append_assoc, List.cons_append, List.nil_append] at eaten ⊢
    rw [eaten.1, eaten.2]
    simp only [listed, Option.map_some]
  | between _ negated lowest highest =>
    rename_i lower upper low high
    have eaten := optional_not_eaten negated
      (.keyword .between :: lower :: .keyword .and :: upper :: rest) rfl
    unfold parsePredicate
    simp only [List.append_assoc, List.cons_append, List.nil_append] at eaten ⊢
    rw [eaten.1, eaten.2]
    simp only [literal_taken lowest, literal_taken highest, Option.map_some]
  | isNull _ negated =>
    obtain ⟨isNot, after⟩ := optional_not_eaten negated (.keyword .null :: rest) rfl
    have step : parsePredicate column
        (.keyword .is :: (optionalNot negated ++ .keyword .null :: rest)) =
        (eatKeyword .null ((eatKeyword .not (optionalNot negated ++ .keyword .null :: rest)).getD
          (optionalNot negated ++ .keyword .null :: rest))).map fun following =>
            (.isNull column (eatKeyword .not
              (optionalNot negated ++ .keyword .null :: rest)).isSome, following) := rfl
    simp only [List.append_assoc, List.cons_append, List.nil_append]
    rw [step, isNot, after]
    rfl

/-! Levels -/

def StopsAt (kw : CheckKeyword) (rest : List CheckToken) : Prop := eatKeyword kw rest = none

section Levels
variable {atom : List CheckToken → Option (CheckExpr × List CheckToken)}
  {words : Language CheckToken CheckExpr}

theorem not_reads (reads : Reads atom words fun _ => True)
    (opening : ∀ {tokens expr}, words tokens expr → ∀ rest, StopsAt .not (tokens ++ rest)) :
    Reads (parseNot atom) (NotExpr words) fun _ => True where
  sound := by
    intro tokens expr rest taken
    unfold parseNot at taken
    split at taken
    · rename_i following negation
      obtain ⟨⟨inner, after⟩, found, same⟩ := Option.map_eq_some_iff.1 taken
      cases same
      obtain ⟨used, split, word⟩ := reads.sound found
      rw [eat_keyword_iff.1 negation, split]
      exact ⟨.keyword .not :: used, rfl, .negated word⟩
    · obtain ⟨used, split, word⟩ := reads.sound taken
      exact ⟨used, split, .plain word⟩
  complete := by
    intro used expr rest word free
    cases word with
    | negated word =>
      have found : atom _ = some (_, rest) := reads.complete word trivial
      simp only [parseNot, List.cons_append, eatKeyword, ↓reduceIte, found, Option.map_some]
    | plain word =>
      unfold parseNot
      rw [opening word rest]
      exact reads.complete word free

variable {kw : CheckKeyword} {join : List CheckExpr → CheckExpr}
  {operand : List CheckToken → Option (CheckExpr × List CheckToken)}
  {item : Language CheckToken CheckExpr} {follow : List CheckToken → Prop}

theorem operands_sound (reads : Reads operand item follow) {fuel : Nat}
    {tokens rest : List CheckToken} {parts : List CheckExpr}
    (taken : parseOperands kw operand fuel tokens = some (parts, rest)) :
    ∃ used, tokens = used ++ rest ∧ Separated (.keyword kw) item used parts := by
  induction fuel generalizing tokens parts with
  | zero =>
    cases taken
    exact ⟨[], rfl, .nil⟩
  | succ fuel ih =>
    unfold parseOperands at taken
    split at taken
    · cases taken
      exact ⟨[], rfl, .nil⟩
    · rename_i following eaten
      split at taken
      · cases taken
      · rename_i next unread first
        obtain ⟨⟨others, after⟩, more, same⟩ := Option.map_eq_some_iff.1 taken
        cases same
        obtain ⟨front, split, word⟩ := reads.sound first
        obtain ⟨back, splitRest, list⟩ := ih more
        rw [eat_keyword_iff.1 eaten, split, splitRest]
        exact ⟨.keyword kw :: (front ++ back), by simp, .cons word list⟩

theorem operands_complete (reads : Reads operand item follow)
    (again : ∀ rest, follow (.keyword kw :: rest)) {used rest : List CheckToken}
    {parts : List CheckExpr} (list : Separated (.keyword kw) item used parts)
    (ends : StopsAt kw rest) (after : follow rest) {fuel : Nat} (enough : parts.length ≤ fuel) :
    parseOperands kw operand fuel (used ++ rest) = some (parts, rest) := by
  induction list generalizing fuel with
  | nil =>
    cases fuel with
    | zero => rfl
    | succ fuel =>
      rw [List.nil_append, parseOperands, ends]
  | cons first others ih =>
    rename_i front back part parts
    obtain ⟨fuel, rfl⟩ := Nat.exists_eq_succ_of_ne_zero (Nat.ne_of_gt (Nat.zero_lt_of_lt enough))
    have later := ih (Nat.le_of_succ_le_succ enough)
    have follows : follow (back ++ rest) := by
      cases others with
      | nil => exact after
      | cons => exact again _
    have taken := reads.complete first follows
    simp only [List.cons_append, List.append_assoc, parseOperands, eatKeyword, ↓reduceIte, taken,
      later, Option.map_some]

theorem joined_reads (reads : Reads operand item follow)
    (again : ∀ rest, follow (.keyword kw :: rest)) :
    Reads (parseJoined kw join operand) (Joined kw join item)
      fun rest => StopsAt kw rest ∧ follow rest where
  sound := by
    intro tokens expr rest taken
    unfold parseJoined at taken
    split at taken
    · cases taken
    · rename_i part unread first
      obtain ⟨⟨parts, after⟩, more, same⟩ := Option.map_eq_some_iff.1 taken
      cases same
      obtain ⟨front, split, word⟩ := reads.sound first
      obtain ⟨back, splitRest, list⟩ := operands_sound reads more
      refine ⟨front ++ back, by rw [split, splitRest, List.append_assoc], ?_⟩
      cases list with
      | nil =>
        rw [List.append_nil]
        exact .single word
      | cons next others => exact .several word (.cons next others) (List.cons_ne_nil _ _)
  complete := by
    intro used expr rest word ⟨ends, after⟩
    cases word with
    | single word =>
      have taken := reads.complete word after
      have none : parseOperands kw operand rest.length rest = some ([], rest) :=
        operands_complete reads again .nil ends after (Nat.zero_le _)
      simp only [parseJoined, taken, none, Option.map_some, List.isEmpty_nil, ↓reduceIte]
    | several word others some =>
      rename_i front back part parts
      have follows : follow (back ++ rest) := by
        cases others with
        | nil => exact absurd rfl some
        | cons => exact again _
      have taken := reads.complete word follows
      have short : parts.length ≤ (back ++ rest).length := by
        have bound := others.length_le
        simp only [List.length_append]
        omega
      have list := operands_complete reads again others ends after short
      have more : parts.isEmpty = false := List.isEmpty_eq_false_iff.2 some
      simp only [parseJoined, List.append_assoc, taken, list, Option.map_some, more,
        Bool.false_eq_true, ↓reduceIte]

theorem or_reads (reads : Reads atom words fun _ => True)
    (opening : ∀ {tokens expr}, words tokens expr → ∀ rest, StopsAt .not (tokens ++ rest)) :
    Reads (parseOr atom) (OrExpr words)
      fun rest => StopsAt .or rest ∧ StopsAt .and rest ∧ True := by
  have conjunctions : Reads (parseJoined .and .and (parseNot atom)) (AndExpr words)
      fun rest => StopsAt .and rest ∧ True :=
    joined_reads (not_reads reads opening) fun _ => trivial
  exact joined_reads conjunctions fun _ => ⟨rfl, trivial⟩

end Levels

theorem atom_opening {fewest nesting : Nat} {tokens : List CheckToken} {expr : CheckExpr}
    (word : Atom fewest nesting tokens expr) (rest : List CheckToken) :
    StopsAt .not (tokens ++ rest) := by
  have opened : Predicate fewest tokens expr → StopsAt .not (tokens ++ rest) := by
    intro word
    cases word <;> rfl
  cases nesting with
  | zero => exact opened word
  | succ nesting =>
    cases word with
    | inl word => exact opened word
    | inr group =>
      obtain ⟨inner, split, _⟩ := group
      rw [split]
      rfl

theorem predicate_column {tokens : List CheckToken} {expr : CheckExpr}
    (word : Predicate 1 tokens expr) : ∃ column rest, tokens = .ident column :: rest := by
  cases word <;> exact ⟨_, _, rfl⟩

theorem atom_reads (nesting : Nat) : Reads (parseAtom nesting) (Atom 1 nesting) fun _ => True := by
  induction nesting with
  | zero =>
    constructor
    · intro tokens expr rest taken
      unfold parseAtom at taken
      split at taken
      · obtain ⟨used, split, word⟩ := predicate_sound taken
        exact ⟨_, congrArg _ split, word⟩
      · cases taken
    · intro used expr rest word free
      obtain ⟨column, tail, split⟩ := predicate_column word
      subst split
      exact predicate_complete word rest
  | succ nesting ih =>
    have groups := or_reads ih fun word => atom_opening word
    constructor
    · intro tokens expr rest taken
      unfold parseAtom at taken
      split at taken
      · split at taken
        · rename_i inner after grouped
          cases taken
          obtain ⟨used, split, word⟩ := groups.sound grouped
          refine ⟨.lparen :: (used ++ [.rparen]), ?_, .inr ⟨used, rfl, word⟩⟩
          simp [split]
        · cases taken
      · obtain ⟨used, split, word⟩ := predicate_sound taken
        exact ⟨_, congrArg _ split, .inl word⟩
      · cases taken
    · intro used expr rest word free
      cases word with
      | inl word =>
        obtain ⟨column, tail, split⟩ := predicate_column word
        subst split
        exact predicate_complete word rest
      | inr group =>
        obtain ⟨inner, split, word⟩ := group
        have grouped : parseOr (parseAtom nesting) (inner ++ .rparen :: rest) =
            some (expr, .rparen :: rest) := groups.complete word ⟨rfl, rfl, trivial⟩
        subst split
        simp only [List.cons_append, List.append_assoc, List.nil_append, parseAtom, grouped]

theorem parse_or_iff (nesting : Nat) (tokens : List CheckToken) (expr : CheckExpr) :
    parseOr (parseAtom nesting) tokens = some (expr, []) ↔
      OrExpr (Atom 1 nesting) tokens expr :=
  (or_reads (atom_reads nesting) fun word => atom_opening word).entire_iff
    ⟨rfl, rfl, trivial⟩ tokens expr

/-! Expressions -/

/-- The text of one expression: its tokens are a word of the grammar, `IN` lists of
    `fewest` literals and 64 brackets inside each other included. -/
def Derives (fewest : Nat) (text : List Char) (expr : CheckExpr) : Prop :=
  ∃ tokens, Lexes none text tokens ∧ OrExpr (Atom fewest maxCheckExprDepth) tokens expr

theorem predicate_recognised {fewest : Nat} {tokens : List CheckToken} {expr : CheckExpr}
    (word : Predicate fewest tokens expr) : expr ≠ .unparseable := by
  cases word <;> exact fun same => nomatch same

theorem or_recognised {words : Language CheckToken CheckExpr}
    (inner : ∀ {tokens expr}, words tokens expr → expr ≠ .unparseable) {tokens : List CheckToken}
    {expr : CheckExpr} (word : OrExpr words tokens expr) : expr ≠ .unparseable := by
  cases word with
  | single word =>
    cases word with
    | single word =>
      cases word with
      | negated word => exact fun same => nomatch same
      | plain word => exact inner word
    | several => exact fun same => nomatch same
  | several => exact fun same => nomatch same

theorem atom_recognised {fewest nesting : Nat} {tokens : List CheckToken} {expr : CheckExpr}
    (word : Atom fewest nesting tokens expr) : expr ≠ .unparseable := by
  induction nesting generalizing tokens expr with
  | zero => exact predicate_recognised word
  | succ nesting ih =>
    cases word with
    | inl word => exact predicate_recognised word
    | inr group =>
      obtain ⟨inner, _, word⟩ := group
      exact or_recognised ih word

/-- The parser reads a tree of a text where the grammar gives that tree to it. -/
theorem parsed_iff (text : String) (tree : CheckExpr) :
    (parseCheckExpr text = tree ∧ tree ≠ .unparseable) ↔
      Derives 1 (Text.trim text.toList) tree := by
  unfold parseCheckExpr Derives
  cases lexed : tokenizeSpanned (Text.trim text.toList) with
  | none =>
    constructor
    · intro ⟨same, recognised⟩
      exact absurd same.symm recognised
    · intro ⟨tokens, lexes, _⟩
      have read := (tokenize_iff _ _).2 lexes
      rw [lexed] at read
      cases read
  | some spanned =>
    have tokens : Lexes none (Text.trim text.toList) (spanned.map SpannedToken.token) := by
      rw [← tokenize_iff, lexed]
      rfl
    have unique : ∀ other, Lexes none (Text.trim text.toList) other →
        other = spanned.map SpannedToken.token := by
      intro other lexes
      have read := (tokenize_iff _ _).2 lexes
      rw [lexed] at read
      exact (Option.some.inj read).symm
    constructor
    · intro ⟨same, recognised⟩
      refine ⟨_, tokens, (parse_or_iff _ _ _).1 ?_⟩
      dsimp only at same
      split at same
      · rename_i parsed whole
        rw [← same, whole]
      · exact absurd same.symm recognised
    · intro ⟨other, lexes, word⟩
      have whole := (parse_or_iff _ _ _).2 word
      rw [unique other lexes] at whole
      refine ⟨?_, or_recognised atom_recognised word⟩
      simp only [whole]

/-! The least length of an `IN` list -/

theorem Joined.imp {kw : CheckKeyword} {join : List CheckExpr → CheckExpr}
    {item other : Language CheckToken CheckExpr} (weaker : ∀ {s e}, item s e → other s e)
    {tokens : List CheckToken} {expr : CheckExpr} (word : Joined kw join item tokens expr) :
    Joined kw join other tokens expr := by
  cases word with
  | single word => exact .single (weaker word)
  | several word others some => exact .several (weaker word) (others.imp weaker) some

theorem OrExpr.imp {item other : Language CheckToken CheckExpr}
    (weaker : ∀ {s e}, item s e → other s e) {tokens : List CheckToken} {expr : CheckExpr}
    (word : OrExpr item tokens expr) : OrExpr other tokens expr := by
  refine Joined.imp (Joined.imp ?_) word
  intro s e word
  cases word with
  | negated word => exact .negated (weaker word)
  | plain word => exact .plain (weaker word)

theorem Atom.imp {more fewer : Nat} (less : fewer ≤ more) {nesting : Nat}
    {tokens : List CheckToken} {expr : CheckExpr} (word : Atom more nesting tokens expr) :
    Atom fewer nesting tokens expr := by
  have predicate : ∀ {s e}, Predicate more s e → Predicate fewer s e := by
    intro s e word
    cases word with
    | comparison column op literal => exact .comparison column op literal
    | inList column negated first others enough =>
      exact .inList column negated first others (Nat.le_trans less enough)
    | between column negated lowest highest => exact .between column negated lowest highest
    | isNull column negated => exact .isNull column negated
  induction nesting generalizing tokens expr with
  | zero => exact predicate word
  | succ nesting ih =>
    cases word with
    | inl word => exact .inl (predicate word)
    | inr group =>
      obtain ⟨inner, split, word⟩ := group
      exact .inr ⟨inner, split, word.imp ih⟩

theorem or_in_list {words : Language CheckToken CheckExpr} {tokens : List CheckToken}
    {column : String} {values : List CheckLiteral} {negated : Bool}
    (word : OrExpr words tokens (.in column values negated)) :
    words tokens (.in column values negated) := by
  cases word with
  | single word =>
    cases word with
    | single word =>
      cases word with
      | plain word => exact word

theorem in_list_length {fewest nesting : Nat} {tokens : List CheckToken} {column : String}
    {values : List CheckLiteral} {negated : Bool}
    (word : Atom fewest nesting tokens (.in column values negated)) : fewest ≤ values.length := by
  have predicate : ∀ {s}, Predicate fewest s (.in column values negated) →
      fewest ≤ values.length := by
    intro s word
    cases word with
    | inList _ _ _ _ enough => exact enough
  induction nesting generalizing tokens with
  | zero => exact predicate word
  | succ nesting ih =>
    cases word with
    | inl word => exact predicate word
    | inr group =>
      obtain ⟨inner, _, word⟩ := group
      exact ih (or_in_list word)

theorem parsed_of_derives {fewest : Nat} (some : 1 ≤ fewest) {text : String} {tree : CheckExpr}
    (word : Derives fewest (Text.trim text.toList) tree) : parseCheckExpr text = tree := by
  obtain ⟨tokens, lexes, word⟩ := word
  exact ((parsed_iff text tree).2 ⟨tokens, lexes, word.imp (Atom.imp some)⟩).1

/-- The parser accepts exactly the grammar, an `IN` list of one literal included, and
    gives the tree the grammar assigns. -/
theorem parser_accepts_iff (text : String) :
    (∀ tree, (parseCheckExpr text = tree ∧ tree ≠ .unparseable) ↔
      Derives 1 (Text.trim text.toList) tree) ∧
    (parseCheckExpr text = .unparseable ↔ ∀ tree, ¬ Derives 1 (Text.trim text.toList) tree) := by
  refine ⟨parsed_iff text, ?_⟩
  constructor
  · intro none tree word
    obtain ⟨same, recognised⟩ := (parsed_iff text tree).2 word
    rw [none] at same
    exact recognised same.symm
  · intro none
    cases parsed : parseCheckExpr text with
    | unparseable => rfl
    | _ => exact absurd ((parsed_iff text _).1 ⟨parsed, fun same => nomatch same⟩) (none _)

/-- The documented grammar asks for two literals in an `IN` list; the parser takes one. -/
theorem single_in_list_accepted :
    parseCheckExpr "a IN (1)" = .in "a" [.integer 1] false ∧
      ∀ tree, ¬ Derives 2 (Text.trim ("a IN (1)").toList) tree := by
  have parsed : parseCheckExpr "a IN (1)" = .in "a" [.integer 1] false := by rfl
  refine ⟨parsed, ?_⟩
  intro tree word
  have same := parsed_of_derives (by decide) word
  rw [parsed] at same
  subst same
  obtain ⟨tokens, _, word⟩ := word
  have long := in_list_length (or_in_list word)
  exact absurd long (by decide)

end Vespertide
