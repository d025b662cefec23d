import Vespertide.CheckGrammar
import Vespertide.CheckRename
import Vespertide.Support.Literals

/-!
The lexer of CHECK expressions as the editor uses it: the kinds of the tokens and
the bytes they stand on. The parser trims the text before it lexes, the editor
does not, and the two do not agree on what a blank is.
-/
namespace Vespertide
open Text

inductive CheckTokenKind where
  | column | keyword | operator | number | string | punctuation
  deriving DecidableEq, Repr

def tokenKind : CheckToken → CheckTokenKind
  | .ident _ => .column
  | .integer _ | .float _ => .number
  | .quotedString _ => .string
  | .keyword _ => .keyword
  | .op _ => .operator
  | .lparen | .rparen | .comma => .punctuation

structure LexedToken where
  kind : CheckTokenKind
  start : Nat
  stop : Nat
  deriving DecidableEq, Repr

def lexCheckExpr (expr : String) : List LexedToken :=
  match tokenizeSpanned expr.toList with
  | none => []
  | some spanned => spanned.map fun st => ⟨tokenKind st.token, st.start, st.stop⟩

/-- Tokens stand on whole characters of the text, one after the other, and leave
    out nothing but blanks where there are any. -/
structure SpansSound (text : List Char) (tokens : List LexedToken) : Prop where
  bounded : ∀ t ∈ tokens, ∃ before own after, text = before ++ own ++ after ∧ own ≠ [] ∧
    t.start = byteLength before ∧ t.stop = byteLength (before ++ own)
  increasing : tokens.Pairwise fun a b => a.start < b.start ∧ a.stop ≤ b.start
  covering : tokens ≠ [] → ∀ before c after, text = before ++ c :: after →
    isAsciiWhitespace c = false →
      ∃ t ∈ tokens, t.start ≤ byteLength before ∧ byteLength (before ++ [c]) ≤ t.stop

def trimmedOff (text : List Char) : List Char :=
  text.takeWhile isWhitespace ++ (text.dropWhile isWhitespace).reverse.takeWhile isWhitespace

/-! Where the tokens stand -/

/-- Spans of a text that starts at `pos`, with blanks between them. -/
inductive Tiled : Nat → List Char → List (Nat × Nat) → Prop where
  | done (pos : Nat) : Tiled pos [] []
  | blank {pos : Nat} {c : Char} {rest : List Char} {spans : List (Nat × Nat)}
      (space : isAsciiWhitespace c = true) (others : Tiled (pos + byteLength [c]) rest spans) :
      Tiled pos (c :: rest) spans
  | token {pos : Nat} {own rest : List Char} {spans : List (Nat × Nat)} (present : own ≠ [])
      (others : Tiled (pos + byteLength own) rest spans) :
      Tiled pos (own ++ rest) ((pos, pos + byteLength own) :: spans)

theorem blank_byte {c : Char} (space : isAsciiWhitespace c = true) : byteLength [c] = 1 := by
  simp only [isAsciiWhitespace, decide_eq_true_eq] at space
  obtain rfl | rfl | rfl | rfl | rfl := space <;> rfl

theorem byte_length_cons (c : Char) (s : List Char) :
    byteLength (c :: s) = byteLength [c] + byteLength s := byte_length_append [c] s

theorem byte_length_pos {s : List Char} (present : s ≠ []) : 0 < byteLength s := by
  obtain ⟨c, rest, rfl⟩ := List.exists_cons_of_ne_nil present
  have size := c.utf8Size_pos
  have one : byteLength [c] = c.utf8Size := Nat.zero_add _
  rw [byte_length_cons]
  omega

theorem tokenize_tiled {fuel pos : Nat} {out all : List SpannedToken} {s : List Char}
    (read : tokenizeFrom fuel pos out s = some all) :
    ∃ more, all = out ++ more ∧ Tiled pos s (more.map fun st => (st.start, st.stop)) := by
  induction fuel generalizing pos out s with
  | zero =>
    cases s with
    | nil =>
      cases read
      exact ⟨[], (List.append_nil _).symm, .done pos⟩
    | cons c rest => cases read
  | succ fuel ih =>
    cases s with
    | nil =>
      cases read
      exact ⟨[], (List.append_nil _).symm, .done pos⟩
    | cons c rest =>
      unfold tokenizeFrom at read
      split at read
      · rename_i space
        obtain ⟨more, split, tiled⟩ := ih read
        exact ⟨more, split, .blank space (by rwa [blank_byte space])⟩
      · split at read
        · cases read
        · rename_i token text after next
          have undotted : after.head? ≠ some '.' := by
            intro dotted
            rw [dot_no_tokens dotted] at read
            cases read
          obtain ⟨split, lexeme⟩ := next_token_sound next undotted
          obtain ⟨more, splitAll, tiled⟩ := ih read
          refine ⟨⟨token, pos, pos + byteLength text⟩ :: more, by simp [splitAll], ?_⟩
          rw [split]
          exact .token (lexeme_present lexeme) tiled

section Tiled
variable {pos : Nat} {s : List Char} {spans : List (Nat × Nat)}

theorem Tiled.bounded (tiled : Tiled pos s spans) : ∀ span ∈ spans, ∃ before own after,
    s = before ++ own ++ after ∧ own ≠ [] ∧ span.1 = pos + byteLength before ∧
      span.2 = pos + byteLength (before ++ own) := by
  induction tiled with
  | done => simp
  | @blank pos c rest spans space others ih =>
    intro span mem
    obtain ⟨before, own, after, rfl, present, start, stop⟩ := ih span mem
    refine ⟨c :: before, own, after, rfl, present, ?_, ?_⟩
    · rw [start, byte_length_cons c before, Nat.add_assoc]
    · rw [stop, List.cons_append, byte_length_cons c (before ++ own), Nat.add_assoc]
  | @token pos own rest spans present others ih =>
    intro span mem
    rcases List.mem_cons.mp mem with rfl | later
    · exact ⟨[], own, rest, rfl, present, rfl, rfl⟩
    · obtain ⟨before, own', after, rfl, present', start, stop⟩ := ih span later
      refine ⟨own ++ before, own', after, by simp, present', ?_, ?_⟩
      · rw [start, byte_length_append, Nat.add_assoc]
      · rw [stop, List.append_assoc, byte_length_append own, Nat.add_assoc]

theorem Tiled.increasing (tiled : Tiled pos s spans) :
    spans.Pairwise fun a b => a.1 < b.1 ∧ a.2 ≤ b.1 := by
  induction tiled with
  | done => exact .nil
  | blank space others ih => exact ih
  | @token pos own rest spans present others ih =>
    refine List.pairwise_cons.mpr ⟨fun span mem => ?_, ih⟩
    obtain ⟨before, _, _, _, _, start, _⟩ := others.bounded span mem
    have long := byte_length_pos present
    simp only
    omega

theorem Tiled.covering (tiled : Tiled pos s spans) {before after : List Char} {c : Char}
    (split : s = before ++ c :: after) (solid : isAsciiWhitespace c = false) :
    ∃ span ∈ spans, span.1 ≤ pos + byteLength before ∧
      pos + byteLength (before ++ [c]) ≤ span.2 := by
  induction tiled generalizing before with
  | done => simp at split
  | @blank pos d rest spans space others ih =>
    cases before with
    | nil =>
      obtain ⟨rfl, -⟩ := List.cons.inj split
      rw [space] at solid
      cases solid
    | cons e before =>
      obtain ⟨rfl, rest⟩ := List.cons.inj split
      obtain ⟨span, mem, start, stop⟩ := ih rest
      refine ⟨span, mem, ?_, ?_⟩
      · rwa [byte_length_cons, ← Nat.add_assoc]
      · rwa [List.cons_append, byte_length_cons, ← Nat.add_assoc]
  | @token pos own rest spans present others ih =>
    -- the character stands behind the first token, or in it
    have later : ∀ front, before = own ++ front → rest = front ++ c :: after →
        ∃ span ∈ (pos, pos + byteLength own) :: spans, span.1 ≤ pos + byteLength before ∧
          pos + byteLength (before ++ [c]) ≤ span.2 := by
      rintro front rfl behind
      obtain ⟨span, mem, start, stop⟩ := ih behind
      refine ⟨span, List.mem_cons_of_mem _ mem, ?_, ?_⟩
      · rwa [byte_length_append, ← Nat.add_assoc]
      · rwa [List.append_assoc, byte_length_append own, ← Nat.add_assoc]
    rcases List.append_eq_append_iff.mp split with ⟨front, here, behind⟩ | ⟨more, here, behind⟩
    · exact later front here behind
    · cases more with
      | nil => exact later [] (by simpa using here.symm) behind.symm
      | cons d more =>
        obtain ⟨rfl, -⟩ := List.cons.inj behind
        refine ⟨_, List.mem_cons_self, Nat.le_add_right _ _, ?_⟩
        have own_length := byte_length_append before (c :: more)
        have own_start := byte_length_append before [c]
        rw [byte_length_cons] at own_length
        simp only [here]
        omega

end Tiled

theorem lexed_spans_sound (expr : String) : SpansSound expr.toList (lexCheckExpr expr) := by
  cases read : tokenizeSpanned expr.toList with
  | none =>
    have nothing : lexCheckExpr expr = [] := by rw [lexCheckExpr, read]
    rw [nothing]
    exact ⟨by simp, .nil, fun present => absurd rfl present⟩
  | some all =>
    obtain ⟨_, rfl, tiled⟩ := tokenize_tiled read
    have lexed : lexCheckExpr expr =
        all.map fun st => ⟨tokenKind st.token, st.start, st.stop⟩ := by rw [lexCheckExpr, read]
    rw [lexed]
    refine ⟨?_, ?_, ?_⟩
    · intro t mem
      obtain ⟨st, listed, rfl⟩ := List.mem_map.mp mem
      obtain ⟨before, own, after, split, present, start, stop⟩ :=
        tiled.bounded _ (List.mem_map_of_mem listed)
      exact ⟨before, own, after, split, present, by simpa using start, by simpa using stop⟩
    · have increasing := tiled.increasing
      rw [List.pairwise_map] at increasing ⊢
      exact increasing
    · intro _ before c after split solid
      obtain ⟨span, mem, start, stop⟩ := tiled.covering split solid
      obtain ⟨st, listed, rfl⟩ := List.mem_map.mp mem
      refine ⟨⟨tokenKind st.token, st.start, st.stop⟩, List.mem_map_of_mem listed, ?_, ?_⟩
      · simpa using start
      · simpa using stop

/-! Blanks around the text -/

theorem word_code {c : Char} (word : isAsciiWord c = true) :
    (48 ≤ c.toNat ∧ c.toNat ≤ 57) ∨ (65 ≤ c.toNat ∧ c.toNat ≤ 90) ∨ c.toNat = 95 ∨
      (97 ≤ c.toNat ∧ c.toNat ≤ 122) := by
  simp only [isAsciiWord, decide_eq_true_eq] at word
  rcases word with alphanumeric | rfl
  · delta Char.isAlphanum Char.isAlpha Char.isUpper Char.isLower Char.isDigit at alphanumeric
    simp only [Bool.or_eq_true, Bool.and_eq_true, decide_eq_true_eq, ge_iff_le,
      UInt32.le_iff_toNat_le] at alphanumeric
    have value : c.toNat = c.val.toNat := rfl
    have codes : ('0').val.toNat = 48 ∧ ('9').val.toNat = 57 ∧ ('A').val.toNat = 65 ∧
        ('Z').val.toNat = 90 ∧ ('a').val.toNat = 97 ∧ ('z').val.toNat = 122 :=
      ⟨rfl, rfl, rfl, rfl, rfl, rfl⟩
    omega
  · decide

theorem blank_no_word {c : Char} (space : isWhitespace c = true) : isAsciiWord c = false := by
  rw [Bool.eq_false_iff]
  intro word
  have codes := word_code word
  simp only [isWhitespace, decide_eq_true_eq] at space
  omega

theorem blank_no_mark {c : Char} (space : isWhitespace c = true) :
    c ≠ '.' ∧ c ≠ '\'' ∧ c ∉ ['<', '>', '=', '!'] := by
  refine ⟨?_, ?_, fun mark => ?_⟩
  · rintro rfl
    cases space
  · rintro rfl
    cases space
  · simp only [List.mem_cons, List.not_mem_nil, or_false] at mark
    rcases mark with rfl | rfl | rfl | rfl <;> cases space

theorem operator_marks {op : CheckOp} {text : List Char} (written : OperatorText op text) :
    ∀ c ∈ text, c ∈ ['<', '>', '=', '!'] := by
  cases written <;> simp

/-- White space that is no blank of the lexer stops it. -/
theorem odd_blank_unread {c : Char} (space : isWhitespace c = true)
    (odd : isAsciiWhitespace c = false) (out : List SpannedToken) (s : List Char) :
    nextToken out (c :: s) = none := by
  by_cases wide : 127 < c.toNat
  · exact (wide_unread wide out s).2
  · have tab : c = '\x0b' := by
      have code : c.toNat ∈ [9, 10, 11, 12, 13, 32] := by
        simp only [isWhitespace, decide_eq_true_eq] at space
        simp only [List.mem_cons, List.not_mem_nil, or_false]
        omega
      have named : ∀ {d : Char}, c.toNat = d.toNat → c = d := fun same => Char.toNat_inj.mp same
      simp only [List.mem_cons, List.not_mem_nil, or_false] at code
      rcases code with code | code | code | code | code | code
      · rw [named (d := '\t') code] at odd
        cases odd
      · rw [named (d := '\n') code] at odd
        cases odd
      · exact named code
      · rw [named (d := '\x0c') code] at odd
        cases odd
      · rw [named (d := '\r') code] at odd
        cases odd
      · rw [named (d := ' ') code] at odd
        cases odd
    subst tab
    rfl

/-- A token goes on being read as it is when white space follows the text. -/
theorem lexeme_before_blank {before : Option CheckToken} {token : CheckToken}
    {own rest blanks : List Char} (lexeme : Lexeme before token own rest)
    (spaced : ∀ c ∈ blanks, isWhitespace c = true) : Lexeme before token own (rest ++ blanks) := by
  have headed : ∀ c, (rest ++ blanks).head? = some c →
      rest.head? = some c ∨ isWhitespace c = true := by
    intro c head
    cases rest with
    | nil => exact .inr (spaced c (List.mem_of_mem_head? head))
    | cons d rest => exact .inl head
  have number : ∀ n : NumberParts, n.EndsAt rest.head? → n.EndsAt (rest ++ blanks).head? := by
    intro n ends c head
    rcases headed c head with own | space
    · exact ends c own
    · have plain := blank_no_word space
      refine ⟨?_, (blank_no_mark space).1, fun _ => ⟨?_, ?_⟩⟩
      · rw [Bool.eq_false_iff]
        intro digit
        simp [isAsciiWord, Char.isAlphanum, digit] at plain
      · rintro rfl
        cases space
      · rintro rfl
        cases space
  have wordEnd : (∀ d, rest.head? = some d → isAsciiWord d = false) →
      ∀ d, (rest ++ blanks).head? = some d → isAsciiWord d = false := by
    intro ends d head
    rcases headed d head with own | space
    · exact ends d own
    · exact blank_no_word space
  cases lexeme with
  | opening => exact .opening _
  | closing => exact .closing _
  | separator => exact .separator _
  | string content closed =>
    refine .string content fun head => ?_
    rcases headed _ head with own | space
    · exact closed own
    · cases space
  | operator written longest =>
    refine .operator written fun c head longer long => ?_
    rcases headed c head with own | space
    · exact longest c own longer long
    · exact (blank_no_mark space).2.2
        (operator_marks long c (List.mem_append_right _ (List.mem_singleton_self c)))
  | unsigned n plain leading ends => exact .unsigned n plain leading (number n ends)
  | signed n sign slot ends => exact .signed n sign slot (number n ends)
  | keyword listed first others ends same => exact .keyword listed first others (wordEnd ends) same
  | identifier first others ends free => exact .identifier first others (wordEnd ends) free

theorem blanks_skipped {fuel pos : Nat} {out : List SpannedToken} {blanks s : List Char}
    (spaced : ∀ c ∈ blanks, isAsciiWhitespace c = true) (enough : (blanks ++ s).length ≤ fuel) :
    ∃ fuel' pos', s.length ≤ fuel' ∧
      tokenizeFrom fuel pos out (blanks ++ s) = tokenizeFrom fuel' pos' out s := by
  induction blanks generalizing fuel pos with
  | nil => exact ⟨fuel, pos, enough, rfl⟩
  | cons c blanks ih =>
    cases fuel with
    | zero => exact absurd enough (by simp)
    | succ fuel =>
      obtain ⟨fuel', pos', enough', same⟩ := @ih fuel (pos + 1)
        (fun d mem => spaced d (List.mem_cons_of_mem c mem)) (Nat.le_of_succ_le_succ enough)
      refine ⟨fuel', pos', enough', ?_⟩
      rw [List.cons_append, tokenizeFrom, if_pos (spaced c List.mem_cons_self), same]

theorem blanks_refused {fuel pos : Nat} {out : List SpannedToken} {blanks s : List Char}
    (spaced : ∀ c ∈ blanks, isWhitespace c = true) {c : Char} (mem : c ∈ blanks)
    (odd : isAsciiWhitespace c = false) : tokenizeFrom fuel pos out (blanks ++ s) = none := by
  induction blanks generalizing fuel pos with
  | nil => cases mem
  | cons d blanks ih =>
    cases fuel with
    | zero => rfl
    | succ fuel =>
      rw [List.cons_append, tokenizeFrom]
      split
      · rename_i space
        refine ih (fun e later => spaced e (List.mem_cons_of_mem d later)) ?_
        rcases List.mem_cons.mp mem with rfl | later
        · rw [odd] at space
          cases space
        · exact later
      · rename_i solid
        rw [odd_blank_unread (spaced d List.mem_cons_self) (Bool.eq_false_iff.mpr solid)]

theorem tokenize_before_blank {before : Option CheckToken} {s : List Char}
    {tokens : List CheckToken} (lexes : Lexes before s tokens) {blanks : List Char}
    (spaced : ∀ c ∈ blanks, isWhitespace c = true) {fuel pos : Nat} {out : List SpannedToken}
    (last : out.getLast?.map SpannedToken.token = before)
    (enough : (s ++ blanks).length ≤ fuel) :
    ∃ fuel' pos' more, blanks.length ≤ fuel' ∧ more.map SpannedToken.token = tokens ∧
      tokenizeFrom fuel pos out (s ++ blanks) = tokenizeFrom fuel' pos' (out ++ more) blanks := by
  induction lexes generalizing fuel pos out with
  | done before => exact ⟨fuel, pos, [], enough, rfl, by simp⟩
  | @blank before c rest tokens space others ih =>
    cases fuel with
    | zero => exact absurd enough (by simp)
    | succ fuel =>
      obtain ⟨fuel', pos', more, enough', same, read⟩ :=
        @ih fuel (pos + 1) out last (Nat.le_of_succ_le_succ enough)
      refine ⟨fuel', pos', more, enough', same, ?_⟩
      rw [List.cons_append, tokenizeFrom, if_pos space, read]
  | @token before token own rest tokens lexeme others ih =>
    subst last
    obtain ⟨c, tail, split⟩ := List.exists_cons_of_ne_nil (lexeme_present lexeme)
    have next := next_token_complete (lexeme_before_blank lexeme spaced)
    cases fuel with
    | zero =>
      rw [split] at enough
      exact absurd enough (by simp)
    | succ fuel =>
      have shorter : (rest ++ blanks).length ≤ fuel := by
        rw [split] at enough
        simp only [List.cons_append, List.length_cons, List.length_append] at enough ⊢
        omega
      let spanned : SpannedToken := ⟨token, pos, pos + byteLength own⟩
      obtain ⟨fuel', pos', more, enough', same, read⟩ := @ih fuel (pos + byteLength own)
        (out ++ [spanned]) (last_token out spanned) shorter
      refine ⟨fuel', pos', spanned :: more, enough', by rw [List.map_cons, same], ?_⟩
      rw [split, List.cons_append] at next
      have solid : ¬ isAsciiWhitespace c = true := by
        intro space
        rw [blank_no_token space] at next
        cases next
      rw [split, List.cons_append, List.cons_append, tokenizeFrom, if_neg solid,
        List.append_assoc, next, ← split]
      simpa using read

/-! The lexer beside the parser -/

theorem trimmed_off_blank (text : List Char) : ∀ c ∈ trimmedOff text, isWhitespace c = true := by
  intro c mem
  rcases List.mem_append.mp mem with front | back
  · exact List.mem_takeWhile_imp front
  · exact List.mem_takeWhile_imp back

section Between
variable {leading core trailing : List Char} {tokens : List CheckToken}

theorem tokenize_between (front : ∀ c ∈ leading, isAsciiWhitespace c = true)
    (lexes : Lexes none core tokens) (back : ∀ c ∈ trailing, isWhitespace c = true)
    (plain : ∀ c ∈ trailing, isAsciiWhitespace c = true) :
    ∃ all, tokenizeSpanned (leading ++ (core ++ trailing)) = some all ∧
      all.map SpannedToken.token = tokens := by
  obtain ⟨fuel, pos, enough, start⟩ := @blanks_skipped _ 0 [] _ _ front
    (Nat.le_refl (leading ++ (core ++ trailing)).length)
  obtain ⟨fuel', pos', more, enough', same, read⟩ :=
    @tokenize_before_blank _ _ _ lexes _ back _ pos [] rfl enough
  obtain ⟨fuel'', pos'', _, ended⟩ := @blanks_skipped _ pos' more _ [] plain
    (by simpa using enough')
  refine ⟨more, ?_, same⟩
  rw [tokenizeSpanned, start, read, List.nil_append, ← List.append_nil trailing, ended]
  cases fuel'' <;> rfl

theorem tokenize_odd (front : ∀ c ∈ leading, isWhitespace c = true)
    (lexes : Lexes none core tokens) (back : ∀ c ∈ trailing, isWhitespace c = true) {c : Char}
    (mem : c ∈ leading ++ trailing) (odd : isAsciiWhitespace c = false) :
    tokenizeSpanned (leading ++ (core ++ trailing)) = none := by
  by_cases plain : ∀ d ∈ leading, isAsciiWhitespace d = true
  · have late : c ∈ trailing := by
      refine (List.mem_append.mp mem).resolve_left fun early => ?_
      rw [plain c early] at odd
      cases odd
    obtain ⟨fuel, pos, enough, start⟩ := @blanks_skipped _ 0 [] _ _ plain
      (Nat.le_refl (leading ++ (core ++ trailing)).length)
    obtain ⟨fuel', pos', more, _, _, read⟩ :=
      @tokenize_before_blank _ _ _ lexes _ back _ pos [] rfl enough
    have refused := @blanks_refused fuel' pos' more _ [] back _ late odd
    rw [tokenizeSpanned, start, read, List.nil_append, ← List.append_nil trailing, refused]
  · obtain ⟨d, early, other⟩ := not_forall₂.mp plain
    exact blanks_refused front early (Bool.eq_false_iff.mpr other)

end Between

theorem lexed_iff {expr : String} {tree : CheckExpr} (derives : Derives 1 (trim expr.toList) tree) :
    lexCheckExpr expr ≠ [] ↔ ∀ c ∈ trimmedOff expr.toList, isAsciiWhitespace c = true := by
  obtain ⟨tokens, lexes, word⟩ := derives
  have some_token : tokens ≠ [] := by
    rintro rfl
    have parsed := (parse_or_iff _ _ _).mpr word
    cases parsed
  have blank := trimmed_off_blank expr.toList
  have split := trimmed_split expr.toList
  unfold trimmedOff at blank ⊢
  generalize expr.toList.takeWhile isWhitespace = leading at *
  generalize (expr.toList.dropWhile isWhitespace).reverse.takeWhile isWhitespace = trailing at *
  have front : ∀ c ∈ leading, isWhitespace c = true := fun c mem =>
    blank c (List.mem_append_left _ mem)
  have back : ∀ c ∈ trailing.reverse, isWhitespace c = true := fun c mem =>
    blank c (List.mem_append_right _ (List.mem_reverse.mp mem))
  constructor
  · intro present c mem
    by_contra odd
    refine present ?_
    have turned : c ∈ leading ++ trailing.reverse := by simpa using mem
    rw [lexCheckExpr, split, tokenize_odd front lexes back turned (Bool.eq_false_iff.mpr odd)]
  · intro plain
    obtain ⟨all, read, same⟩ := tokenize_between (fun c mem => plain c (List.mem_append_left _ mem))
      lexes back fun c mem => plain c (List.mem_append_right _ (List.mem_reverse.mp mem))
    rw [← split] at read
    rw [lexCheckExpr, read]
    rintro none
    rw [List.map_eq_nil_iff.mp none, List.map_nil] at same
    exact some_token same.symm

/-- Spans are sound for every text. What the parser takes is highlighted just where
    `trim` takes off nothing but blanks of the lexer. -/
theorem highlight_iff (expr : String) :
    (SpansSound expr.toList (lexCheckExpr expr) ∧
      (parseCheckExpr expr ≠ .unparseable → lexCheckExpr expr ≠ [])) ↔
    ((∃ tree, Derives 1 (trim expr.toList) tree) →
      ∀ c ∈ trimmedOff expr.toList, isAsciiWhitespace c = true) := by
  have parsed : parseCheckExpr expr ≠ .unparseable ↔
      ∃ tree, Derives 1 (trim expr.toList) tree := by
    constructor
    · intro recognised
      exact ⟨_, (parsed_iff expr _).mp ⟨rfl, recognised⟩⟩
    · rintro ⟨tree, derives⟩
      obtain ⟨rfl, recognised⟩ := (parsed_iff expr tree).mpr derives
      exact recognised
  rw [parsed, and_iff_right (lexed_spans_sound expr)]
  exact forall_congr' fun ⟨_, derives⟩ => lexed_iff derives

/-- A no-break space in front. -/
theorem no_break_space_unlexed :
    parseCheckExpr "\u00a0price > 0" ≠ .unparseable ∧ lexCheckExpr "\u00a0price > 0" = [] := by
  have parsed : parseCheckExpr "\u00a0price > 0" = .compare "price" .gt (.integer 0) := by rfl
  refine ⟨?_, by decide⟩
  rw [parsed]
  exact fun same => nomatch same

end Vespertide
