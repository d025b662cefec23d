import Vespertide.FillCasts

/-!
The casts of a default are read from the last one inwards. What stands inside the
literals and brackets of the operand is never read as one of them, so every cast
of the chain is rendered, in order, around the operand as it stands.
-/
namespace Vespertide
open Text

theorem outside_calm {text : List Char} (closed : Outside text)
    (ended : text.getLast? ≠ some ':') : Calm (scanCasts ⟨false, 0, none, none⟩ 0 text) := by
  have scanned := scanned text
  have place := scanned.place.symm.trans closed
  refine ⟨congrArg Prod.fst place, congrArg Prod.snd place, ?_⟩
  cases pending : (scanCasts ⟨false, 0, none, none⟩ 0 text).pendingColon with
  | none => rfl
  | some i =>
    obtain ⟨-, before, rfl, -⟩ := scanned.pending i pending
    simp at ended

theorem free_uncast {text : List Char} (free : NoCast text) : findLastTopLevelCast text = none := by
  simp [findLastTopLevelCast, no_cast_iff.mp free]

theorem blanks_place {blanks : List Char} (blank : ∀ c ∈ blanks, isWhitespace c = true)
    (here : Bool × Nat) : blanks.foldl place here = here := by
  induction blanks with
  | nil => rfl
  | cons c blanks ih =>
    obtain ⟨first, later⟩ := List.forall_mem_cons.mp blank
    have mark := CastAtom.blank_token first
    have same : place here c = here := by
      simp only [List.mem_cons, List.not_mem_nil, or_false, not_or] at mark
      obtain ⟨inQuote, depth⟩ := here
      cases inQuote <;> simp [place, mark]
    rw [List.foldl_cons, same, ih later]

theorem type_trimmed {type : List Char} (closed : Outside type) (free : NoCast type) :
    ((type.takeWhile isWhitespace ++ trim type).foldl place (false, 0)).1 = false ∧
      NoCast (type.takeWhile isWhitespace ++ trim type) := by
  have blank : ∀ c ∈ ((type.dropWhile isWhitespace).reverse.takeWhile isWhitespace).reverse,
      isWhitespace c = true := fun c mem => List.mem_takeWhile_imp (List.mem_reverse.mp mem)
  have split := trimmed_split type
  rw [← List.append_assoc] at split
  constructor
  · rw [split, Outside, List.foldl_append, blanks_place blank] at closed
    rw [closed]
  · intro before rest same
    rw [same] at split
    rw [List.append_assoc] at split
    exact free before _ split

/-! Chains -/

/-- What is cast, and the types it is cast to. A colon in front of a cast would be taken for
    the first half of it. -/
structure CastSequence where
  operand : List Char
  types : List (List Char)
  present : operand ≠ []
  trimmed : trim operand = operand
  cast : types ≠ []
  named : ∀ type ∈ types, trim type ≠ []
  closed : ∀ part ∈ operand :: types, Outside part
  free : ∀ part ∈ operand :: types, NoCast part
  ended : ∀ part ∈ operand :: types.dropLast, part.getLast? ≠ some ':'

def CastSequence.text (s : CastSequence) : List Char := s.operand ++ castChain s.types

theorem chain_snoc (types : List (List Char)) (type : List Char) :
    castChain (types ++ [type]) = castChain types ++ ':' :: ':' :: type := by
  simp [castChain]

section Chain
variable {operand : List Char} {types : List (List Char)}

theorem chain_outside (closed : ∀ part ∈ operand :: types, Outside part) :
    Outside (operand ++ castChain types) := by
  induction types using List.reverseRecOn with
  | nil =>
    rw [castChain, List.flatMap_nil, List.append_nil]
    exact closed operand List.mem_cons_self
  | append_singleton types type ih =>
    have earlier : Outside (operand ++ castChain types) := ih fun part mem =>
      closed part (List.mem_append_left [type] mem)
    have last : Outside type := closed type (by simp)
    rw [chain_snoc, ← List.append_assoc, Outside, List.foldl_append, earlier]
    exact last

theorem chain_ended (named : ∀ type ∈ types, trim type ≠ [])
    (ended : ∀ part ∈ operand :: types, part.getLast? ≠ some ':') :
    (operand ++ castChain types).getLast? ≠ some ':' := by
  rcases List.eq_nil_or_concat types with rfl | ⟨types, type, rfl⟩
  · rw [castChain, List.flatMap_nil, List.append_nil]
    exact ended operand List.mem_cons_self
  · have present : type ≠ [] := by
      rintro rfl
      exact named [] (by simp) rfl
    have last : (operand ++ castChain (types ++ [type])).getLast? = type.getLast? := by
      rw [chain_snoc, ← List.append_assoc, List.append_cons, List.append_cons,
        List.getLast?_append_of_ne_nil _ present]
    rw [List.concat_eq_append, last]
    exact ended type (by simp)

end Chain

section Peeling
variable (lowercase : List Char → List Char)

theorem parse_trim (expr : List Char) :
    parsePgTypeCast lowercase (trim expr) = parsePgTypeCast lowercase expr := by
  rw [parsePgTypeCast, parsePgTypeCast, trim_trim]

variable {lowercase} (kept : ∀ t, t ≠ [] → lowercase t ≠ [])
  {operand : List Char} (present : operand ≠ []) (trimmed : trim operand = operand)
include kept present trimmed

omit kept in
theorem chain_trimmed (types : List (List Char)) {type : List Char} (visible : trim type ≠ []) :
    trim (operand ++ castChain (types ++ [type])) =
      operand ++ castChain types ++ ':' :: ':' :: (type.takeWhile isWhitespace ++ trim type) := by
  have tight : Tight (operand ++ castChain types ++ [':', ':']) := by
    constructor
    · intro c first
      rw [List.append_assoc, List.head?_append_of_ne_nil _ present] at first
      exact (trim_eq_self_iff.mp trimmed).1 c first
    · intro c last
      simp at last
      exact last ▸ rfl
  have shape := trim_append (by simp) tight visible
  simpa [chain_snoc] using shape

omit kept in
theorem chain_present (types : List (List Char)) : trim (operand ++ castChain types) ≠ [] := by
  obtain ⟨c, rest, rfl⟩ := List.exists_cons_of_ne_nil present
  have head : (trim (c :: rest ++ castChain types)).head? = some c :=
    trim_head rfl ((trim_eq_self_iff.mp trimmed).1 c rfl)
  intro empty
  rw [empty] at head
  cases head

/-- The cast that is read first is the last of the chain. -/
theorem parse_last {types : List (List Char)} {type : List Char}
    (named : ∀ other ∈ types ++ [type], trim other ≠ [])
    (closed : ∀ part ∈ operand :: (types ++ [type]), Outside part) (free : NoCast type)
    (ended : ∀ part ∈ operand :: types, part.getLast? ≠ some ':') :
    parsePgTypeCast lowercase (operand ++ castChain (types ++ [type])) =
      some (trim (operand ++ castChain types), lowercase (trim type)) := by
  have visible : trim type ≠ [] := named type (by simp)
  have front_closed : Outside (operand ++ castChain types) := chain_outside fun part mem =>
    closed part (List.mem_append_left [type] mem)
  have front_ended : (operand ++ castChain types).getLast? ≠ some ':' :=
    chain_ended (fun other mem => named other (List.mem_append_left _ mem)) ended
  obtain ⟨rest_closed, rest_free⟩ := type_trimmed (closed type (by simp)) free
  have type_eq : trim (type.takeWhile isWhitespace ++ trim type) = trim type := by
    have trimmed := @trim_between (type.takeWhile isWhitespace) _ []
      (fun c mem => List.mem_takeWhile_imp mem) (fun _ mem => absurd mem List.not_mem_nil)
      (trim_tight type)
    rwa [List.append_nil] at trimmed
  exact parse_cast kept (chain_trimmed present trimmed types visible)
    (outside_calm front_closed front_ended) rest_closed rest_free rfl type_eq
    (chain_present present trimmed types) visible

/-- The casts in front of the last one, around the operand. -/
theorem chain_peeled {types : List (List Char)} (type : List Char)
    (named : ∀ other ∈ types, trim other ≠ [])
    (closed : ∀ part ∈ operand :: types, Outside part)
    (free : ∀ part ∈ operand :: types, NoCast part)
    (ended : ∀ part ∈ operand :: types, part.getLast? ≠ some ':') (backend : DatabaseBackend) :
    convertCastChain lowercase (trim (operand ++ castChain types)) type backend =
      castsRendered (String.ofList operand)
        ((types.map fun other => String.ofList (lowercase (trim other))) ++ [String.ofList type])
        backend := by
  rw [rendered_snoc]
  induction types using List.reverseRecOn generalizing type with
  | nil =>
    have uncast : parsePgTypeCast lowercase operand = none := by
      rw [parsePgTypeCast, trimmed, free_uncast (free operand List.mem_cons_self)]
      rfl
    rw [castChain, List.flatMap_nil, List.append_nil, trimmed, convert_chain_none uncast]
    cases backend <;> rfl
  | append_singleton types last ih =>
    have parts : ∀ part ∈ operand :: types, part ∈ operand :: (types ++ [last]) := fun part mem =>
      List.mem_append_left [last] mem
    have read := parse_last kept present trimmed named closed (free last (by simp)) fun part mem =>
      ended part (parts part mem)
    rw [← parse_trim] at read
    rw [convert_chain_some read, ih (lowercase (trim last))
      (fun other mem => named other (List.mem_append_left _ mem))
      (fun part mem => closed part (parts part mem)) (fun part mem => free part (parts part mem))
      (fun part mem => ended part (parts part mem)), List.map_append, List.map_singleton,
      rendered_snoc]

end Peeling

/-- The operand holds no cast of its own, and every cast that follows it is rendered around it,
    in order, or dropped. -/
theorem cast_chain_peeled (lowercase : List Char → List Char)
    (kept : ∀ t, t ≠ [] → lowercase t ≠ []) (s : CastSequence) (backend : DatabaseBackend) :
    findLastTopLevelCast s.operand = none ∧
    convertDefaultForBackend lowercase (String.ofList s.text) backend =
      castsRendered (String.ofList s.operand)
        (s.types.map fun type => String.ofList (lowercase (trim type))) backend := by
  obtain ⟨operand, types, present, trimmed, cast, named, closed, free, ended⟩ := s
  obtain rfl | ⟨types, type, rfl⟩ := List.eq_nil_or_concat types
  · exact absurd rfl cast
  rw [List.concat_eq_append] at named closed free ended
  rw [List.dropLast_concat] at ended
  have parts : ∀ part ∈ operand :: types, part ∈ operand :: (types ++ [type]) := fun part mem =>
    List.mem_append_left [type] mem
  have read := parse_last kept present trimmed named closed (free type (by simp)) ended
  have portable : ¬ PortableSpelling (trim (operand ++ castChain (types ++ [type]))) := by
    rw [chain_trimmed present trimmed types (named type (by simp))]
    exact colon_not_portable (by simp)
  refine ⟨free_uncast (free operand List.mem_cons_self), ?_⟩
  simp only [CastSequence.text, List.concat_eq_append]
  rw [convert_plain (by simpa using portable), String.toList_ofList, read]
  simp only [List.map_append, List.map_singleton]
  exact chain_peeled kept present trimmed _
    (fun other mem => named other (List.mem_append_left _ mem))
    (fun part mem => closed part (parts part mem)) (fun part mem => free part (parts part mem))
    ended backend

/-! A call with casts in its brackets, and a doubled quote -/

def coalesced : CastSequence where
  operand := "coalesce(x::int, 'it''s :: (')".toList
  types := ["TEXT".toList, " json ".toList]
  present := by decide
  trimmed := by decide
  cast := by decide
  named := by decide
  closed := by unfold Outside; decide
  free := by simp only [no_cast_iff]; decide
  ended := by decide

theorem coalesced_peeled :
    convertDefaultForBackend (List.map Char.toLower)
        "coalesce(x::int, 'it''s :: (')::TEXT:: json " .mySql =
      "CAST(CAST(coalesce(x::int, 'it''s :: (') AS CHAR) AS JSON)" ∧
    convertDefaultForBackend (List.map Char.toLower)
        "coalesce(x::int, 'it''s :: (')::TEXT:: json " .postgres =
      "coalesce(x::int, 'it''s :: (')::text::json" := by
  have nonempty : ∀ t : List Char, t ≠ [] → t.map Char.toLower ≠ [] := fun t => by simp
  obtain ⟨-, mySql⟩ := cast_chain_peeled (List.map Char.toLower) nonempty coalesced .mySql
  obtain ⟨-, postgres⟩ := cast_chain_peeled (List.map Char.toLower) nonempty coalesced .postgres
  exact ⟨mySql, postgres⟩

end Vespertide
