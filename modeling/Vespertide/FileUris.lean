import Vespertide.Support.Text
import Vespertide.Support.Utf8

/-!
File paths as URIs and back. A path is written into the URI as it is, while the way back
decodes percent triplets; so a path comes back where it holds none.
-/
namespace Vespertide.FileUri

def hexValue (byte : Nat) : Option Nat :=
  if 0x30 ≤ byte ∧ byte ≤ 0x39 then some (byte - 0x30)
  else if 0x61 ≤ byte ∧ byte ≤ 0x66 then some (byte - 0x61 + 10)
  else if 0x41 ≤ byte ∧ byte ≤ 0x46 then some (byte - 0x41 + 10)
  else none

def hexPair : List Nat → Option Nat
  | h :: l :: _ => do
      let hi ← hexValue h
      let lo ← hexValue l
      some (hi * 16 + lo)
  | _ => none

/-- Triplets are replaced by their byte; what is no triplet is left. -/
def decodeTriplets : List Nat → List Nat
  | [] => []
  | b :: rest =>
      if b = 0x25 then
        match hexPair rest with
        | some byte => byte :: decodeTriplets (rest.drop 2)
        | none => b :: decodeTriplets rest
      else b :: decodeTriplets rest
termination_by bytes => bytes.length
decreasing_by all_goals simp only [List.length_cons, List.length_drop]; omega

def percentDecode (input : String) : String :=
  String.ofList (Utf8.lossy .ready (decodeTriplets (input.toList.flatMap Utf8.encode)))

def fileScheme : List Char := "file://".toList

section
variable {Uri : Type}

/-- `Uri::from_str` accepts a text or does not. -/
def pathToUri (fromStr : String → Option Uri) (path : String) : Option Uri :=
  let pathText := path.toList.map fun c => if c = '\\' then '/' else c
  let pathText := if pathText.head? = some '/' then pathText else '/' :: pathText
  fromStr (String.ofList (fileScheme ++ pathText))

/-- Off Windows, the decoded text is the path. -/
def uriToPath (text : Uri → String) (uri : Uri) : Option String :=
  (Text.after fileScheme (text uri).toList).map fun raw =>
    percentDecode (String.ofList raw)

end

def HasTriplet (s : List Char) : Prop :=
  ∃ front h l back, s = front ++ '%' :: h :: l :: back ∧
    (hexValue h.toNat).isSome ∧ (hexValue l.toNat).isSome

/-! Triplets among characters -/

def digitPair (s : List Char) : Option Nat := hexPair (s.map Char.toNat)

/-- The text with its triplets read, each as one byte. -/
def pieces : List Char → List Utf8.Piece
  | [] => []
  | c :: rest =>
      if c = '%' then
        match digitPair rest with
        | some byte => .byte byte :: pieces (rest.drop 2)
        | none => .char c :: pieces rest
      else .char c :: pieces rest
termination_by s => s.length
decreasing_by all_goals simp only [List.length_cons, List.length_drop]; omega

theorem hex_small {byte : Nat} (hex : (hexValue byte).isSome) : byte < 0x80 := by
  unfold hexValue at hex
  split at hex
  · omega
  split at hex
  · omega
  split at hex
  · omega
  · cases hex

theorem encode_small {c : Char} (small : c.toNat < 0x80) : Utf8.encode c = [c.toNat] := by
  rw [Utf8.encode]
  exact if_pos small

theorem hex_pair_some {s : List Char} {byte : Nat} (read : digitPair s = some byte) :
    ∃ h l back, s = h :: l :: back ∧ (hexValue h.toNat).isSome ∧ (hexValue l.toNat).isSome := by
  match s with
  | [] => cases read
  | [_] => cases read
  | h :: l :: back =>
    simp only [digitPair, List.map_cons, hexPair, Option.bind_eq_bind,
      Option.bind_eq_some_iff] at read
    obtain ⟨hi, high, lo, low, _⟩ := read
    exact ⟨h, l, back, rfl, by rw [high]; rfl, by rw [low]; rfl⟩

theorem encode_large {c : Char} (large : ¬ c.toNat < 0x80) : ∀ b ∈ Utf8.encode c, 0x80 ≤ b := by
  intro b mem
  simp only [Utf8.encode, if_neg large] at mem
  split at mem
  · simp only [List.mem_cons, List.not_mem_nil, or_false] at mem
    omega
  split at mem
  · simp only [List.mem_cons, List.not_mem_nil, or_false] at mem
    omega
  · simp only [List.mem_cons, List.not_mem_nil, or_false] at mem
    omega

theorem hex_none {b : Nat} (large : 0x80 ≤ b) : hexValue b = none := by
  by_contra some_value
  have small := hex_small (Option.isSome_iff_ne_none.mpr some_value)
  omega

theorem hex_pair_first {b : Nat} (large : 0x80 ≤ b) (rest : List Nat) :
    hexPair (b :: rest) = none := by
  cases rest with
  | nil => rfl
  | cons l rest => simp only [hexPair, hex_none large, Option.bind_eq_bind, Option.bind_none]

theorem hex_pair_second (h : Nat) {b : Nat} (large : 0x80 ≤ b) (rest : List Nat) :
    hexPair (h :: b :: rest) = none := by
  simp only [hexPair, hex_none large, Option.bind_eq_bind, Option.bind_none]
  cases hexValue h <;> rfl

theorem hex_pair_encoded (s : List Char) :
    hexPair (s.flatMap Utf8.encode) = digitPair s := by
  have large_head : ∀ c : Char, ¬ c.toNat < 0x80 → ∃ b bs, Utf8.encode c = b :: bs ∧ 0x80 ≤ b := by
    intro c large
    obtain ⟨b, bs, split, _⟩ := Utf8.encode_head c
    exact ⟨b, bs, split, encode_large large b (by rw [split]; exact List.mem_cons_self)⟩
  cases s with
  | nil => rfl
  | cons h rest =>
    rw [digitPair, List.flatMap_cons, List.map_cons]
    by_cases small : h.toNat < 0x80
    · rw [encode_small small, List.singleton_append]
      cases rest with
      | nil => rfl
      | cons l back =>
        rw [List.flatMap_cons, List.map_cons]
        by_cases small_too : l.toNat < 0x80
        · rw [encode_small small_too, List.singleton_append]
          rfl
        · obtain ⟨b, bs, split, large⟩ := large_head l small_too
          rw [split, List.cons_append, hex_pair_second _ large,
            hex_pair_second _ (Nat.le_of_not_lt small_too)]
    · obtain ⟨b, bs, split, large⟩ := large_head h small
      rw [split, List.cons_append, hex_pair_first large, hex_pair_first (Nat.le_of_not_lt small)]

theorem decode_passes {bytes : List Nat} (other : ∀ b ∈ bytes, b ≠ 0x25) (rest : List Nat) :
    decodeTriplets (bytes ++ rest) = bytes ++ decodeTriplets rest := by
  induction bytes with
  | nil => rfl
  | cons b bytes ih =>
    rw [List.cons_append, decodeTriplets, if_neg (other b List.mem_cons_self),
      ih fun c mem => other c (List.mem_cons_of_mem b mem), List.cons_append]

theorem encode_no_percent {c : Char} (other : c ≠ '%') : ∀ b ∈ Utf8.encode c, b ≠ 0x25 := by
  intro b mem
  by_cases small : c.toNat < 0x80
  · rw [encode_small small] at mem
    obtain rfl := List.mem_singleton.mp mem
    intro percent
    exact other (Char.toNat_inj.mp percent)
  · have large := encode_large small b mem
    omega

theorem decode_pieces (s : List Char) :
    decodeTriplets (s.flatMap Utf8.encode) = (pieces s).flatMap Utf8.Piece.bytes := by
  induction s using pieces.induct with
  | case1 => simp [pieces, decodeTriplets]
  | case2 rest byte read ih =>
    obtain ⟨h, l, back, rfl, high, low⟩ := hex_pair_some read
    have tail : ((h :: l :: back).flatMap Utf8.encode).drop 2 = back.flatMap Utf8.encode := by
      rw [List.flatMap_cons, List.flatMap_cons, encode_small (hex_small high),
        encode_small (hex_small low)]
      rfl
    have percent : Utf8.encode '%' = [0x25] := rfl
    rw [List.flatMap_cons, percent, List.singleton_append, decodeTriplets, if_pos rfl,
      hex_pair_encoded, read, pieces, if_pos rfl, read]
    simp only
    rw [tail, List.flatMap_cons]
    exact congrArg (byte :: ·) ih
  | case3 rest read ih =>
    have percent : Utf8.encode '%' = [0x25] := rfl
    rw [List.flatMap_cons, percent, List.singleton_append, decodeTriplets, if_pos rfl,
      hex_pair_encoded, read, pieces, if_pos rfl, read, ih]
    rfl
  | case4 c rest other ih =>
    rw [List.flatMap_cons, decode_passes (encode_no_percent other), ih, pieces, if_neg other]
    rfl

theorem pieces_length (s : List Char) : (pieces s).length ≤ s.length := by
  induction s using pieces.induct with
  | case1 => simp [pieces]
  | case2 rest byte read ih =>
    rw [pieces, if_pos rfl, read, List.length_cons, List.length_cons]
    have shorter : (rest.drop 2).length ≤ rest.length := by simp
    omega
  | case3 rest read ih =>
    rw [pieces, if_pos rfl, read, List.length_cons, List.length_cons]
    omega
  | case4 c rest other ih =>
    rw [pieces, if_neg other, List.length_cons, List.length_cons]
    omega

theorem digit_pair_cons {h l : Char} {back : List Char} (high : (hexValue h.toNat).isSome)
    (low : (hexValue l.toNat).isSome) : (digitPair (h :: l :: back)).isSome := by
  obtain ⟨hi, first⟩ := Option.isSome_iff_exists.mp high
  obtain ⟨lo, second⟩ := Option.isSome_iff_exists.mp low
  simp [digitPair, hexPair, first, second]

theorem has_triplet_cons {c : Char} {rest : List Char} : HasTriplet (c :: rest) ↔
    (c = '%' ∧ (digitPair rest).isSome) ∨ HasTriplet rest := by
  constructor
  · rintro ⟨front, h, l, back, split, high, low⟩
    cases front with
    | nil =>
      obtain ⟨percent, tail⟩ := List.cons.inj split
      exact .inl ⟨percent, tail ▸ digit_pair_cons high low⟩
    | cons d front => exact .inr ⟨front, h, l, back, (List.cons.inj split).2, high, low⟩
  · rintro (⟨rfl, read⟩ | ⟨front, h, l, back, rfl, digits⟩)
    · obtain ⟨byte, read⟩ := Option.isSome_iff_exists.mp read
      obtain ⟨h, l, back, rfl, digits⟩ := hex_pair_some read
      exact ⟨[], h, l, back, rfl, digits⟩
    · exact ⟨c :: front, h, l, back, rfl, digits⟩

/-- The decoded text is the text itself exactly where that holds no triplet. -/
theorem decode_fixed_iff (s : List Char) :
    Utf8.lossy .ready (decodeTriplets (s.flatMap Utf8.encode)) = s ↔ ¬ HasTriplet s := by
  rw [decode_pieces]
  induction s using pieces.induct with
  | case1 =>
    refine iff_of_true (by simp [pieces, Utf8.lossy]) ?_
    rintro ⟨front, h, l, back, split, _⟩
    simp at split
  | case2 rest byte read ih =>
    refine iff_of_false ?_ (not_not.mpr (has_triplet_cons.mpr (.inl ⟨rfl, by rw [read]; rfl⟩)))
    obtain ⟨h, l, back, rfl, _⟩ := hex_pair_some read
    rw [pieces, if_pos rfl, read, List.flatMap_cons]
    intro fixed
    have first : byte = '%'.toNat := Utf8.ascii_of_head (by decide) (by decide)
      (congrArg List.head? fixed)
    have whole := Utf8.lossy_encode '%' ((pieces back).flatMap Utf8.Piece.bytes)
    have bytes : byte :: (pieces back).flatMap Utf8.Piece.bytes =
        Utf8.encode '%' ++ (pieces back).flatMap Utf8.Piece.bytes := by rw [first]; rfl
    have read_back : Utf8.lossy .ready (byte :: (pieces back).flatMap Utf8.Piece.bytes) =
        '%' :: h :: l :: back := fixed
    rw [bytes, whole] at read_back
    have same := (List.cons.inj read_back).2
    -- fewer characters are read than the two digits and what follows them
    have count := Utf8.lossy_length_le (pieces back) (s := .ready) True.intro
    have fewer := pieces_length back
    rw [same] at count
    simp only [List.length_cons, Utf8.State.begun] at count
    omega
  | case3 rest read ih =>
    have none_here : ¬ ('%' = '%' ∧ (digitPair rest).isSome) := by simp [read]
    rw [has_triplet_cons, or_iff_right none_here, ← ih, pieces, if_pos rfl, read]
    simp only
    rw [List.flatMap_cons, Utf8.Piece.bytes, Utf8.lossy_encode, List.cons.injEq]
    exact and_iff_right rfl
  | case4 c rest other ih =>
    rw [has_triplet_cons, or_iff_right fun both => other both.1, ← ih, pieces, if_neg other,
      List.flatMap_cons, Utf8.Piece.bytes, Utf8.lossy_encode, List.cons.injEq]
    exact and_iff_right rfl

section RoundTrip
variable {Uri : Type} {fromStr : String → Option Uri} {text : Uri → String}

theorem uri_text (kept : ∀ s uri, fromStr s = some uri → text uri = s) {path : String}
    (absolute : path.toList.head? = some '/') (no_backslash : '\\' ∉ path.toList) {uri : Uri}
    (built : pathToUri fromStr path = some uri) :
    text uri = String.ofList (fileScheme ++ path.toList) := by
  have unchanged : path.toList.map (fun c => if c = '\\' then '/' else c) = path.toList := by
    calc path.toList.map (fun c => if c = '\\' then '/' else c)
        = path.toList.map id :=
          List.map_congr_left fun c mem => if_neg fun (same : c = '\\') => no_backslash (same ▸ mem)
      _ = path.toList := List.map_id _
  refine kept _ _ ?_
  rw [← built, pathToUri]
  simp only [unchanged, if_pos absolute]

theorem uri_to_path_iff {path : String} {uri : Uri}
    (written : text uri = String.ofList (fileScheme ++ path.toList)) :
    uriToPath text uri = some path ↔ ¬ HasTriplet path.toList := by
  rw [uriToPath, written, String.toList_ofList, Text.after_append, Option.map_some,
    ← decode_fixed_iff, Option.some.injEq, percentDecode, String.toList_ofList]
  constructor
  · intro same
    exact String.ofList_injective (same.trans String.ofList_toList.symm)
  · intro same
    rw [same, String.ofList_toList]

end RoundTrip

/-- A path comes back from the URI built of it exactly where it holds no triplet. -/
theorem file_uri_round_trip_iff {Uri : Type} (fromStr : String → Option Uri) (text : Uri → String)
    (kept : ∀ s uri, fromStr s = some uri → text uri = s) {path : String}
    (absolute : path.toList.head? = some '/') (no_backslash : '\\' ∉ path.toList) {uri : Uri}
    (built : pathToUri fromStr path = some uri) :
    uriToPath text uri = some path ↔ ¬ HasTriplet path.toList :=
  uri_to_path_iff (uri_text kept absolute no_backslash built)

/-- For a parser that takes the text, as `Uri::from_str` does here. -/
theorem plain_path_kept : ∃ uri, pathToUri some "/models/user.json" = some uri ∧
    uriToPath id uri = some "/models/user.json" := by
  refine ⟨_, rfl, (file_uri_round_trip_iff some id (fun s uri taken => (Option.some.inj taken).symm)
    (by decide) (by decide) rfl).mpr ?_⟩
  rintro ⟨front, h, l, back, split, _⟩
  have percent : '%' ∈ "/models/user.json".toList := by rw [split]; simp
  exact absurd percent (by decide)

theorem triplet_decoded : ¬ ∀ (fromStr : String → Option String) (text : String → String),
    (∀ s uri, fromStr s = some uri → text uri = s) → ∀ path : String,
      path.toList.head? = some '/' → '\\' ∉ path.toList →
        ∀ uri, pathToUri fromStr path = some uri → uriToPath text uri = some path := by
  intro always
  have taken : ∀ s uri : String, some s = some uri → id uri = s :=
    fun s uri same => (Option.some.inj same).symm
  have absolute : "/a%41".toList.head? = some '/' := by decide
  have no_backslash : '\\' ∉ "/a%41".toList := by decide
  have returned := always some id taken "/a%41" absolute no_backslash _ rfl
  have triplet : HasTriplet "/a%41".toList := ⟨['/', 'a'], '4', '1', [], rfl, rfl, rfl⟩
  exact (uri_to_path_iff (uri_text taken absolute no_backslash rfl)).mp returned triplet

end Vespertide.FileUri
