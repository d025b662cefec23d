import Vespertide.PrismaRelations
import Vespertide.SeaOrmRelations

/-!
The field names of the exported entities. Relation fields are claimed against the
names of the columns; the columns themselves are not claimed, so what is left to
ask for is that no two of them fold into one name.
-/
namespace Vespertide

def FoldApart (fold : String → String) (t : TableDef) : Prop :=
  t.columns.Pairwise fun a b => fold a.name ≠ fold b.name

instance (fold : String → String) (t : TableDef) : Decidable (FoldApart fold t) :=
  inferInstanceAs (Decidable (t.columns.Pairwise _))

theorem fold_apart_iff {fold : String → String} {t : TableDef} :
    FoldApart fold t ↔ (t.columns.map fun column => fold column.name).Nodup :=
  List.pairwise_map.symm

/-! SeaORM: the columns, then the relations -/

def seaOrmFieldNames (lowercase : String → String) (schema : List TableDef) (position : Nat)
    (t : TableDef) : Option (List String) :=
  (relationFieldDefs lowercase schema position t).map fun fields =>
    t.columns.map (fun column => sanitizeFieldName column.name) ++ fields.map (·.fieldName)

/-- `r#type` is the identifier `type`. -/
def isRaw (name : String) : Bool := ['r', '#'].isPrefixOf name.toList

def rustIdentifier (name : String) : String :=
  if isRaw name then String.ofList (name.toList.drop 2) else name

def preferredFields (lowercase : String → String) (schema : List TableDef) (position : Nat)
    (t : TableDef) : Option (List EntityField) :=
  (resolveTableFks schema t).bind fun forward =>
    (forwardEnums (forwardNeedsEnum schema t forward) (typeName t) [] forward).bind fun names =>
      (reverseRelations schema t).map fun reverse =>
        List.zipWith (forwardEntityField lowercase position) forward names ++
          List.zipWith reverseEntityField reverse
            (reverseEnums (reverseNeedsEnum schema t forward) names.reduceOption reverse)

def uniqueNames : List String → List String → List String
  | _, [] => []
  | used, base :: rest =>
      let name := uniqueName base used
      name :: uniqueNames (name :: used) rest

/-- The raw names, numbered among themselves, are apart from the plain ones. -/
def RawApart (columns bases : List String) : Prop :=
  ∀ name ∈ columns.filter isRaw ++ uniqueNames (columns.filter isRaw) (bases.filter isRaw),
    rustIdentifier name ∉ columns.filter (!isRaw ·) ++
      uniqueNames (columns.filter (!isRaw ·)) (bases.filter (!isRaw ·))

theorem unique_name_cases (base : String) (used : List String) :
    uniqueName base used = base ∨ ∃ i : Nat, uniqueName base used = base ++ "_" ++ toString i := by
  unfold uniqueName
  split
  · exact .inl rfl
  · obtain ⟨k, -, found, -⟩ := @FreshName.search_least
      (fun i => base ++ "_" ++ toString i) used used.length 1
    exact .inr ⟨k, found⟩

theorem unique_name_fresh (base : String) (used : List String) : uniqueName base used ∉ used := by
  unfold uniqueName
  split
  · assumption
  · exact FreshName.first_fresh (FreshName.numbered_injective (base ++ "_")) 1

theorem unique_names_nodup : ∀ (bases : List String) {used : List String}, used.Nodup →
    (used ++ uniqueNames used bases).Nodup
  | [], used, nodup => by simpa [uniqueNames] using nodup
  | base :: rest, used, nodup => by
    have later := unique_names_nodup rest
      (List.nodup_cons.mpr ⟨unique_name_fresh base used, nodup⟩)
    exact List.nodup_middle.mpr later

/-- A number does not make a name raw, nor a raw name plain. -/
theorem is_raw_numbered (base : String) (i : Nat) :
    isRaw (base ++ "_" ++ toString i) = isRaw base := by
  have apart : ∀ tail : List Char, ['r', '#'].isPrefixOf (base.toList ++ '_' :: tail) =
      ['r', '#'].isPrefixOf base.toList := by
    intro tail
    match base.toList with
    | [] => rfl
    | [c] => cases h : ('r' == c) <;> simp [List.isPrefixOf, h]
    | c :: d :: rest => simp [List.isPrefixOf]
  unfold isRaw
  rw [String.append_assoc, String.toList_append, String.toList_append]
  exact apart _

section Kind
variable {kind : String → Bool}

theorem unique_name_filter
    (numbered : ∀ base (i : Nat), kind (base ++ "_" ++ toString i) = kind base)
    {base : String} (own : kind base = true) (used : List String) :
    uniqueName base (used.filter kind) = uniqueName base used := by
  have mem : base ∈ used.filter kind ↔ base ∈ used := by simp [List.mem_filter, own]
  have candidates : ∀ i : Nat, base ++ "_" ++ toString i ∈ used.filter kind ↔
      base ++ "_" ++ toString i ∈ used := by
    intro i
    rw [List.mem_filter, numbered, own]
    exact and_iff_left rfl
  simp only [uniqueName, mem]
  split
  · rfl
  · exact FreshName.first_congr (FreshName.numbered_injective (base ++ "_")) candidates 1

theorem unique_names_filter
    (numbered : ∀ base (i : Nat), kind (base ++ "_" ++ toString i) = kind base) :
    ∀ bases used, (uniqueNames used bases).filter kind =
      uniqueNames (used.filter kind) (bases.filter kind)
  | [], _ => rfl
  | base :: rest, used => by
    have later := unique_names_filter numbered rest (uniqueName base used :: used)
    have same : kind (uniqueName base used) = kind base := by
      rcases unique_name_cases base used with same | ⟨i, same⟩
      · rw [same]
      · rw [same, numbered]
    rw [uniqueNames, List.filter_cons, List.filter_cons, same]
    cases own : kind base with
    | true =>
      rw [List.filter_cons, same, own] at later
      simp only [if_true, later, uniqueNames, unique_name_filter numbered own]
    | false =>
      rw [List.filter_cons, same, own] at later
      simpa using later

end Kind

theorem raw_split {name : String} (raw : isRaw name = true) :
    name.toList = 'r' :: '#' :: (rustIdentifier name).toList := by
  obtain ⟨tail, split⟩ := List.isPrefixOf_iff_prefix.mp raw
  rw [rustIdentifier, if_pos raw, ← split]
  simp

theorem raw_injective {a b : String} (first : isRaw a = true) (second : isRaw b = true)
    (same : rustIdentifier a = rustIdentifier b) : a = b := by
  rw [← String.toList_inj, raw_split first, raw_split second, same]

theorem plain_identifier {name : String} (plain : isRaw name = false) :
    rustIdentifier name = name := by
  rw [rustIdentifier, plain]
  rfl

/-- Two names are one identifier where one of them is the other written raw. -/
theorem identifiers_nodup_iff (names : List String) : (names.map rustIdentifier).Nodup ↔
    names.Nodup ∧ ∀ a ∈ names.filter isRaw, rustIdentifier a ∉ names.filter (!isRaw ·) := by
  constructor
  · intro apart
    refine ⟨apart.of_map, fun a raw plain => ?_⟩
    obtain ⟨a_mem, a_raw⟩ := List.mem_filter.mp raw
    obtain ⟨b_mem, b_plain⟩ := List.mem_filter.mp plain
    have plain := plain_identifier (Bool.not_eq_true' _ ▸ b_plain : isRaw (rustIdentifier a) = false)
    have same := List.inj_on_of_nodup_map apart b_mem a_mem plain
    rw [same, a_raw] at b_plain
    cases b_plain
  · rintro ⟨nodup, apart⟩
    have mixed : ∀ a ∈ names, ∀ b ∈ names, isRaw a = true → isRaw b = false →
        rustIdentifier a ≠ rustIdentifier b := by
      intro a a_mem b b_mem raw plain same
      refine apart a (List.mem_filter.mpr ⟨a_mem, raw⟩) (List.mem_filter.mpr ?_)
      rw [same, plain_identifier plain, plain]
      exact ⟨b_mem, rfl⟩
    refine nodup.map_on fun a a_mem b b_mem same => ?_
    cases a_raw : isRaw a <;> cases b_raw : isRaw b
    · rwa [plain_identifier a_raw, plain_identifier b_raw] at same
    · exact absurd same.symm (mixed b b_mem a a_mem b_raw a_raw)
    · exact absurd same (mixed a a_mem b b_mem a_raw b_raw)
    · exact raw_injective a_raw b_raw same

theorem unique_fields_names : ∀ (fields : List EntityField) (used : List String),
    (uniqueFields used fields).map (·.fieldName) = uniqueNames used (fields.map (·.fieldName))
  | [], _ => rfl
  | f :: rest, used => by
    rw [uniqueFields, List.map_cons, unique_fields_names rest, List.map_cons, uniqueNames]

section SeaOrm
variable {lowercase : String → String} {schema : List TableDef} {position : Nat} {t : TableDef}
  {names : List String}

theorem sea_orm_names_eq (rendered : seaOrmFieldNames lowercase schema position t = some names) :
    ∃ fields, preferredFields lowercase schema position t = some fields ∧
      names = t.columns.map (fun column => sanitizeFieldName column.name) ++
        uniqueNames (t.columns.map fun column => sanitizeFieldName column.name)
          (fields.map (·.fieldName)) := by
  obtain ⟨fields, defs, rfl⟩ := Option.map_eq_some_iff.mp rendered
  obtain ⟨forward, resolved, defs⟩ := Option.bind_eq_some_iff.mp defs
  obtain ⟨enums, named, defs⟩ := Option.bind_eq_some_iff.mp defs
  obtain ⟨reverse, collected, defs⟩ := Option.bind_eq_some_iff.mp defs
  refine ⟨_, by rw [preferredFields, resolved, Option.bind_some, named, Option.bind_some, collected,
    Option.map_some], ?_⟩
  rw [← Option.some.inj defs, unique_fields_names]

theorem sea_orm_names_iff (rendered : seaOrmFieldNames lowercase schema position t = some names) :
    names.Nodup ↔ FoldApart sanitizeFieldName t := by
  obtain ⟨fields, -, rfl⟩ := sea_orm_names_eq rendered
  rw [fold_apart_iff]
  exact ⟨List.Nodup.of_append_left, unique_names_nodup _⟩

theorem sea_orm_identifiers_iff {fields : List EntityField}
    (rendered : seaOrmFieldNames lowercase schema position t = some names)
    (preferred : preferredFields lowercase schema position t = some fields) :
    (names.map rustIdentifier).Nodup ↔ FoldApart sanitizeFieldName t ∧
      RawApart (t.columns.map fun column => sanitizeFieldName column.name)
        (fields.map (·.fieldName)) := by
  have distinct := sea_orm_names_iff rendered
  obtain ⟨_, asked, rfl⟩ := sea_orm_names_eq rendered
  obtain rfl := Option.some.inj (asked.symm.trans preferred)
  have plain_numbered : ∀ base (i : Nat),
      (!isRaw (base ++ "_" ++ toString i)) = !isRaw base := fun base i => by rw [is_raw_numbered]
  rw [identifiers_nodup_iff, distinct, List.filter_append, List.filter_append,
    unique_names_filter is_raw_numbered, unique_names_filter plain_numbered]
  rfl

end SeaOrm

/-! Prisma: the columns, then the forward and the back relations -/

def prismaFieldNames (schema : List TableDef) (position : Nat) (t : TableDef) : List String :=
  let relations := renderRelations schema position t
  t.columns.map (fun column => prismaFieldName column.name) ++
    (relations.forward.map (·.fieldName) ++ relations.back.map (·.fieldName))

theorem claim_field_fresh (preferred : String) (taken : List String) :
    claimFieldName preferred taken ∉ taken := by
  unfold claimFieldName
  split
  · assumption
  · split
    · assumption
    · refine FreshName.first_fresh (fun m n same => ?_) 2
      exact FreshName.numbered_injective (preferred ++ "_rel") same

theorem claim_fields_taken : ∀ (fields : List RelationField) (taken : List String),
    (claimFields taken fields).2.Perm (taken ++ (claimFields taken fields).1.map (·.fieldName))
  | [], taken => by simp [claimFields]
  | f :: rest, taken => by
    have later := claim_fields_taken rest (claimFieldName f.fieldName taken :: taken)
    rw [claimFields, List.map_cons]
    exact later.trans List.perm_middle.symm

theorem claim_fields_nodup : ∀ (fields : List RelationField) {taken : List String}, taken.Nodup →
    (claimFields taken fields).2.Nodup
  | [], _, nodup => nodup
  | f :: rest, taken, nodup => by
    have fresh := claim_field_fresh f.fieldName taken
    exact claim_fields_nodup rest (List.nodup_cons.mpr ⟨fresh, nodup⟩)

theorem prisma_names_iff (schema : List TableDef) (position : Nat) (t : TableDef) :
    (prismaFieldNames schema position t).Nodup ↔ FoldApart prismaFieldName t := by
  rw [fold_apart_iff]
  refine ⟨List.Nodup.of_append_left, fun apart => ?_⟩
  have forward := claim_fields_taken (forwardFields position t)
    (t.columns.map fun col => prismaFieldName col.name)
  have back := claim_fields_taken ((collectBackRelations t.name schema).map backRelField)
    (claimFields (t.columns.map fun col => prismaFieldName col.name) (forwardFields position t)).2
  have taken := claim_fields_nodup ((collectBackRelations t.name schema).map backRelField)
    (claim_fields_nodup (forwardFields position t) apart)
  refine (back.nodup_iff.mp taken).perm ?_
  rw [prismaFieldNames, ← List.append_assoc]
  exact forward.append_right _

/-- The fields of an entity are distinct just where its columns do not fold together, and as
    identifiers of Rust where besides no raw name is another one without its mark. -/
theorem field_names_distinct_iff (lowercase : String → String) (schema : List TableDef)
    (position : Nat) (t : TableDef) :
    (∀ names fields, seaOrmFieldNames lowercase schema position t = some names →
      preferredFields lowercase schema position t = some fields →
      (names.Nodup ↔ FoldApart sanitizeFieldName t) ∧
      ((names.map rustIdentifier).Nodup ↔ FoldApart sanitizeFieldName t ∧
        RawApart (t.columns.map fun column => sanitizeFieldName column.name)
          (fields.map (·.fieldName)))) ∧
    ((prismaFieldNames schema position t).Nodup ↔ FoldApart prismaFieldName t) :=
  ⟨fun _ _ rendered preferred => ⟨sea_orm_names_iff rendered,
    sea_orm_identifiers_iff rendered preferred⟩, prisma_names_iff schema position t⟩

/-! A column beside a number of its name, and two columns of one name -/

def textColumns (names : List String) : List ColumnDef :=
  names.map fun name => ColumnDef.new name (.simple .text) true

def kindTable : TableDef := ⟨"kind", none, textColumns ["id"], []⟩

def typedTable : TableDef :=
  ⟨"item", none, textColumns ["type", "type_1", "type_id"],
    [.foreignKey none ["type_id"] "kind" ["id"] none none .default]⟩

theorem typed_names :
    seaOrmFieldNames id [typedTable, kindTable] 0 typedTable =
      some ["r#type", "type_1", "type_id", "r#type_1"] := by rfl

theorem typed_fields : ["r#type", "type_1", "type_id", "r#type_1"].Nodup ∧
    (prismaFieldNames [typedTable, kindTable] 0 typedTable).Nodup := by
  obtain ⟨fields, preferred, _⟩ := sea_orm_names_eq typed_names
  obtain ⟨sea_orm, prisma⟩ := field_names_distinct_iff id [typedTable, kindTable] 0 typedTable
  exact ⟨(sea_orm _ fields typed_names preferred).1.mpr (by decide), prisma.mpr (by decide)⟩

def foldedTable : TableDef := ⟨"item", none, textColumns ["a-b", "a_b"], []⟩

theorem folded_columns_collide : (foldedTable.columns.map (·.name)).Nodup ∧
    seaOrmFieldNames id [foldedTable] 0 foldedTable = some ["a_b", "a_b"] ∧
    prismaFieldNames [foldedTable] 0 foldedTable = ["a_b", "a_b"] ∧ ¬ ["a_b", "a_b"].Nodup :=
  ⟨by decide, rfl, rfl, by decide⟩

end Vespertide
