import Vespertide.RelationNames

/-!
The relation fields of Prisma models: a forward field for a foreign key in the
model that has it, a back field in the model it targets, and the name on both.
-/
namespace Vespertide

def prismaModelName (table : String) : String := sanitizeIdentifier (toPascalCase table) .letter

def prismaFieldName (column : String) : String := sanitizeIdentifier column .letter

def fieldList (columns : List String) : String := ", ".intercalate (columns.map prismaFieldName)

def referenceActionToPrisma : ReferenceAction → String
  | .cascade => "Cascade"
  | .restrict => "Restrict"
  | .setNull => "SetNull"
  | .setDefault => "SetDefault"
  | .noAction => "NoAction"

structure RelationField where
  source : Nat
  constraintIdx : Nat
  fieldName : String
  relType : String
  relationName : Option String
  relArgs : List String

/-- A forward field has arguments, a back field at most the name. -/
def RelationField.line (f : RelationField) : String :=
  let args := (f.relationName.map fun name => "\"" ++ name ++ "\"").toList ++ f.relArgs
  let attr := if args = [] then "" else " @relation(" ++ ", ".intercalate args ++ ")"
  "  " ++ f.fieldName ++ " " ++ f.relType ++ attr

section Forward
variable (position : Nat) (t : TableDef)

/-- Named if the target needs it to tell relations apart. -/
def forwardName (fk : TableForeignKey) : Option String :=
  if 1 < fkCount t fk.refTable ∨ fk.refTable = t.name then
    (fkRelationNames t).lookup fk.constraintIdx
  else none

def forwardField (fieldName : String) (nullable : Bool) (fields : String) (fk : TableForeignKey) :
    RelationField where
  source := position
  constraintIdx := fk.constraintIdx
  fieldName := fieldName
  relType := prismaModelName fk.refTable ++ if nullable then "?" else ""
  relationName := forwardName t fk
  relArgs := ["fields: [" ++ fields ++ "]", "references: [" ++ fieldList fk.refColumns ++ "]",
    "onDelete: " ++ referenceActionToPrisma (fk.onDelete.getD .noAction),
    "onUpdate: " ++ referenceActionToPrisma (fk.onUpdate.getD .noAction)]

/-- Collected into a map, so the last foreign key of a column stays. -/
def fkByCol (column : String) : Option TableForeignKey :=
  ((foreignKeys t).filter (·.columns = [column])).getLast?

def inlineField (col : ColumnDef) : Option RelationField :=
  (fkByCol t col.name).map fun fk =>
    forwardField position t (prismaFieldName (inferRelationFieldName col.name)) col.nullable
      (prismaFieldName col.name) fk

def compositeField (fk : TableForeignKey) : RelationField :=
  let anyNullable := t.columns.any fun col => col.nullable && col.name ∈ fk.columns
  forwardField position t (prismaFieldName fk.refTable) anyNullable (fieldList fk.columns) fk

def forwardFields : List RelationField :=
  t.columns.filterMap (inlineField position t) ++
    ((foreignKeys t).filter (2 ≤ ·.columns.length)).map (compositeField position t)

end Forward

def backRelField (br : BackRelation) : RelationField where
  source := br.source
  constraintIdx := br.constraintIdx
  fieldName := prismaFieldName
    (if br.relationName.isSome then br.relSegment ++ "_" ++ br.sourceTable else br.sourceTable)
  relType := prismaModelName br.sourceTable ++ if br.isOneToOne then "?" else "[]"
  relationName := br.relationName
  relArgs := []

/-- Field names are claimed one after the other. -/
def claimFields : List String → List RelationField → List RelationField × List String
  | taken, [] => ([], taken)
  | taken, f :: rest =>
      let name := claimFieldName f.fieldName taken
      let (fields, taken) := claimFields (name :: taken) rest
      ({ f with fieldName := name } :: fields, taken)

structure ModelRelations where
  forward : List RelationField
  back : List RelationField

/-- The relation fields of one model. Every column is claimed up front. -/
def renderRelations (schema : List TableDef) (position : Nat) (t : TableDef) : ModelRelations :=
  let (forward, taken) :=
    claimFields (t.columns.map fun col => prismaFieldName col.name) (forwardFields position t)
  let (back, _) := claimFields taken ((collectBackRelations t.name schema).map backRelField)
  { forward, back }

def renderSchema (tables : List TableDef) : List ModelRelations :=
  tables.zipIdx.map fun (t, position) => renderRelations tables position t

/-! Fields of one foreign key -/

def namesFor (source constraintIdx : Nat) (fields : List RelationField) : List (Option String) :=
  (fields.filter fun f => f.source = source ∧ f.constraintIdx = constraintIdx).map (·.relationName)

theorem names_for_claim (source constraintIdx : Nat) (fields : List RelationField) :
    ∀ taken, namesFor source constraintIdx (claimFields taken fields).1 =
      namesFor source constraintIdx fields := by
  induction fields with
  | nil => exact fun _ => rfl
  | cons f rest ih =>
    intro taken
    have later := ih (claimFieldName f.fieldName taken :: taken)
    unfold namesFor at later ⊢
    rw [claimFields, List.filter_cons, List.filter_cons]
    split
    · simp only [List.map_cons, later]
    · exact later

theorem filter_own {α κ : Type} [DecidableEq κ] {f : α → κ} {x : α} : ∀ {xs : List α},
    (xs.map f).Nodup → x ∈ xs → xs.filter (f · = f x) = [x]
  | y :: ys, nodup, mem => by
    obtain ⟨away, nodup⟩ := List.nodup_cons.mp nodup
    rcases List.mem_cons.mp mem with rfl | later
    · have none_left : ys.filter (f · = f x) = [] := by
        refine List.filter_eq_nil_iff.mpr fun z listed same => away ?_
        exact of_decide_eq_true same ▸ List.mem_map_of_mem listed
      rw [List.filter_cons, if_pos (decide_eq_true rfl), none_left]
    · have apart : f y ≠ f x := fun same => away (same ▸ List.mem_map_of_mem later)
      rw [List.filter_cons, if_neg (by simpa using apart), filter_own nodup later]

section Fields
variable {t : TableDef} {fk : TableForeignKey} {position : Nat}

theorem fk_by_col_mem {column : String} {found : TableForeignKey}
    (last : fkByCol t column = some found) :
    found ∈ foreignKeys t ∧ found.columns = [column] := by
  have listed := List.mem_filter.mp (List.mem_of_getLast? last)
  exact ⟨listed.1, of_decide_eq_true listed.2⟩

theorem inline_names (mem : fk ∈ foreignKeys t) (columns : List ColumnDef) :
    namesFor position fk.constraintIdx (columns.filterMap (inlineField position t)) =
      (columns.filter fun col => fkByCol t col.name = some fk).map fun _ => forwardName t fk := by
  induction columns with
  | nil => rfl
  | cons col columns ih =>
    unfold namesFor at ih ⊢
    rw [List.filterMap_cons, List.filter_cons]
    cases last : fkByCol t col.name with
    | none =>
      rw [inlineField, last]
      simpa using ih
    | some found =>
      rw [inlineField, last, Option.map_some]
      simp only [List.filter_cons, forwardField, true_and, Option.some.injEq]
      by_cases same : found = fk
      · subst same
        simp only [decide_true, if_true, List.map_cons, ih]
      · have apart : found.constraintIdx ≠ fk.constraintIdx := fun equal =>
          same (same_key (fk_by_col_mem last).1 mem equal)
        simp only [apart, same, decide_false, Bool.false_eq_true, if_false, ih]

theorem composite_names (mem : fk ∈ foreignKeys t) :
    namesFor position fk.constraintIdx
        (((foreignKeys t).filter (2 ≤ ·.columns.length)).map (compositeField position t)) =
      if 2 ≤ fk.columns.length then [forwardName t fk] else [] := by
  have own : (foreignKeys t).filter (·.constraintIdx = fk.constraintIdx) = [fk] :=
    filter_own (foreign_keys_nodup t) mem
  unfold namesFor
  rw [List.filter_map, List.map_map]
  have only : ((foreignKeys t).filter (2 ≤ ·.columns.length)).filter
      ((fun f => decide (f.source = position ∧ f.constraintIdx = fk.constraintIdx)) ∘
        compositeField position t) =
      ((foreignKeys t).filter (·.constraintIdx = fk.constraintIdx)).filter
        (2 ≤ ·.columns.length) := by
    rw [List.filter_filter, List.filter_filter]
    refine List.filter_congr fun other _ => ?_
    simp [compositeField, forwardField, Bool.and_comm]
  rw [only, own]
  by_cases wide : 2 ≤ fk.columns.length
  · simp [wide, compositeField, forwardField]
  · simp [wide]

/-- The forward fields of a foreign key: one for each column of its name if it is the last of
    the column, one if it has several columns. -/
theorem forward_names (mem : fk ∈ foreignKeys t) :
    namesFor position fk.constraintIdx (forwardFields position t) =
      ((t.columns.filter fun col => fkByCol t col.name = some fk).map fun _ => forwardName t fk) ++
        if 2 ≤ fk.columns.length then [forwardName t fk] else [] := by
  have parts := congrArg₂ (· ++ ·) (@inline_names t fk position mem t.columns)
    (@composite_names t fk position mem)
  rw [← parts, namesFor, forwardFields, List.filter_append, List.map_append]
  rfl

theorem flat_map_kept {α β : Type} {g : α → List β} {p : α → Bool} {xs : List α}
    (empty : ∀ x ∈ xs, p x = false → g x = []) : xs.flatMap g = (xs.filter p).flatMap g := by
  induction xs with
  | nil => rfl
  | cons x xs ih =>
    obtain ⟨here, later⟩ := List.forall_mem_cons.mp empty
    rw [List.flatMap_cons, List.filter_cons, ih later]
    cases kept : p x with
    | true => rw [if_pos rfl, List.flatMap_cons]
    | false =>
      rw [here kept]
      rfl

theorem at_place {schema : List TableDef} (at_position : schema[position]? = some t) :
    schema.zipIdx.filter (·.2 = position) = [(t, position)] := by
  refine @filter_own _ _ _ Prod.snd (t, position) _ ?_ ?_
  · rw [List.zipIdx_map_snd]
    exact List.nodup_range'
  · rw [List.mem_zipIdx_iff_getElem?]
    simpa using at_position

theorem back_names {schema : List TableDef} (at_position : schema[position]? = some t)
    (mem : fk ∈ foreignKeys t) :
    namesFor position fk.constraintIdx
      ((collectBackRelations fk.refTable schema).map backRelField) = [forwardName t fk] := by
  have own : (foreignKeys t).filter (·.constraintIdx = fk.constraintIdx) = [fk] :=
    filter_own (foreign_keys_nodup t) mem
  have elsewhere : ∀ x ∈ schema.zipIdx, decide (x.2 = position) = false →
      ((((foreignKeys x.1).filter (·.refTable = fk.refTable)).map
        (backRelation fk.refTable x.1 x.2)).map backRelField).filter
          (fun f => f.source = position ∧ f.constraintIdx = fk.constraintIdx) = [] := by
    intro x _ away
    refine List.filter_eq_nil_iff.mpr fun f listed => ?_
    obtain ⟨br, back_listed, rfl⟩ := List.mem_map.mp listed
    obtain ⟨other, -, rfl⟩ := List.mem_map.mp back_listed
    have apart : x.2 ≠ position := of_decide_eq_false away
    simp [backRelField, backRelation, apart]
  have here : ((foreignKeys t).filter (·.refTable = fk.refTable)).filter
      (fun other => decide (position = position ∧ other.constraintIdx = fk.constraintIdx)) =
        [fk] := by
    have swapped : ((foreignKeys t).filter (·.constraintIdx = fk.constraintIdx)).filter
        (·.refTable = fk.refTable) = [fk] := by
      rw [own, List.filter_cons, if_pos (decide_eq_true rfl), List.filter_nil]
    rw [← swapped, List.filter_filter, List.filter_filter]
    exact List.filter_congr fun other _ => by simp [Bool.and_comm]
  unfold namesFor collectBackRelations
  rw [List.map_flatMap, List.filter_flatMap, flat_map_kept elsewhere, at_place at_position,
    List.flatMap_singleton, List.map_map, List.filter_map, List.map_map]
  have picked := congrArg (List.map (RelationField.relationName ∘ backRelField ∘
    backRelation fk.refTable t position)) here
  refine picked.trans (congrArg (fun name => [name]) ?_)
  exact if_congr (or_congr_right eq_comm) rfl rfl

end Fields

/-! Pairs of fields -/

/-- One forward field in the model of the foreign key and one back field in each model of the
    table it targets, with the same name or none. -/
def Matched (schema : List TableDef) (position : Nat) (t : TableDef) (fk : TableForeignKey) :
    Prop :=
  ∃ name, namesFor position fk.constraintIdx (renderRelations schema position t).forward = [name] ∧
    ∀ q target, schema[q]? = some target → target.name = fk.refTable →
      namesFor position fk.constraintIdx (renderRelations schema q target).back = [name]

def Carries (schema : List TableDef) (source constraintIdx : Nat) (name : String) : Prop :=
  ∃ q target, schema[q]? = some target ∧
    (some name ∈ namesFor source constraintIdx (renderRelations schema q target).forward ∨
      some name ∈ namesFor source constraintIdx (renderRelations schema q target).back)

/-- The same target from the same table, or each from the other's table. -/
def SamePair (p : Nat) (t : TableDef) (fk : TableForeignKey) (p' : Nat) (t' : TableDef)
    (fk' : TableForeignKey) : Prop :=
  (p = p' ∧ fk.refTable = fk'.refTable) ∨ (fk.refTable = t'.name ∧ fk'.refTable = t.name)

structure RelationsPaired (schema : List TableDef) : Prop where
  matched : ∀ (p : Nat) t, schema[p]? = some t → ∀ fk ∈ foreignKeys t, Matched schema p t fk
  unambiguous : ∀ (p : Nat) t (p' : Nat) t', schema[p]? = some t → schema[p']? = some t' →
    ∀ fk ∈ foreignKeys t, ∀ fk' ∈ foreignKeys t', (p, fk.constraintIdx) ≠ (p', fk'.constraintIdx) →
    SamePair p t fk p' t' fk' → ∀ name, Carries schema p fk.constraintIdx name →
    ¬ Carries schema p' fk'.constraintIdx name

def NamesRelations (t : TableDef) (refTable : String) : Prop :=
  1 < fkCount t refTable ∨ refTable = t.name

/-- A text that the relations of a table to a target take, followed by a number up to which
    it is repeated there. -/
def Label (t : TableDef) (refTable base : String) (label : String) : Prop :=
  NamesRelations t refTable ∧
    ∃ k, 1 ≤ k ∧ k ≤ repeats t refTable base ∧ label = numberedName base k

/-- No foreign key is without columns, one with a single column is the only one of it and the
    table has the column once, and numbers do not turn one text into another: not within the
    foreign keys to one target, and not between those of two tables that target each other. -/
structure RelationsDistinct (schema : List TableDef) : Prop where
  columns : ∀ t ∈ schema, ∀ fk ∈ foreignKeys t, fk.columns ≠ []
  single : ∀ t ∈ schema, ∀ fk ∈ foreignKeys t, ∀ column, fk.columns = [column] →
    (t.columns.filter (·.name = column)).length = 1 ∧
      ∀ other ∈ foreignKeys t, other.columns = [column] → other = fk
  within : ∀ t ∈ schema, ∀ refTable base base' label, base ≠ base' →
    Label t refTable base label → ¬ Label t refTable base' label
  across : ∀ (p : Nat) t (p' : Nat) t', schema[p]? = some t → schema[p']? = some t' → p ≠ p' →
    ∀ base base' label, Label t t'.name base label → ¬ Label t' t.name base' label

section Pairs
variable {schema : List TableDef} {position : Nat} {t : TableDef} {fk : TableForeignKey}

theorem rendered_forward (mem : fk ∈ foreignKeys t) :
    namesFor position fk.constraintIdx (renderRelations schema position t).forward =
      ((t.columns.filter fun col => fkByCol t col.name = some fk).map fun _ => forwardName t fk) ++
        if 2 ≤ fk.columns.length then [forwardName t fk] else [] :=
  (names_for_claim position fk.constraintIdx _ _).trans (forward_names mem)

theorem rendered_back (at_position : schema[position]? = some t) (mem : fk ∈ foreignKeys t)
    {q : Nat} {target : TableDef} (targeted : target.name = fk.refTable) :
    namesFor position fk.constraintIdx (renderRelations schema q target).back =
      [forwardName t fk] := by
  refine (names_for_claim position fk.constraintIdx _ _).trans ?_
  rw [targeted]
  exact back_names at_position mem

/-- The back field is there in any case, so what counts is the forward field. -/
theorem matched_iff (at_position : schema[position]? = some t) (mem : fk ∈ foreignKeys t) :
    Matched schema position t fk ↔
      (t.columns.filter fun col => fkByCol t col.name = some fk).length +
        (if 2 ≤ fk.columns.length then 1 else 0) = 1 := by
  have back : ∀ (q : Nat) target, schema[q]? = some target → target.name = fk.refTable →
      namesFor position fk.constraintIdx (renderRelations schema q target).back =
        [forwardName t fk] := fun _ _ _ targeted => rendered_back at_position mem targeted
  unfold Matched
  rw [rendered_forward mem]
  constructor
  · rintro ⟨name, one, -⟩
    have lengths := congrArg List.length one
    rw [List.length_append, List.length_map, List.length_singleton] at lengths
    by_cases wide : 2 ≤ fk.columns.length
    · rwa [if_pos wide] at lengths ⊢
    · rwa [if_neg wide] at lengths ⊢
  · intro one
    refine ⟨forwardName t fk, ?_, back⟩
    by_cases wide : 2 ≤ fk.columns.length
    · rw [if_pos wide] at one ⊢
      rw [List.length_eq_zero_iff.mp (Nat.succ.inj one)]
      rfl
    · rw [if_neg wide] at one ⊢
      obtain ⟨col, same⟩ := List.length_eq_one_iff.mp one
      rw [same]
      rfl

theorem fk_by_col_of_single (mem : fk ∈ foreignKeys t) {column : String}
    (single : fk.columns = [column])
    (only : ∀ other ∈ foreignKeys t, other.columns = [column] → other = fk) :
    fkByCol t column = some fk := by
  cases last : fkByCol t column with
  | none =>
    have empty := List.getLast?_eq_none_iff.mp last
    have listed : fk ∈ (foreignKeys t).filter (·.columns = [column]) :=
      List.mem_filter.mpr ⟨mem, decide_eq_true single⟩
    rw [empty] at listed
    cases listed
  | some found =>
    obtain ⟨listed, columns⟩ := fk_by_col_mem last
    rw [only found listed columns]

theorem kept_columns {column : String} (kept : fkByCol t column = some fk) :
    (t.columns.filter fun col => fkByCol t col.name = some fk) =
      t.columns.filter (·.name = column) := by
  refine List.filter_congr fun col _ => ?_
  rw [Bool.eq_iff_iff, decide_eq_true_iff, decide_eq_true_iff]
  constructor
  · intro also
    have same := (fk_by_col_mem also).2.symm.trans (fk_by_col_mem kept).2
    exact (List.cons.inj same).1
  · rintro rfl
    exact kept

theorem all_matched_iff (at_position : schema[position]? = some t) :
    (∀ fk ∈ foreignKeys t, Matched schema position t fk) ↔
      (∀ fk ∈ foreignKeys t, fk.columns ≠ []) ∧
      ∀ fk ∈ foreignKeys t, ∀ column, fk.columns = [column] →
        (t.columns.filter (·.name = column)).length = 1 ∧
          ∀ other ∈ foreignKeys t, other.columns = [column] → other = fk := by
  constructor
  · intro matched
    have kept : ∀ fk ∈ foreignKeys t, ∀ column, fk.columns = [column] →
        fkByCol t column = some fk := by
      intro fk mem column single
      have one := (matched_iff at_position mem).mp (matched fk mem)
      rw [single] at one
      obtain ⟨col, same⟩ := List.length_eq_one_iff.mp (by simpa using one)
      have listed : col ∈ t.columns.filter fun col => fkByCol t col.name = some fk :=
        same ▸ List.mem_singleton_self col
      have last := of_decide_eq_true (List.mem_filter.mp listed).2
      have names := (fk_by_col_mem last).2.symm.trans single
      rwa [(List.cons.inj names).1] at last
    refine ⟨fun fk mem empty => ?_, fun fk mem column single => ⟨?_, fun other listed also => ?_⟩⟩
    · have one := (matched_iff at_position mem).mp (matched fk mem)
      rw [empty] at one
      obtain ⟨col, same⟩ := List.length_eq_one_iff.mp (by simpa using one)
      have listed : col ∈ t.columns.filter fun col => fkByCol t col.name = some fk :=
        same ▸ List.mem_singleton_self col
      have last := of_decide_eq_true (List.mem_filter.mp listed).2
      cases empty.symm.trans (fk_by_col_mem last).2
    · have one := (matched_iff at_position mem).mp (matched fk mem)
      rw [kept_columns (kept fk mem column single), single] at one
      simpa using one
    · have last := (kept other listed column also).symm.trans (kept fk mem column single)
      exact Option.some.inj last
  · rintro ⟨nonempty, single⟩ fk mem
    rw [matched_iff at_position mem]
    match columns : fk.columns with
    | [] => exact absurd columns (nonempty fk mem)
    | [column] =>
      obtain ⟨one, only⟩ := single fk mem column columns
      rw [kept_columns (fk_by_col_of_single mem columns only), one]
      rfl
    | first :: second :: rest =>
      have none_inline : (t.columns.filter fun col => fkByCol t col.name = some fk) = [] := by
        refine List.filter_eq_nil_iff.mpr fun col _ last => ?_
        have two := columns.symm.trans (fk_by_col_mem (of_decide_eq_true last)).2
        cases two
      rw [none_inline]
      simp

theorem forward_name_eq {before after : List TableForeignKey}
    (split : foreignKeys t = before ++ fk :: after) (named : NamesRelations t fk.refTable) :
    forwardName t fk = some (numberedName (relationBase t fk) (occurrence t before fk)) := by
  unfold NamesRelations at named
  rw [forwardName, if_pos named, relation_names_lookup split]

theorem forward_label {name : String} {before after : List TableForeignKey}
    (split : foreignKeys t = before ++ fk :: after) (called : forwardName t fk = some name) :
    Label t fk.refTable (relationBase t fk) name := by
  have named : NamesRelations t fk.refTable := by
    unfold forwardName at called
    by_contra unnamed
    unfold NamesRelations at unnamed
    rw [if_neg unnamed] at called
    cases called
  rw [forward_name_eq split named] at called
  exact ⟨named, _, Nat.succ_pos _, occurrence_le split, (Option.some.inj called).symm⟩

theorem label_exists {refTable base label : String} (labelled : Label t refTable base label) :
    ∃ fk ∈ foreignKeys t, fk.refTable = refTable ∧ relationBase t fk = base ∧
      forwardName t fk = some label := by
  obtain ⟨named, k, positive, le, rfl⟩ := labelled
  obtain ⟨before, fk, after, split, rfl, rfl, nth⟩ := occurrence_exists positive le
  have mem : fk ∈ foreignKeys t := split ▸ List.mem_append_right _ List.mem_cons_self
  exact ⟨fk, mem, rfl, rfl, nth ▸ forward_name_eq split named⟩

/-! Names within a pair -/

theorem forward_source {q : Nat} {f : RelationField} (mem : f ∈ forwardFields q t) :
    f.source = q := by
  rcases List.mem_append.mp mem with inline | composite
  · obtain ⟨col, -, made⟩ := List.mem_filterMap.mp inline
    obtain ⟨found, -, rfl⟩ := Option.map_eq_some_iff.mp made
    rfl
  · obtain ⟨found, -, rfl⟩ := List.mem_map.mp composite
    rfl

theorem forward_carried {q : Nat} {target : TableDef} {name : Option String}
    (at_position : schema[position]? = some t) (at_q : schema[q]? = some target)
    (mem : fk ∈ foreignKeys t)
    (carried : name ∈ namesFor position fk.constraintIdx (renderRelations schema q target).forward) :
    name = forwardName t fk := by
  have own : q = position := by
    have claimed : namesFor position fk.constraintIdx (renderRelations schema q target).forward =
        namesFor position fk.constraintIdx (forwardFields q target) := names_for_claim _ _ _ _
    rw [claimed] at carried
    obtain ⟨f, listed, rfl⟩ := List.mem_map.mp carried
    obtain ⟨made, origin⟩ := List.mem_filter.mp listed
    exact (forward_source made).symm.trans (of_decide_eq_true origin).1
  subst own
  obtain rfl := Option.some.inj (at_q.symm.trans at_position)
  rw [rendered_forward mem, List.mem_append] at carried
  rcases carried with inline | composite
  · obtain ⟨col, -, same⟩ := List.mem_map.mp inline
    exact same.symm
  · split at composite
    · exact List.mem_singleton.mp composite
    · cases composite

theorem back_carried {q : Nat} {target : TableDef} {name : Option String}
    (at_position : schema[position]? = some t) (mem : fk ∈ foreignKeys t)
    (carried : name ∈ namesFor position fk.constraintIdx (renderRelations schema q target).back) :
    name = forwardName t fk := by
  have claimed : namesFor position fk.constraintIdx (renderRelations schema q target).back =
      namesFor position fk.constraintIdx ((collectBackRelations target.name schema).map backRelField) :=
    names_for_claim _ _ _ _
  by_cases targeted : target.name = fk.refTable
  · rw [rendered_back at_position mem targeted] at carried
    exact List.mem_singleton.mp carried
  · rw [claimed] at carried
    obtain ⟨f, listed, -⟩ := List.mem_map.mp carried
    obtain ⟨made, origin⟩ := List.mem_filter.mp listed
    obtain ⟨br, collected, rfl⟩ := List.mem_map.mp made
    obtain ⟨⟨source, s⟩, placed, found⟩ := List.mem_flatMap.mp collected
    obtain ⟨other, kept, rfl⟩ := List.mem_map.mp found
    obtain ⟨rfl, same_idx⟩ := of_decide_eq_true origin
    rw [List.mem_zipIdx_iff_getElem?] at placed
    obtain rfl : t = source := Option.some.inj (at_position.symm.trans placed)
    obtain ⟨other_mem, other_target⟩ := List.mem_filter.mp kept
    obtain rfl := same_key other_mem mem same_idx
    exact absurd (of_decide_eq_true other_target).symm targeted

theorem carries_name (at_position : schema[position]? = some t) (mem : fk ∈ foreignKeys t)
    {name : String} (carries : Carries schema position fk.constraintIdx name) :
    forwardName t fk = some name := by
  obtain ⟨q, target, at_q, forward | back⟩ := carries
  · exact (forward_carried at_position at_q mem forward).symm
  · exact (back_carried at_position mem back).symm

theorem matched_carries (at_position : schema[position]? = some t) (mem : fk ∈ foreignKeys t)
    (matched : Matched schema position t fk) {name : String}
    (called : forwardName t fk = some name) : Carries schema position fk.constraintIdx name := by
  obtain ⟨given, one, -⟩ := matched
  have carried : given ∈ namesFor position fk.constraintIdx
      (renderRelations schema position t).forward := one ▸ List.mem_singleton_self given
  have same := forward_carried at_position at_position mem carried
  exact ⟨position, t, at_position, .inl (called ▸ same ▸ carried)⟩

/-- The fields come in matching, unambiguous pairs exactly if the foreign keys can be told apart
    by their columns, and their names by their numbers. -/
theorem prisma_relations_paired_iff (schema : List TableDef) :
    RelationsPaired schema ↔ RelationsDistinct schema := by
  have place : ∀ t ∈ schema, ∃ p : Nat, schema[p]? = some t := fun t mem =>
    List.getElem?_of_mem mem
  constructor
  · intro paired
    refine ⟨fun t mem => ?_, fun t mem => ?_, fun t mem refTable base base' label apart first second => ?_,
      fun p t p' t' at_p at_p' apart base base' label first second => ?_⟩
    · obtain ⟨p, at_p⟩ := place t mem
      exact ((all_matched_iff at_p).mp (paired.matched p t at_p)).1
    · obtain ⟨p, at_p⟩ := place t mem
      exact ((all_matched_iff at_p).mp (paired.matched p t at_p)).2
    · obtain ⟨p, at_p⟩ := place t mem
      obtain ⟨fk, listed, rfl, rfl, called⟩ := label_exists first
      obtain ⟨fk', listed', target, rfl, called'⟩ := label_exists second
      have different : (p, fk.constraintIdx) ≠ (p, fk'.constraintIdx) := by
        intro same
        exact apart (same_key listed listed' (Prod.mk.inj same).2 ▸ rfl)
      exact paired.unambiguous p t p t at_p at_p fk listed fk' listed' different
        (.inl ⟨rfl, target.symm⟩) label
        (matched_carries at_p listed (paired.matched p t at_p fk listed) called)
        (matched_carries at_p listed' (paired.matched p t at_p fk' listed') called')
    · obtain ⟨fk, listed, target, rfl, called⟩ := label_exists first
      obtain ⟨fk', listed', target', rfl, called'⟩ := label_exists second
      have different : (p, fk.constraintIdx) ≠ (p', fk'.constraintIdx) := fun same =>
        apart (Prod.mk.inj same).1
      exact paired.unambiguous p t p' t' at_p at_p' fk listed fk' listed' different
        (.inr ⟨target, target'⟩) label
        (matched_carries at_p listed (paired.matched p t at_p fk listed) called)
        (matched_carries at_p' listed' (paired.matched p' t' at_p' fk' listed') called')
  · intro distinct
    refine ⟨fun p t at_p => ?_, fun p t p' t' at_p at_p' fk mem fk' mem' different pair name first second => ?_⟩
    · have listed : t ∈ schema := List.mem_of_getElem? at_p
      exact (all_matched_iff at_p).mpr ⟨distinct.columns t listed, distinct.single t listed⟩
    · have called := carries_name at_p mem first
      have called' := carries_name at_p' mem' second
      obtain ⟨before, after, split⟩ := List.append_of_mem mem
      obtain ⟨before', after', split'⟩ := List.append_of_mem mem'
      have label := forward_label split called
      have label' := forward_label split' called'
      by_cases same_table : p = p'
      · subst same_table
        obtain rfl := Option.some.inj (at_p.symm.trans at_p')
        have target : fk.refTable = fk'.refTable := by
          obtain ⟨-, same⟩ | ⟨self, self'⟩ := pair
          · exact same
          · exact self.trans self'.symm
        rw [← target] at label'
        by_cases base : relationBase t fk = relationBase t fk'
        · rw [forward_name_eq split label.1] at called
          rw [forward_name_eq split' (target ▸ label'.1)] at called'
          have numbers := Option.some.inj (called.trans called'.symm)
          rw [← base] at numbers
          have same := occurrence_inj split split' target base (numbered_injective numbers)
          exact different (by rw [same])
        · exact distinct.within t (List.mem_of_getElem? at_p) _ _ _ name base label label'
      · obtain ⟨same, -⟩ | ⟨target, target'⟩ := pair
        · exact same_table same
        · exact distinct.across p t p' t' at_p at_p' same_table _ _ name (target ▸ label)
            (target' ▸ label')

end Pairs

/-! Three foreign keys to one table -/

def referringKey (column : String) : TableConstraint :=
  .foreignKey none [column] "user" ["id"] none none .default

def authoredSchema : List TableDef :=
  [⟨"user", none, [.new "id" (.simple .integer) false], []⟩,
   ⟨"post", none, ["a_id", "a", "a2_id"].map fun c => .new c (.simple .integer) false,
     ["a_id", "a", "a2_id"].map referringKey⟩]

example : (renderSchema authoredSchema).map (fun m => m.back.map (·.line)) =
    [["  a_post Post[] @relation(\"PostA\")", "  a_post_rel Post[] @relation(\"PostA2\")",
      "  a2_post Post[] @relation(\"PostA2\")"], []] := by decide +kernel

theorem numbered_name_taken :
    (∀ t ∈ authoredSchema, ∀ fk ∈ foreignKeys t, ∃ u ∈ authoredSchema, u.name = fk.refTable) ∧
      ((renderSchema authoredSchema).map fun m => m.forward.map (·.relationName)) =
        [[], [some "PostA", some "PostA2", some "PostA2"]] ∧
      ¬ RelationsPaired authoredSchema := by
  refine ⟨by decide, by decide, fun paired => ?_⟩
  let keyOf (idx : Nat) (column : String) : TableForeignKey :=
    ⟨idx, [column], "user", ["id"], none, none⟩
  refine paired.unambiguous 1 _ 1 _ rfl rfl (keyOf 1 "a") (by decide) (keyOf 2 "a2_id") (by decide)
    (by decide) (.inl ⟨rfl, rfl⟩) "PostA2" ⟨1, _, rfl, .inl ?_⟩ ⟨1, _, rfl, .inl ?_⟩
  · decide
  · decide

end Vespertide
