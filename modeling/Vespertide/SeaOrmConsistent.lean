import Mathlib.Data.List.ReduceOption
import Vespertide.SeaOrmRelations
import Vespertide.Support.Results
import Vespertide.Support.SecondChoice

/-!
Whether the two ends of a SeaORM relation agree on its name. The target writes
the base name of every foreign key it shows; the source gives a base that is
taken its second choice, counts for itself, and follows chains. So the ends
agree where the source needs a name, keeps the base and is not led elsewhere.
-/
namespace Vespertide
open SecondChoice

/-! Chains end by themselves -/

section Chains
variable {schema : List TableDef}

theorem passed_key_mem {refTable refCol : String} {target : TableDef} {next : TableForeignKey}
    (got : KeyedView.get TableDef.name schema refTable = some target)
    (found : (foreignKeys target).find? (·.columns = [refCol]) = some next) :
    (refTable, refCol) ∈ passedKeys schema := by
  obtain ⟨mem, rfl⟩ := KeyedView.get_some got
  have columns : next.columns = [refCol] := by
    simpa using List.find?_some found
  refine List.mem_flatMap.mpr ⟨target, mem, List.mem_map.mpr ⟨next, ?_, ?_⟩⟩
  · exact List.mem_of_find?_eq_some found
  · rw [columns]
    rfl

theorem resolve_enough : ∀ {fuel : Nat} {refTable : String} {refColumns : List String}
    {visited : List (String × String)}, visited.Nodup → visited ⊆ passedKeys schema →
      (∀ refCol, refColumns = [refCol] → (refTable, refCol) ∉ visited) →
      (passedKeys schema).length < fuel + visited.length → ∀ more,
      resolveFkTargetInner schema (fuel + more) refTable refColumns visited =
        resolveFkTargetInner schema fuel refTable refColumns visited
  | 0, refTable, refColumns, visited, nodup, within, fresh, enough, more => by
    have bound := nodup.length_le_of_subset within
    omega
  | fuel + 1, refTable, refColumns, visited, nodup, within, fresh, enough, more => by
    rw [Nat.add_right_comm]
    match refColumns with
    | [] => rfl
    | _ :: _ :: _ => rfl
    | [refCol] =>
      rw [resolveFkTargetInner, resolveFkTargetInner]
      cases got : KeyedView.get TableDef.name schema refTable with
      | none => rfl
      | some target =>
        simp only
        cases found : (foreignKeys target).find? (·.columns = [refCol]) with
        | none => rfl
        | some next =>
          have passed := passed_key_mem got found
          have away := fresh refCol rfl
          simp only
          match listed : next.refColumns with
          | [] => rfl
          | nextCol :: rest =>
            simp only
            split
            · rfl
            · rename_i unseen
              refine resolve_enough (List.nodup_cons.mpr ⟨away, nodup⟩)
                (List.cons_subset.mpr ⟨passed, within⟩) ?_ ?_ more
              · intro column only
                rw [(List.cons.inj only).1, List.contains_iff_mem] at unseen
                exact unseen
              · rw [List.length_cons]
                omega

/-- The answer does not depend on where the recursion is cut off. -/
theorem resolve_fuel (fk : TableForeignKey) (more : Nat) :
    resolveFkTargetInner schema ((passedKeys schema).length + 1 + more) fk.refTable fk.refColumns
      [] = resolveFkTarget schema fk :=
  resolve_enough .nil (List.nil_subset _) (fun _ _ => List.not_mem_nil) (by simp) more

end Chains

/-! Names of forward relations -/

def basesOf (needsEnum : ForwardRelation → Bool) (forward : List ForwardRelation) : List String :=
  (forward.filter needsEnum).filterMap fun rel => generateRelationEnumName rel.fk.columns

section Forward
variable {needsEnum : ForwardRelation → Bool} {ending : String}

def givenName (needsEnum : ForwardRelation → Bool) (ending : String) (used : List String)
    (rel : ForwardRelation) : Option String :=
  if needsEnum rel then
    (generateRelationEnumName rel.fk.columns).map fun base =>
      if base ∈ used then base ++ ending else base
  else none

theorem choose_bases_cons {used : List String} {rel : ForwardRelation}
    {rest : List ForwardRelation} :
    choose (· ++ ending) used (basesOf needsEnum (rel :: rest)) =
      (givenName needsEnum ending used rel).toList ++
        choose (· ++ ending) (used ++ (givenName needsEnum ending used rel).toList)
          (basesOf needsEnum rest) := by
  unfold basesOf givenName
  rw [List.filter_cons]
  split
  · rw [List.filterMap_cons]
    cases generateRelationEnumName rel.fk.columns with
    | none => simp
    | some base => rfl
  · simp

theorem forward_enums_cons {used : List String} {rel : ForwardRelation}
    {rest : List ForwardRelation} {names : List (Option String)}
    (named : forwardEnums needsEnum ending used (rel :: rest) = some names) :
    ∃ later, names = givenName needsEnum ending used rel :: later ∧
      forwardEnums needsEnum ending (used ++ (givenName needsEnum ending used rel).toList) rest =
        some later := by
  rw [forwardEnums] at named
  rw [givenName]
  split at named
  · rename_i needs
    obtain ⟨base, generated, named⟩ := Option.bind_eq_some_iff.mp named
    obtain ⟨later, made, same⟩ := Option.bind_eq_some_iff.mp named
    rw [if_pos needs, generated]
    exact ⟨later, (Option.some.inj same).symm, made⟩
  · rename_i unneeded
    obtain ⟨later, made, same⟩ := Option.bind_eq_some_iff.mp named
    rw [if_neg unneeded]
    refine ⟨later, (Option.some.inj same).symm, ?_⟩
    rw [Option.toList_none, List.append_nil]
    exact made

theorem forward_enums_choose : ∀ {forward : List ForwardRelation} {used : List String}
    {names : List (Option String)}, forwardEnums needsEnum ending used forward = some names →
      names.length = forward.length ∧
        names.reduceOption = choose (· ++ ending) used (basesOf needsEnum forward)
  | [], used, names, named => by
    rw [← Option.some.inj named]
    exact ⟨rfl, rfl⟩
  | rel :: rest, used, names, named => by
    obtain ⟨later, rfl, made⟩ := forward_enums_cons named
    obtain ⟨length, same⟩ := forward_enums_choose made
    refine ⟨by rw [List.length_cons, List.length_cons, length], ?_⟩
    rw [choose_bases_cons, ← same]
    cases givenName needsEnum ending used rel <;> rfl

theorem forward_enums_at : ∀ {before after : List ForwardRelation} {rel : ForwardRelation}
    {used : List String} {names : List (Option String)},
    forwardEnums needsEnum ending used (before ++ rel :: after) = some names →
      (rel, givenName needsEnum ending
        (used ++ choose (· ++ ending) used (basesOf needsEnum before)) rel) ∈
          (before ++ rel :: after).zip names
  | [], after, rel, used, names, named => by
    obtain ⟨later, rfl, -⟩ := forward_enums_cons named
    have nothing : used ++ choose (· ++ ending) used (basesOf needsEnum []) = used :=
      List.append_nil used
    rw [nothing]
    exact List.mem_cons_self
  | first :: before, after, rel, used, names, named => by
    rw [List.cons_append] at named
    obtain ⟨later, rfl, made⟩ := forward_enums_cons named
    have listed := forward_enums_at made
    rw [List.append_assoc, ← choose_bases_cons] at listed
    exact List.mem_cons_of_mem _ listed

end Forward

/-! Names of reverse relations -/

theorem unique_relation_enum_fresh (preferred sourceTable baseRelationEnum : String)
    (used : List String) :
    uniqueRelationEnumName preferred sourceTable baseRelationEnum used ∉ used := by
  unfold uniqueRelationEnumName
  simp only
  split
  · assumption
  · split
    · assumption
    · exact FreshName.first_fresh (FreshName.numbered_injective _) 2

section Reverse
variable {needsEnum : ReverseRelation → Bool}

theorem reverse_enums_length : ∀ (reverse : List ReverseRelation) (used : List String),
    (reverseEnums needsEnum used reverse).length = reverse.length
  | [], _ => rfl
  | rel :: rest, used => by
    rw [reverseEnums]
    split
    · rw [List.length_cons, List.length_cons, reverse_enums_length rest]
    · rw [List.length_cons, List.length_cons, reverse_enums_length rest]

theorem reverse_enums_nodup : ∀ (reverse : List ReverseRelation) {used : List String},
    used.Nodup → (used ++ (reverseEnums needsEnum used reverse).reduceOption).Nodup
  | [], used, nodup => by
    rw [reverseEnums, List.reduceOption_nil, List.append_nil]
    exact nodup
  | rel :: rest, used, nodup => by
    rw [reverseEnums]
    split
    · have fresh := unique_relation_enum_fresh (preferredEnum rel used) rel.sourceTable
        rel.baseRelationEnum used
      have more := List.nodup_append_comm.mp (List.nodup_cons.mpr ⟨fresh, nodup⟩ :
        ([_] ++ used).Nodup)
      rw [List.reduceOption_cons_of_some, ← List.singleton_append, ← List.append_assoc]
      exact reverse_enums_nodup rest more
    · rw [List.reduceOption_cons_of_none]
      exact reverse_enums_nodup rest nodup

theorem reverse_enums_named : ∀ {reverse : List ReverseRelation} {used : List String}
    {rel : ReverseRelation} {name : Option String},
    (rel, name) ∈ reverse.zip (reverseEnums needsEnum used reverse) → name.isSome = needsEnum rel
  | [], used, rel, name, listed => by cases listed
  | first :: rest, used, rel, name, listed => by
    rw [reverseEnums] at listed
    split at listed
    · rename_i needs
      rcases List.mem_cons.mp listed with same | later
      · obtain ⟨rfl, rfl⟩ := Prod.mk.inj same
        exact needs.symm
      · exact reverse_enums_named later
    · rename_i unneeded
      rcases List.mem_cons.mp listed with same | later
      · obtain ⟨rfl, rfl⟩ := Prod.mk.inj same
        exact (Bool.eq_false_iff.mpr unneeded).symm
      · exact reverse_enums_named later

end Reverse

/-! Foreign keys that a target shows -/

/-- The foreign key of the other table is a relation of its own on this one, not a way through
    to the tables that the other one links. -/
def ShownBack (t other : TableDef) (fk : TableForeignKey) : Prop :=
  fk ∈ foreignKeys other ∧ fk.refTable = t.name ∧ other.name ≠ t.name ∧
    ∀ target targets, junctionTargets t other (primaryKeyColumns other) ≠ some (target :: targets)

section Shown
variable {schema : List TableDef} {t other : TableDef} {position : Nat} {fk : TableForeignKey}
  {rel : ReverseRelation}

theorem direct_relation_reads (made : directRelation schema t other position fk = some rel) :
    rel.viaRel = generateRelationEnumName fk.columns ∧ rel.viaRel.isSome ∧
      rel.source = some (position, fk.constraintIdx) ∧ rel.targetEntity = other.name ∧
        rel.hasMultipleFks = hasMultipleFks schema t other := by
  obtain ⟨base, generated, same⟩ := Option.bind_eq_some_iff.mp made
  rw [← Option.some.inj same, generated]
  exact ⟨rfl, rfl, rfl, rfl, rfl⟩

theorem shown_back_relations (shown : ShownBack t other fk) :
    reverseRelationsOf schema t other position =
      ((foreignKeys other).filter (·.refTable = t.name)).mapM
        (directRelation schema t other position) := by
  obtain ⟨-, -, apart, linking⟩ := shown
  rw [reverseRelationsOf, if_neg apart]
  split
  · rename_i target targets linked
    exact absurd linked (linking target targets)
  · rfl

theorem shown_back_listed (shown : ShownBack t other fk) {rels : List ReverseRelation}
    (collected : reverseRelationsOf schema t other position = some rels) :
    ∃ rel ∈ rels, directRelation schema t other position fk = some rel := by
  rw [shown_back_relations shown] at collected
  have made : directRelation schema t other position fk ∈ rels.map some := by
    rw [← Results.map_m_some_iff.mp collected]
    refine List.mem_map_of_mem (List.mem_filter.mpr ⟨shown.1, ?_⟩)
    exact decide_eq_true shown.2.1
  obtain ⟨rel, listed, same⟩ := List.mem_map.mp made
  exact ⟨rel, listed, same.symm⟩

theorem via_rel_shown {rels : List ReverseRelation}
    (collected : reverseRelationsOf schema t other position = some rels) (listed : rel ∈ rels)
    (via : rel.viaRel.isSome) :
    ∃ fk, ShownBack t other fk ∧ directRelation schema t other position fk = some rel := by
  rw [reverseRelationsOf] at collected
  split at collected
  · rw [← Option.some.inj collected] at listed
    cases listed
  · rename_i apart
    split at collected
    · rw [← Option.some.inj collected] at listed
      rcases List.mem_cons.mp listed with rfl | linked
      · cases via
      · obtain ⟨_, -, rfl⟩ := List.mem_map.mp linked
        cases via
    · rename_i linking
      obtain ⟨fk, mem, made⟩ := (Results.mem_map_m collected).mp listed
      obtain ⟨mem, target⟩ := List.mem_filter.mp mem
      exact ⟨fk, ⟨mem, of_decide_eq_true target, apart, linking⟩, made⟩

theorem mem_reverse_relations {reverse : List ReverseRelation}
    (collected : reverseRelations schema t = some reverse) :
    rel ∈ reverse ↔ ∃ position other rels, schema[position]? = some other ∧
      reverseRelationsOf schema t other position = some rels ∧ rel ∈ rels := by
  obtain ⟨lists, done, rfl⟩ := Option.map_eq_some_iff.mp collected
  rw [List.mem_flatten]
  constructor
  · rintro ⟨rels, mem, listed⟩
    obtain ⟨⟨other, position⟩, at_place, made⟩ := (Results.mem_map_m done).mp mem
    exact ⟨position, other, rels, List.mem_zipIdx_iff_getElem?.mp at_place, made, listed⟩
  · rintro ⟨position, other, rels, at_place, made, listed⟩
    refine ⟨rels, (Results.mem_map_m done).mpr ⟨(other, position), ?_, made⟩, listed⟩
    exact List.mem_zipIdx_iff_getElem?.mpr at_place

theorem reverse_relations_of_some {reverse : List ReverseRelation}
    (collected : reverseRelations schema t = some reverse)
    (at_place : schema[position]? = some other) :
    ∃ rels, reverseRelationsOf schema t other position = some rels := by
  obtain ⟨lists, done, -⟩ := Option.map_eq_some_iff.mp collected
  have made : reverseRelationsOf schema t other position ∈ lists.map some := by
    rw [← Results.map_m_some_iff.mp done]
    exact List.mem_map.mpr ⟨(other, position), List.mem_zipIdx_iff_getElem?.mpr at_place, rfl⟩
  obtain ⟨rels, -, same⟩ := List.mem_map.mp made
  exact ⟨rels, same.symm⟩

end Shown

/-! The fields of an entity -/

/-- A field apart from what it is called. -/
def EntityField.relation (f : EntityField) : EntityField := { f with fieldName := "" }

theorem unique_fields_relation : ∀ (fields : List EntityField) (used : List String),
    (uniqueFields used fields).map (·.relation) = fields.map (·.relation)
  | [], _ => rfl
  | f :: rest, used => by
    rw [uniqueFields, List.map_cons, List.map_cons, unique_fields_relation rest]
    rfl

theorem filter_map_zip_with {α β γ : Type} {make : α → Option β → γ} {read : γ → Option β}
    (reads : ∀ x y, read (make x y) = y) : ∀ {xs : List α} {ys : List (Option β)},
      ys.length = xs.length → (List.zipWith make xs ys).filterMap read = ys.reduceOption
  | [], [], _ => rfl
  | x :: xs, y :: ys, same => by
    have later := filter_map_zip_with reads (Nat.succ.inj same)
    rw [List.zipWith_cons_cons, List.filterMap_cons, reads, later]
    cases y <;> rfl

theorem exists_zip_with {α β γ : Type} {make : α → β → γ} {xs : List α} {ys : List β}
    {p : γ → Prop} : (∃ z ∈ List.zipWith make xs ys, p z) ↔
      ∃ x y, (x, y) ∈ xs.zip ys ∧ p (make x y) := by
  rw [← List.map_uncurry_zip_eq_zipWith]
  constructor
  · rintro ⟨_, mem, holds⟩
    obtain ⟨⟨x, y⟩, listed, rfl⟩ := List.mem_map.mp mem
    exact ⟨x, y, listed, holds⟩
  · rintro ⟨x, y, listed, holds⟩
    exact ⟨_, List.mem_map_of_mem listed, holds⟩

section Entity
variable {lowercase : String → String} {schema : List TableDef} {position : Nat} {t : TableDef}
  {fields : List EntityField} {forward : List ForwardRelation}

structure Parts (lowercase : String → String) (schema : List TableDef) (position : Nat)
    (t : TableDef) (forward : List ForwardRelation) (fields : List EntityField) where
  names : List (Option String)
  reverse : List ReverseRelation
  named : forwardEnums (forwardNeedsEnum schema t forward) (typeName t) [] forward = some names
  collected : reverseRelations schema t = some reverse
  relations : fields.map (·.relation) =
    (List.zipWith (forwardEntityField lowercase position) forward names ++
      List.zipWith reverseEntityField reverse
        (reverseEnums (reverseNeedsEnum schema t forward) names.reduceOption reverse)).map
          (·.relation)

theorem entity_parts (rendered : relationFieldDefs lowercase schema position t = some fields) :
    ∃ forward, resolveTableFks schema t = some forward ∧
      Nonempty (Parts lowercase schema position t forward fields) := by
  obtain ⟨forward, resolved, rendered⟩ := Option.bind_eq_some_iff.mp rendered
  obtain ⟨names, named, rendered⟩ := Option.bind_eq_some_iff.mp rendered
  obtain ⟨reverse, collected, rendered⟩ := Option.bind_eq_some_iff.mp rendered
  refine ⟨forward, resolved, ⟨⟨names, reverse, named, collected, ?_⟩⟩⟩
  rw [← Option.some.inj rendered]
  exact unique_fields_relation _ _

theorem Parts.mem_iff (parts : Parts lowercase schema position t forward fields)
    {p : EntityField → Prop} (blind : ∀ f, p f ↔ p f.relation) : (∃ f ∈ fields, p f) ↔
      (∃ rel name, (rel, name) ∈ forward.zip parts.names ∧
        p (forwardEntityField lowercase position rel name)) ∨
      ∃ rel name, (rel, name) ∈ parts.reverse.zip (reverseEnums (reverseNeedsEnum schema t forward)
        parts.names.reduceOption parts.reverse) ∧ p (reverseEntityField rel name) := by
  have lifted : ∀ xs : List EntityField, (∃ f ∈ xs, p f) ↔ ∃ f ∈ xs.map (·.relation), p f := by
    intro xs
    constructor
    · rintro ⟨f, mem, holds⟩
      exact ⟨_, List.mem_map_of_mem mem, (blind f).mp holds⟩
    · rintro ⟨_, mem, holds⟩
      obtain ⟨f, listed, rfl⟩ := List.mem_map.mp mem
      exact ⟨f, listed, (blind f).mpr holds⟩
  rw [lifted, parts.relations, ← lifted]
  simp only [List.mem_append, or_and_right, exists_or]
  exact or_congr exists_zip_with exists_zip_with

/-- The names of an entity are distinct as far as those of its forward relations are. -/
theorem Parts.distinct_iff (parts : Parts lowercase schema position t forward fields) :
    (fields.filterMap (·.relationEnum)).Nodup ↔ ∀ before base after,
      basesOf (forwardNeedsEnum schema t forward) forward = before ++ base :: after →
        ¬ (Taken (· ++ typeName t) before base ∧
          Taken (· ++ typeName t) before (base ++ typeName t)) := by
  obtain ⟨length, chosen⟩ := forward_enums_choose parts.named
  have enums : fields.filterMap (·.relationEnum) = parts.names.reduceOption ++
      (reverseEnums (reverseNeedsEnum schema t forward) parts.names.reduceOption
        parts.reverse).reduceOption := by
    have read := congrArg (List.filterMap (·.relationEnum)) parts.relations
    rw [List.filterMap_map, List.filterMap_map, List.filterMap_append] at read
    refine read.trans (congrArg₂ (· ++ ·) ?_ ?_)
    · exact filter_map_zip_with (fun _ _ => rfl) length
    · exact filter_map_zip_with (fun _ _ => rfl) (reverse_enums_length _ _)
  rw [← choose_nodup_iff, ← chosen, enums]
  exact ⟨List.Nodup.of_append_left, reverse_enums_nodup parts.reverse⟩

theorem type_name_ne (t : TableDef) : typeName t ≠ "" := by
  have nonempty : (sanitizeIdentifier (toPascalCase t.name) .letter).toList ≠ [] := by
    unfold sanitizeIdentifier
    simp only [String.toList_ofList]
    split
    · exact List.cons_ne_nil _ _
    · rename_i needs
      intro none_left
      exact needs (by rw [none_left]; rfl)
  unfold typeName sanitizeTypeName
  split
  · rename_i none_left
    exact absurd none_left nonempty
  · intro same
    have lists := congrArg String.toList same
    rw [String.toList_ofList] at lists
    cases lists

theorem given_base_iff {needsEnum : ForwardRelation → Bool} {used : List String}
    {rel : ForwardRelation} {base : String}
    (generated : generateRelationEnumName rel.fk.columns = some base) :
    givenName needsEnum (typeName t) used rel = some base ↔ needsEnum rel ∧ base ∉ used := by
  rw [givenName, generated, Option.map_some]
  split
  · rename_i needs
    rw [Option.some_inj]
    by_cases taken : base ∈ used
    · have apart : base ++ typeName t ≠ base := fun same =>
        type_name_ne t (FreshName.append_cancel (same.trans (String.append_empty).symm))
      simp [taken, apart]
    · simp [taken, needs]
  · rename_i unneeded
    simp [unneeded]

theorem Parts.emits_iff {before after : List ForwardRelation} {rel : ForwardRelation}
    (parts : Parts lowercase schema position t (before ++ rel :: after) fields)
    (resolved : resolveTableFks schema t = some (before ++ rel :: after)) {base target : String}
    (generated : generateRelationEnumName rel.fk.columns = some base) :
    (∃ g ∈ fields, g.source = some (position, rel.fk.constraintIdx) ∧
      g.relationType = "belongs_to" ∧ g.relationEnum = some base ∧ g.entity = target) ↔
        rel.resolvedTable = target ∧
          forwardNeedsEnum schema t (before ++ rel :: after) rel ∧
          ¬ Taken (· ++ typeName t)
            (basesOf (forwardNeedsEnum schema t (before ++ rel :: after)) before) base := by
  have listed := forward_enums_at parts.named
  rw [List.nil_append] at listed
  have keys : (((before ++ rel :: after).zip parts.names).map (·.1.fk.constraintIdx)).Nodup := by
    have length := (forward_enums_choose parts.named).1
    have places : (before ++ rel :: after).map (·.fk.constraintIdx) =
        (foreignKeys t).map (·.constraintIdx) := by
      refine Results.map_m_map resolved fun fk _ made resolvable => ?_
      obtain ⟨_, -, rfl⟩ := Option.map_eq_some_iff.mp resolvable
      rfl
    have firsts := List.map_fst_zip length.ge
    rw [← firsts, List.map_map] at places
    exact places ▸ foreign_keys_nodup t
  rw [← mem_choose_iff, ← given_base_iff generated, parts.mem_iff (fun f => Iff.rfl)]
  constructor
  · rintro (⟨other, name, there, source, -, named, entity⟩ | ⟨other, name, -, -, type, -⟩)
    · have place := (Prod.mk.inj (Option.some.inj source)).2
      have same := List.inj_on_of_nodup_map keys there listed place
      obtain ⟨rfl, rfl⟩ := Prod.mk.inj same
      exact ⟨entity, named⟩
    · simp only [reverseEntityField] at type
      split at type
      · exact absurd type (by decide)
      · exact absurd type (by decide)
  · rintro ⟨rfl, named⟩
    exact .inl ⟨rel, _, listed, rfl, rfl, named, rfl⟩

def NamedBack (schema : List TableDef) (t other : TableDef) (forward : List ForwardRelation)
    (fk : TableForeignKey) : Prop :=
  ShownBack t other fk ∧
    (hasMultipleFks schema t other ∨ 1 < (targetEntities schema t forward).count other.name)

theorem reverse_needs_iff {other : TableDef} {fk : TableForeignKey} {place : Nat}
    {rel : ReverseRelation} (made : directRelation schema t other place fk = some rel) :
    reverseNeedsEnum schema t forward rel ↔ hasMultipleFks schema t other ∨
      1 < (targetEntities schema t forward).count other.name := by
  obtain ⟨-, -, -, entity, multiple⟩ := direct_relation_reads made
  rw [reverseNeedsEnum, decide_eq_true_iff, entity, multiple]

theorem Parts.named_back (parts : Parts lowercase schema position t forward fields)
    {other : TableDef} {place : Nat} {fk : TableForeignKey} (at_place : schema[place]? = some other)
    (back : NamedBack schema t other forward fk) :
    ∃ base, generateRelationEnumName fk.columns = some base ∧
      ∃ f ∈ fields, f.source = some (place, fk.constraintIdx) ∧ f.viaRel = some base := by
  obtain ⟨rels, made⟩ := reverse_relations_of_some parts.collected at_place
  obtain ⟨rel, listed, direct⟩ := shown_back_listed back.1 made
  have mem := (mem_reverse_relations parts.collected).mpr ⟨place, other, rels, at_place, made, listed⟩
  obtain ⟨via, known, source, -⟩ := direct_relation_reads direct
  obtain ⟨base, generated⟩ := Option.isSome_iff_exists.mp known
  refine ⟨base, via ▸ generated, ?_⟩
  rw [parts.mem_iff (fun f => Iff.rfl)]
  have lengths := @reverse_enums_length (reverseNeedsEnum schema t forward)
    parts.reverse parts.names.reduceOption
  rw [← List.map_fst_zip lengths.ge] at mem
  obtain ⟨⟨first, name⟩, paired, same⟩ := List.mem_map.mp mem
  obtain rfl : first = rel := same
  have named : name.isSome :=
    (reverse_enums_named paired).trans ((reverse_needs_iff direct).mpr back.2)
  refine .inr ⟨first, name, paired, source, ?_⟩
  rw [reverseEntityField, if_pos named]
  exact generated

/-- Every field that says the name of its other end is of a foreign key that is named back. -/
theorem Parts.via_named_back (parts : Parts lowercase schema position t forward fields)
    {f : EntityField} (listed : f ∈ fields) {n : String} (via : f.viaRel = some n) :
    ∃ place other fk, schema[place]? = some other ∧ f.source = some (place, fk.constraintIdx) ∧
      NamedBack schema t other forward fk ∧ generateRelationEnumName fk.columns = some n := by
  have some_field : ∃ g ∈ fields, g.source = f.source ∧ g.viaRel = some n := ⟨f, listed, rfl, via⟩
  rw [parts.mem_iff (fun f => Iff.rfl)] at some_field
  obtain ⟨rel, name, -, -, none_said⟩ | ⟨rel, name, paired, source, said⟩ := some_field
  · cases none_said
  · simp only [reverseEntityField] at source said
    split at said
    · rename_i named
      obtain ⟨place, other, rels, at_place, made, mem⟩ :=
        (mem_reverse_relations parts.collected).mp (List.of_mem_zip paired).1
      obtain ⟨fk, shown, direct⟩ := via_rel_shown made mem (Option.isSome_of_eq_some said)
      obtain ⟨base, -, from_key, -⟩ := direct_relation_reads direct
      have needs := (reverse_needs_iff direct).mp ((reverse_enums_named paired).symm.trans named)
      exact ⟨place, other, fk, at_place, source.symm.trans from_key, ⟨shown, needs⟩, base ▸ said⟩
    · cases said

end Entity

/-! Both ends of a relation -/

/-- The entity at the place of the foreign key has its forward relation, under the name and to
    the target. -/
def Emits (entities : List (List EntityField)) (source : Nat × Nat) (name target : String) : Prop :=
  ∃ fields, entities[source.1]? = some fields ∧ ∃ g ∈ fields, g.source = some source ∧
    g.relationType = "belongs_to" ∧ g.relationEnum = some name ∧ g.entity = target

/-- Relation names tell the fields of an entity apart, and a field that says the name of its
    other end says the name that the other end has. -/
structure NamesConsistent (schema : List TableDef) (entities : List (List EntityField)) : Prop where
  distinct : ∀ fields ∈ entities, (fields.filterMap (·.relationEnum)).Nodup
  answered : ∀ (position : Nat) (t : TableDef) (fields : List EntityField),
    schema[position]? = some t → entities[position]? = some fields →
      ∀ f ∈ fields, ∀ n, f.viaRel = some n →
        ∃ source, f.source = some source ∧ Emits entities source n t.name

/-- The forward relation of the foreign key leads to the target, needs a name, and finds its
    base free. -/
def KeepsBase (schema : List TableDef) (t : TableDef) (fk : TableForeignKey) (target : String) :
    Prop :=
  ∀ before rel after, resolveTableFks schema t = some (before ++ rel :: after) → rel.fk = fk →
    rel.resolvedTable = target ∧ forwardNeedsEnum schema t (before ++ rel :: after) rel ∧
      ∀ base, generateRelationEnumName fk.columns = some base → ¬ Taken (· ++ typeName t)
        (basesOf (forwardNeedsEnum schema t (before ++ rel :: after)) before) base

structure BasesSuffice (schema : List TableDef) : Prop where
  /-- no relation of a table finds its base and its second choice taken -/
  apart : ∀ t ∈ schema, ∀ forward, resolveTableFks schema t = some forward →
    ∀ before base after, basesOf (forwardNeedsEnum schema t forward) forward =
      before ++ base :: after → ¬ (Taken (· ++ typeName t) before base ∧
        Taken (· ++ typeName t) before (base ++ typeName t))
  /-- a foreign key that is named on its target goes by its base in the table that has it -/
  kept : ∀ t ∈ schema, ∀ forward, resolveTableFks schema t = some forward →
    ∀ other ∈ schema, ∀ fk, NamedBack schema t other forward fk → KeepsBase schema other fk t.name

theorem render_at {lowercase : String → String} {schema : List TableDef}
    {entities : List (List EntityField)} (rendered : renderEntities lowercase schema = some entities)
    (position : Nat) : (schema[position]?).map (relationFieldDefs lowercase schema position) =
      (entities[position]?).map some := by
  have lists := congrArg (·[position]?) (Results.map_m_some_iff.mp rendered)
  simpa [Function.comp_def] using lists

theorem render_table {lowercase : String → String} {schema : List TableDef}
    {entities : List (List EntityField)} (rendered : renderEntities lowercase schema = some entities)
    {position : Nat} {t : TableDef} (at_position : schema[position]? = some t) :
    ∃ forward fields, entities[position]? = some fields ∧ resolveTableFks schema t = some forward ∧
      Nonempty (Parts lowercase schema position t forward fields) := by
  have both := render_at rendered position
  rw [at_position, Option.map_some] at both
  obtain ⟨fields, there, made⟩ := Option.map_eq_some_iff.mp both.symm
  obtain ⟨forward, resolved, parts⟩ := entity_parts made.symm
  exact ⟨forward, fields, there, resolved, parts⟩

theorem forward_of_key {schema : List TableDef} {t : TableDef} {forward : List ForwardRelation}
    (resolved : resolveTableFks schema t = some forward) {fk : TableForeignKey}
    (mem : fk ∈ foreignKeys t) : ∃ rel ∈ forward, rel.fk = fk := by
  have keys : forward.map (·.fk) = (foreignKeys t).map id := by
    refine Results.map_m_map resolved fun key _ made resolvable => ?_
    obtain ⟨_, -, rfl⟩ := Option.map_eq_some_iff.mp resolvable
    rfl
  rw [List.map_id] at keys
  exact List.mem_map.mp (keys ▸ mem)

theorem entity_names_consistent_iff {lowercase : String → String} {schema : List TableDef}
    {entities : List (List EntityField)} (rendered : renderEntities lowercase schema = some entities) :
    NamesConsistent schema entities ↔ BasesSuffice schema := by
  constructor
  · intro consistent
    refine ⟨?_, ?_⟩
    · intro t mem forward resolved
      obtain ⟨position, at_position⟩ := List.mem_iff_getElem?.mp mem
      obtain ⟨_, fields, there, same, ⟨parts⟩⟩ := render_table rendered at_position
      obtain rfl := Option.some.inj (resolved.symm.trans same)
      exact parts.distinct_iff.mp (consistent.distinct fields (List.mem_of_getElem? there))
    · intro t mem forward resolved other listed fk back before rel after resolved_other rfl
      obtain ⟨position, at_position⟩ := List.mem_iff_getElem?.mp mem
      obtain ⟨place, at_place⟩ := List.mem_iff_getElem?.mp listed
      obtain ⟨_, fields, there, same, ⟨parts⟩⟩ := render_table rendered at_position
      obtain rfl := Option.some.inj (resolved.symm.trans same)
      obtain ⟨base, generated, f, field, source, via⟩ := parts.named_back at_place back
      obtain ⟨_, said, _, shown, emitted⟩ :=
        consistent.answered position t fields at_position there f field base via
      obtain rfl := Option.some.inj (source.symm.trans said)
      obtain ⟨_, fields', there', same', ⟨parts'⟩⟩ := render_table rendered at_place
      obtain rfl := Option.some.inj (resolved_other.symm.trans same')
      obtain rfl := Option.some.inj (there'.symm.trans shown)
      obtain ⟨target, needs, free⟩ := (parts'.emits_iff resolved_other generated).mp emitted
      refine ⟨target, needs, fun base' generated' => ?_⟩
      rw [Option.some.inj (generated'.symm.trans generated)]
      exact free
  · intro suffice
    refine ⟨?_, ?_⟩
    · intro fields mem
      obtain ⟨position, there⟩ := List.mem_iff_getElem?.mp mem
      have both := render_at rendered position
      rw [there, Option.map_some] at both
      obtain ⟨t, at_position, made⟩ := Option.map_eq_some_iff.mp both
      obtain ⟨forward, resolved, ⟨parts⟩⟩ := entity_parts made
      exact parts.distinct_iff.mpr (suffice.apart t (List.mem_of_getElem? at_position) forward resolved)
    · intro position t fields at_position there f field n via
      obtain ⟨forward, _, shown, resolved, ⟨parts⟩⟩ := render_table rendered at_position
      obtain rfl := Option.some.inj (there.symm.trans shown)
      obtain ⟨place, other, fk, at_place, source, back, generated⟩ := parts.via_named_back field via
      obtain ⟨forward', fields', there', resolved', ⟨parts'⟩⟩ := render_table rendered at_place
      obtain ⟨rel, listed, rfl⟩ := forward_of_key resolved' back.1.1
      obtain ⟨before, after, rfl⟩ := List.append_of_mem listed
      obtain ⟨target, needs, free⟩ := suffice.kept t (List.mem_of_getElem? at_position) forward
        resolved other (List.mem_of_getElem? at_place) rel.fk back before rel after resolved' rfl
      exact ⟨_, source, fields', there',
        (parts'.emits_iff resolved' generated).mpr ⟨target, needs, free n generated⟩⟩

def postsBy (userKey : List String) (keys : List (List String)) : List TableDef :=
  [⟨"user", none, userKey.map column, [.primaryKey false userKey .default]⟩,
   ⟨"post", none, ("id" :: keys.flatten.dedup).map column, .primaryKey false ["id"] .default ::
     keys.map fun columns => .foreignKey none columns "user" userKey none none .default⟩]
where
  column (name : String) : ColumnDef := .new name (.simple .integer) false

def twoAuthors : List TableDef := postsBy ["id"] [["author_id"], ["editor_id"]]

theorem two_authors_consistent_iff :
    ∃ entities, renderEntities id twoAuthors = some entities ∧
      entities.map (·.map (·.attr)) =
        [["    #[sea_orm(has_many, relation_enum = \"Post\", via_rel = \"Author\")]",
          "    #[sea_orm(has_many, relation_enum = \"Editor\", via_rel = \"Editor\")]"],
         [("Author", "author_id"), ("Editor", "editor_id")].map fun (name, column) =>
          "    #[sea_orm(belongs_to, relation_enum = \"" ++ name ++ "\", from = \"" ++ column ++
            "\", to = \"id\")]"] ∧
      (NamesConsistent twoAuthors entities ↔ BasesSuffice twoAuthors) :=
  ⟨(renderEntities id twoAuthors).get (by decide +kernel), (Option.some_get _).symm,
    by decide +kernel, entity_names_consistent_iff (Option.some_get _).symm⟩

/-- Every key of a tenant starts with the same column. -/
def tenantPosts : List TableDef :=
  postsBy ["tenant_id", "id"]
    [["tenant_id", "author_id"], ["tenant_id", "editor_id"], ["tenant_id", "reviewer_id"]]

theorem third_key_renamed_alike :
    (∀ t ∈ tenantPosts, ∀ fk ∈ foreignKeys t, ∃ u ∈ tenantPosts, u.name = fk.refTable) ∧
      ∃ entities, renderEntities id tenantPosts = some entities ∧
        entities.map (·.filterMap (·.relationEnum)) =
          [["Post", "Tenant", "PostTenant"], ["Tenant", "TenantPost", "TenantPost"]] ∧
        ¬ NamesConsistent tenantPosts entities := by
  refine ⟨by decide, (renderEntities id tenantPosts).get (by decide +kernel),
    (Option.some_get _).symm, by decide +kernel, fun consistent => ?_⟩
  have post := consistent.distinct _ (List.mem_of_getElem? (i := 1) (Option.some_get (by decide +kernel)).symm)
  revert post
  decide +kernel

end Vespertide
