import WireCodec.Proofs.Codec.Sequences
import WireCodec.Proofs.Codec.UndeclaredEnums
import WireCodec.Proofs.Wire.Whole

/-! # Assignments

A field that holds one value takes the value of its last occurrence. If that is
an undeclared enum number, the field is absent, whatever stood before.
-/

namespace WireCodec

theorem EnumTable.symbol?_eq_none {table : EnumTable} {number : Int32} :
    table.symbol? number = none ↔ ∀ value ∈ table.values, value.2 ≠ number := by
  simp [EnumTable.symbol?]

theorem fieldNumber?_of_parses_at {depth : Nat} {key rest : List UInt8} {found : Key}
    (h : Read.Parses Read.key depth key (.ok (some found))) :
    fieldNumber? (key ++ rest) = some found.number := by
  obtain ⟨hspelled, hnumber⟩ := Key.spelledBy_of_parses h
  exact fieldNumber?_of_parses (hspelled.parses hnumber 0)

/-- A field that is not repeated is assigned to. -/
theorem FieldPlan.Coherent.action_of_single {set : PlanSet} {field : FieldPlan}
    (h : field.Coherent set) (hsingle : field.cardinality ≠ .repeated) : field.action = .assign := by
  have hmap : field.isMapEntry = false :=
    eq_false_of_ne_true fun hmap => hsingle (h.entry hmap).1
  simp [FieldPlan.action, hmap, hsingle]

namespace PlanSet

variable (set : PlanSet) (field : FieldPlan)

/-- An occurrence of a field with a number that its enum does not declare. -/
def Undeclares (bytes : List UInt8) : Prop :=
  ∃ name table groups form, field.type = .enum name ∧ set.enum? name = some table ∧
    bytes = groups ++ form ∧ Key.SpelledBy ⟨field.number, WireType.varint.code⟩ groups ∧
    table.Undeclared form

/-- There are occurrences of a field, and the last of them has no undeclared number. -/
def Assigns (occurrences : List (List UInt8)) : Prop :=
  ∃ bytes, (occurrences.filter (fieldNumber? · = some field.number)).getLast? = some bytes ∧
    ¬ set.Undeclares field bytes

variable {set field} {nested : MessagePlan → Read Record} {plan : MessagePlan} {depth : Nat}
  {bytes : List UInt8}

/-- Only an undeclared number is read as no value. -/
theorem undeclared_of_parses {type : ValueType}
    (h : Read.Parses (readValue set nested type) depth bytes (.ok none)) :
    ∃ name table, type = .enum name ∧ set.enum? name = some table ∧ table.Undeclared bytes := by
  have hsome : ∀ {α : Type} {f : α → Value} {read : Read α},
      ¬ Read.Parses ((fun a => some (f a)) <$> read) depth bytes (.ok none) := fun h =>
    h.of_yields (P := (· ≠ none)) ((Read.yields_trivial _).map fun _ _ => Option.some_ne_none _) rfl
  cases type with
  | scalar type =>
      rw [readValue, Read.value, Functor.map_map] at h
      exact absurd h hsome
  | enum name =>
      unfold readValue at h
      cases htable : set.enum? name with
      | none =>
          simp only [htable] at h
          have hthrow : Read.Yields (do let _ ← Read.scalar .int32; throw (.danglingReference name))
              fun _ : Option Value => False :=
            (Read.yields_trivial _).bind fun _ _ => Read.yields_throw _
          exact absurd (h.of_yields hthrow) id
      | some table =>
          simp only [htable] at h
          have hread : Read.TakesVarint (do
              let number ← Read.scalar .int32
              return (table.symbol? number).map Value.enum) _ :=
            (Read.takesVarint_varint64.map (·.toUInt32.toInt32)).map fun number =>
              (table.symbol? number).map Value.enum
          obtain ⟨hterminated, hshort, hnumber⟩ := hread.terminated h
          refine ⟨name, table, rfl, htable, hterminated, hshort, ?_⟩
          exact EnumTable.symbol?_eq_none.mp (Option.map_eq_none_iff.mp hnumber.symm)
  | message name =>
      unfold readValue at h
      dsimp only at h
      split at h
      next => exact absurd h Read.not_parses_throw
      next => exact absurd h hsome

/-- An undeclared number is read as the change that takes the value of its field away. -/
theorem Undeclares.parses (hplan : plan.Coherent set) (hfield : field ∈ plan.fields)
    (haction : field.action = .assign) (h : set.Undeclares field bytes) :
    Read.Parses (occurrenceChanges set nested plan) depth bytes
      (.ok (some [⟨field.name, .assign none⟩])) := by
  obtain ⟨name, table, groups, form, htype, htable, rfl, hspelled, hform⟩ := h
  have hvalue : Read.Parses (readValue set nested field.type) depth form (.ok none) :=
    htype ▸ hform.parses htable
  have hnatural : field.type.wireType = .varint := by rw [htype]; rfl
  have hsingle := parses_single haction hvalue
  rw [hnatural] at hsingle
  exact parses_occurrence_of_key
    (hspelled.parses (hplan.fields field hfield).number_ne_zero depth)
    (fieldChanges_of_mem hplan hfield _ ▸ hsingle)

theorem not_undeclares_of_parses (hplan : plan.Coherent set) (hfield : field ∈ plan.fields)
    (haction : field.action = .assign) {changes : List Change}
    (h : Read.Parses (occurrenceChanges set nested plan) depth bytes (.ok (some changes)))
    (hchanges : changes ≠ [⟨field.name, .assign none⟩]) : ¬ set.Undeclares field bytes := by
  intro hundeclares
  have hnone : Read.Parses (occurrenceChanges set nested plan) depth bytes _ :=
    hundeclares.parses hplan hfield haction
  obtain ⟨heq, -⟩ := h.unique hnone (congrArg (· ++ []) rfl)
  exact hchanges (Option.some.inj heq)

/-- An occurrence is read as changes. An occurrence of a single field assigns to
it, and any other leaves it alone. -/
theorem IsOccurrenceAt.exists_changes (hplan : plan.Coherent set)
    (h : set.IsOccurrenceAt depth plan bytes) : ∃ changes,
      Read.Parses (occurrenceChanges set (nestedReader set (nestingLimit - depth)) plan) depth bytes
        (.ok (some changes)) ∧
      ∀ field ∈ plan.fields, field.action = .assign →
        if fieldNumber? bytes = some field.number then
          ∃ value, changes = [⟨field.name, .assign value⟩] ∧
            (value = none ↔ set.Undeclares field bytes)
        else ∀ change ∈ changes, change.name ≠ field.name := by
  obtain ⟨⟨number, wireType⟩, changes, key, value, rfl, hkey, hvalue⟩ := h.parts
  have hchanges := parses_occurrence_of_key hkey hvalue
  refine ⟨changes, hchanges, ?_⟩
  intro field hfield haction
  rw [fieldNumber?_of_parses_at hkey]
  split
  next hnumber =>
    obtain rfl : number = field.number := Option.some.inj hnumber
    rw [fieldChanges_of_mem hplan hfield, FieldPlan.changes, haction] at hvalue
    obtain ⟨hwireType, hread⟩ := hvalue.of_expect
    obtain rfl : wireType = field.type.wireType.code := hwireType
    have hinjective : Function.Injective
        fun found => [Change.mk field.name (.assign found)] := by
      intro first second heq
      simpa using heq
    obtain ⟨found, rfl, hfound⟩ := hread.of_map hinjective
    refine ⟨found, rfl, ?_, ?_⟩
    · rintro rfl
      obtain ⟨name, table, htype, htable, hundeclared⟩ := undeclared_of_parses hfound
      rw [htype] at hkey
      exact ⟨name, table, key, value, htype, htable, rfl, (Key.spelledBy_of_parses hkey).1,
        hundeclared⟩
    · intro hundeclares
      by_contra hsome
      exact not_undeclares_of_parses hplan hfield haction hchanges (by simpa using hsome)
        hundeclares
  next hnumber =>
    intro change hchange hname
    have htrivial : ∀ name plan, set.message? name = some plan →
        (nestedReader set (nestingLimit - depth) plan).Yields fun _ => True :=
      fun _ _ _ => Read.yields_trivial _
    obtain ⟨other, hother, hfound, hotherName, -⟩ :=
      hvalue.of_yields (yields_fieldChanges htrivial hplan.toLaidOut _) change hchange
    obtain rfl := List.inj_on_of_nodup_map hplan.names hother hfield (hotherName.symm.trans hname)
    exact hnumber (congrArg some hfound.symm)

theorem assigns_concat {occurrences : List (List UInt8)} :
    set.Assigns field (occurrences ++ [bytes]) ↔
      if fieldNumber? bytes = some field.number then ¬ set.Undeclares field bytes
      else set.Assigns field occurrences := by
  unfold Assigns
  rw [List.filter_append]
  split
  next hnumber => simp [hnumber]
  next hnumber => simp [hnumber]

/-- A sequence of occurrences is read as changes that leave a single field with
a value if its last occurrence is one. The induction takes the last occurrence
away. -/
theorem exists_changes_of_occurrences (hplan : plan.Coherent set)
    {occurrences : List (List UInt8)}
    (h : ∀ bytes ∈ occurrences, set.IsOccurrenceAt depth plan bytes) : ∃ changes,
      ReadsAs set (nestedReader set (nestingLimit - depth)) plan depth occurrences.flatten
        (.ok changes) ∧
      ∀ field ∈ plan.fields, field.action = .assign →
        (Record.contains (Change.applyAll changes []) field.name = true ↔
          set.Assigns field occurrences) := by
  induction occurrences using List.reverseRecOn with
  | nil =>
      refine ⟨[], .nil, fun field _ _ => ?_⟩
      simp [Assigns, Change.applyAll, Record.contains, Record.value?, Sorted.find?]
  | append_singleton occurrences bytes ih =>
      obtain ⟨changes, hreads, hassigns⟩ := ih fun other hother => h other (by simp [hother])
      obtain ⟨last, hlast, hfields⟩ := (h bytes (by simp)).exists_changes hplan
      refine ⟨changes ++ last, ?_, ?_⟩
      · have hsingle : ReadsAs set (nestedReader set (nestingLimit - depth)) plan depth bytes
            (.ok last) := .of_occurrence hlast
        rw [List.flatten_append, List.flatten_singleton]
        exact hreads.append hsingle
      · intro field hfield haction
        have hchanges := hfields field hfield haction
        rw [assigns_concat, Change.applyAll_append, Record.contains, Change.value?_applyAll]
        split at hchanges
        next hnumber =>
          obtain ⟨value, rfl, hvalue⟩ := hchanges
          rw [if_pos hnumber, ← hvalue]
          simp [FieldChange.apply, Option.isSome_iff_ne_none]
        next hnumber =>
          rw [if_neg hnumber, ← hassigns field hfield haction]
          rw [List.filter_eq_nil_iff.mpr]
          · rfl
          · simpa using hchanges

end PlanSet

end WireCodec
