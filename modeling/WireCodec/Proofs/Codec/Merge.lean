import WireCodec.Proofs.Codec.Decoded

/-! # Merged messages

A message is merged into another one field by field: a field that holds one
value takes the later one, lists are appended, and the entries of maps are put
over the earlier ones. This is a law of single changes: a change to the later
message is the same change to the merged one.
-/

namespace WireCodec

namespace Sorted

variable {κ α : Type} [Ord κ]

/-- An association list with the pairs of another one put over its own. -/
def override (first second : List (κ × α)) : List (κ × α) :=
  second.foldl (fun sorted pair => insert pair.1 pair.2 sorted) first

variable [Std.TransOrd κ] [Std.LawfulEqOrd κ]

theorem increasing_override {first second : List (κ × α)} (h : Increasing first) :
    Increasing (override first second) := by
  induction second generalizing first with
  | nil => exact h
  | cons pair rest ih => exact ih (increasing_insert h)

variable [BEq κ] [LawfulBEq κ]

theorem find?_override {first second : List (κ × α)} (h : Increasing second) (key : κ) :
    find? key (override first second) = (find? key second).or (find? key first) := by
  induction second generalizing first with
  | nil => rfl
  | cons pair rest ih =>
      obtain ⟨other, value⟩ := pair
      obtain ⟨hother, hrest⟩ := increasing_cons.mp h
      have hcons : override first ((other, value) :: rest) =
          override (insert other value first) rest := rfl
      rw [hcons, ih hrest, find?_insert, find?]
      by_cases hkey : key = other
      · subst hkey
        -- the key does not come up again
        have hnone : find? key rest = none := by
          cases hfound : find? key rest with
          | none => rfl
          | some found =>
              have hlt := hother _ (mem_of_find? hfound)
              exact absurd rfl (ne_of_compare_eq_lt hlt)
        simp [hnone]
      · simp [hkey]

theorem override_insert {first second : List (κ × α)} (hfirst : Increasing first)
    (hsecond : Increasing second) (key : κ) (value : α) :
    override first (insert key value second) = insert key value (override first second) := by
  refine ext (increasing_override hfirst) (increasing_insert (increasing_override hfirst)) ?_
  intro other
  rw [find?_override (increasing_insert hsecond), find?_insert, find?_insert,
    find?_override hsecond]
  split <;> simp

end Sorted

/-- What a message has for a field when another message is merged into it. -/
def FieldPlan.merge (field : FieldPlan) (first second : Option Value) : Option Value :=
  if field.isMapEntry then
    match first, second with
    | some (.map first), some (.map second) => some (.map (Sorted.override first second))
    | first, second => second.or first
  else if field.cardinality = .repeated then
    match first, second with
    | some (.list first), some (.list second) => some (.list (first ++ second))
    | first, second => second.or first
  else second.or first

/-- A message with another one merged into it, field by field. -/
def MessagePlan.merge (plan : MessagePlan) (first second : Record) : Record :=
  Sorted.ofList (plan.fields.filterMap fun field =>
    (field.merge (Record.value? first field.name) (Record.value? second field.name)).map
      (field.name, ·))

section Merge

variable {set : PlanSet} {Nested : MessagePlan → Record → Prop} {field : FieldPlan}
  {first second : Option Value}

@[simp]
theorem FieldPlan.merge_none (field : FieldPlan) (first : Option Value) :
    field.merge first none = first := by
  unfold merge
  split_ifs <;> rcases first with _ | value <;> first | rfl | cases value <;> rfl

@[simp]
theorem FieldPlan.none_merge (field : FieldPlan) (second : Option Value) :
    field.merge none second = second := by
  unfold merge
  split_ifs <;> simp

theorem FieldPlan.merge_single (hmap : field.isMapEntry = false)
    (hsingle : field.cardinality ≠ .repeated) : field.merge first second = second.or first := by
  simp [merge, hmap, hsingle]

theorem FieldPlan.merge_list (hmap : field.isMapEntry = false)
    (hrepeated : field.cardinality = .repeated) (items others : List Value) :
    field.merge (some (.list items)) (some (.list others)) = some (.list (items ++ others)) := by
  simp [merge, hmap, hrepeated]

theorem FieldPlan.merge_map (hmap : field.isMapEntry = true)
    (entries others : List (MapKey × Value)) :
    field.merge (some (.map entries)) (some (.map others)) =
      some (.map (Sorted.override entries others)) := by
  simp [merge, hmap]

theorem FieldPlan.isSome_merge (h : first.isSome = true) :
    (field.merge first second).isSome = true := by
  unfold merge
  repeat' split
  all_goals simp [h]

/-- A change to the later of two messages is the same change to the merged one,
unless it takes a value away. -/
theorem DecodedField.apply_merge (hfirst : DecodedField set Nested field first)
    (hsecond : DecodedField set Nested field second) {change : FieldChange}
    (hchange : DecodedChange set Nested field change) (hsome : change ≠ .assign none) :
    change.apply (field.merge first second) = field.merge first (change.apply second) := by
  cases hfirst with
  | absent => rw [FieldPlan.none_merge, FieldPlan.none_merge]
  | single hmap hsingle _ =>
      cases hchange with
      | @assign value _ _ _ =>
          rw [FieldPlan.merge_single hmap hsingle, FieldPlan.merge_single hmap hsingle]
          cases value with
          | none => exact absurd rfl hsome
          | some value => rfl
      | append _ hrepeated _ => exact absurd hrepeated hsingle
      | put hmap' _ => exact absurd (hmap.symm.trans hmap') Bool.false_ne_true
  | @list items hmap hrepeated _ _ =>
      cases hchange with
      | assign _ hsingle _ => exact absurd hrepeated hsingle
      | put hmap' _ => exact absurd (hmap.symm.trans hmap') Bool.false_ne_true
      | @append item _ _ _ =>
          cases item with
          | none => rfl
          | some item =>
              cases hsecond with
              | absent =>
                  rw [FieldPlan.merge_none]
                  exact (FieldPlan.merge_list hmap hrepeated items [item]).symm
              | single _ hsingle _ => exact absurd hrepeated hsingle
              | map hmap' _ _ _ => exact absurd (hmap.symm.trans hmap') Bool.false_ne_true
              | @list others _ _ _ _ =>
                  rw [FieldPlan.merge_list hmap hrepeated]
                  simp only [FieldChange.apply]
                  rw [FieldPlan.merge_list hmap hrepeated, List.append_assoc]
  | @map entries hmap _ hincreasing _ =>
      cases hchange with
      | assign hmap' _ _ => exact absurd (hmap'.symm.trans hmap) Bool.false_ne_true
      | append hmap' _ _ => exact absurd (hmap'.symm.trans hmap) Bool.false_ne_true
      | @put key value _ _ =>
          cases hsecond with
          | absent =>
              rw [FieldPlan.merge_none]
              exact (FieldPlan.merge_map hmap entries [(key, value)]).symm
          | single hmap' _ _ => exact absurd (hmap'.symm.trans hmap) Bool.false_ne_true
          | list hmap' _ _ _ => exact absurd (hmap'.symm.trans hmap) Bool.false_ne_true
          | @map others _ _ hothers _ =>
              rw [FieldPlan.merge_map hmap]
              simp only [FieldChange.apply]
              rw [FieldPlan.merge_map hmap, Sorted.override_insert hincreasing hothers]

/-- What one change does to a merged message, all of them do. -/
theorem DecodedField.foldl_merge (hfirst : DecodedField set Nested field first)
    {changes : List Change} (hchanges : ∀ change ∈ changes,
      DecodedChange set Nested field change.what ∧ change.what ≠ .assign none)
    (hsecond : DecodedField set Nested field second) :
    changes.foldl (fun old change => change.what.apply old) (field.merge first second) =
      field.merge first (changes.foldl (fun old change => change.what.apply old) second) := by
  induction changes generalizing second with
  | nil => rfl
  | cons change rest ih =>
      obtain ⟨⟨hchange, hsome⟩, hrest⟩ := List.forall_mem_cons.mp hchanges
      rw [List.foldl_cons, List.foldl_cons, hfirst.apply_merge hsecond hchange hsome]
      exact ih hrest (hsecond.apply hchange)

end Merge

section Records

variable {plan : MessagePlan} {first second : Record}

/-- A merged message has the merged values of the fields of its plan, and no others. -/
theorem MessagePlan.value?_merge_eq_some (hnames : (plan.fields.map (·.name)).Nodup)
    {name : String} {value : Value} :
    Record.value? (plan.merge first second) name = some value ↔
      ∃ field ∈ plan.fields, field.name = name ∧
        field.merge (Record.value? first field.name) (Record.value? second field.name) =
          some value := by
  let own : FieldPlan → Option (String × Value) := fun field =>
    (field.merge (Record.value? first field.name) (Record.value? second field.name)).map
      (field.name, ·)
  have hmem : (name, value) ∈ plan.fields.filterMap own ↔ ∃ field ∈ plan.fields,
      field.name = name ∧ field.merge (Record.value? first field.name)
        (Record.value? second field.name) = some value := by
    constructor
    · intro hmem
      obtain ⟨field, hfield, hown⟩ := List.mem_filterMap.mp hmem
      obtain ⟨_, hvalue, heq⟩ := Option.map_eq_some_iff.mp hown
      cases heq
      exact ⟨field, hfield, rfl, hvalue⟩
    · rintro ⟨field, hfield, rfl, hvalue⟩
      exact List.mem_filterMap.mpr
        ⟨field, hfield, Option.map_eq_some_iff.mpr ⟨value, hvalue, rfl⟩⟩
  have hnodup : ((plan.fields.filterMap own).map (·.1)).Nodup := by
    rw [List.Nodup, List.pairwise_map, List.pairwise_filterMap]
    refine (List.pairwise_map.mp hnames).imp ?_
    intro field other hne pair hpair pair' hpair'
    obtain ⟨_, -, rfl⟩ := Option.map_eq_some_iff.mp hpair
    obtain ⟨_, -, rfl⟩ := Option.map_eq_some_iff.mp hpair'
    exact hne
  rw [← hmem, ← (Sorted.ofList_perm hnodup).mem_iff]
  exact ⟨Sorted.mem_of_find?, Sorted.find?_of_mem (Sorted.increasing_ofList _)⟩

theorem MessagePlan.value?_merge (hnames : (plan.fields.map (·.name)).Nodup) {field : FieldPlan}
    (hfield : field ∈ plan.fields) : Record.value? (plan.merge first second) field.name =
      field.merge (Record.value? first field.name) (Record.value? second field.name) := by
  refine Option.ext fun value => ?_
  rw [value?_merge_eq_some hnames]
  constructor
  · rintro ⟨other, hother, hname, hvalue⟩
    obtain rfl := List.inj_on_of_nodup_map hnames hother hfield hname
    exact hvalue
  · exact fun hvalue => ⟨field, hfield, rfl, hvalue⟩

end Records

end WireCodec
