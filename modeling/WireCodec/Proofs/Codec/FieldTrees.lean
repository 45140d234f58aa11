import WireCodec.Proofs.Codec.MessageTree
import WireCodec.Proofs.Lists
import WireCodec.Proofs.Outcome
import WireCodec.Proofs.Plan.Coherent

/-! # Trees of fields

What there is on the wire for a single value, for a map entry and for a field.
A message that can be encoded is the sequence of what there is for the fields
of its plan, each under the key of the field.
-/

namespace WireCodec

theorem Value.toScalar?_eq_some {type : ScalarType} {value : Value} {x : type.Carrier} :
    value.toScalar? type = some x ↔ value = .ofScalar type x := by
  constructor
  · intro h
    cases type <;> cases value <;> simp_all [Value.toScalar?, Value.ofScalar]
  · rintro rfl
    exact Value.toScalar?_ofScalar type x

/-- The key under which the occurrences of a field are written. -/
def FieldPlan.key (field : FieldPlan) : Key := ⟨field.number, field.writtenAs.code⟩

theorem FieldPlan.stepAt_key (field : FieldPlan) (index : Nat) :
    (field.stepAt index).key = field.key := by
  unfold EncodeStep.key FieldPlan.stepAt FieldPlan.form FieldPlan.key FieldPlan.writtenAs
  cases field.isMapEntry with
  | true => rfl
  | false =>
      cases field.packed with
      | true => rfl
      | false => by_cases h : field.cardinality = .repeated <;> simp [h, Tag.key]

variable (set : PlanSet)

/-- A single value of a type, and what there is for it on the wire. -/
inductive ElementTree : ValueType → Value → WireValue → Prop
  | scalar (type : ScalarType) (x : type.Carrier) :
      ElementTree (.scalar type) (.ofScalar type x) (type.wire x)
  | enum {name symbol : String} {table : EnumTable} {number : Int32}
      (htable : set.enum? name = some table) (hnumber : table.number? symbol = some number) :
      ElementTree (.enum name) (.enum symbol) (ScalarType.wire .int32 number)
  | message {name : String} {plan : MessagePlan} {fields : Record} {tree : List (Key × WireValue)}
      (hplan : set.message? name = some plan) (htree : messageTree set plan fields = .ok tree) :
      ElementTree (.message name) (.message fields) (.message tree)

/-- A map entry, and what there is for it on the wire. -/
inductive EntryTree (key : ScalarType) (type : ValueType) : MapKey × Value → WireValue → Prop
  | intro {mapKey : MapKey} {value : Value} {first second : WireValue}
      (hkey : ElementTree set (.scalar key) (.ofMapKey mapKey) first)
      (hvalue : ElementTree set type value second) :
      EntryTree key type (mapKey, value)
        (.message [(⟨1, key.wireType.code⟩, first), (⟨2, type.wireType.code⟩, second)])

/-- What a message has for a field, and what there is for it on the wire. -/
inductive FieldTree (field : FieldPlan) : Option Value → List WireValue → Prop
  | absent : FieldTree field none []
  | single {value : Value} {tree : WireValue} (hform : field.form = .single)
      (htree : ElementTree set field.type value tree) : FieldTree field (some value) [tree]
  | each {items : List Value} {trees : List WireValue} (hform : field.form = .each)
      (htrees : List.Forall₂ (ElementTree set field.type) items trees) :
      FieldTree field (some (.list items)) trees
  | noItems (hform : field.form = .packed) : FieldTree field (some (.list [])) []
  | packed {items : List Value} {trees : List WireValue} (hform : field.form = .packed)
      (hitems : items ≠ []) (htrees : List.Forall₂ (ElementTree set field.type) items trees) :
      FieldTree field (some (.list items)) [.run trees]
  | entries {name : String} {plan : MessagePlan} {key : ScalarType} {type : ValueType}
      {entries : List (MapKey × Value)} {trees : List WireValue}
      (hform : field.form = .mapEntries name) (hplan : set.message? name = some plan)
      (hentry : plan.IsEntry key type)
      (htrees : List.Forall₂ (EntryTree set key type) entries trees) :
      FieldTree field (some (.map entries)) trees

variable {set}

theorem leafTree_eq_ok {name : String} {type : ValueType} {value : Value} {tree : WireValue}
    (h : leafTree set name type value = .ok tree) : ElementTree set type value tree := by
  unfold leafTree at h
  split at h
  next type =>
    split at h
    next x hx =>
      cases h
      rw [Value.toScalar?_eq_some.mp hx]
      exact .scalar type x
    next => cases h
  next enum =>
    split at h
    next symbol =>
      split at h
      next => cases h
      next table htable =>
        split at h
        next number hnumber =>
          cases h
          exact .enum htable hnumber
        next => cases h
    next => cases h
  next => cases h

theorem valueTree_eq_ok {name : String} {type : ValueType} {value : Value} {tree : WireValue} :
    valueTree set name type value = .ok tree ↔ ElementTree set type value tree := by
  constructor
  · intro h
    unfold valueTree at h
    split at h
    next message fields =>
      split at h
      next plan hplan =>
        obtain ⟨fieldTree, htree, h⟩ := Except.bind_eq_ok.mp h
        cases h
        exact .message hplan htree
      next => cases h
    next => exact leafTree_eq_ok h
  · intro h
    cases h with
    | scalar type x =>
        unfold valueTree
        simp [leafTree, Value.toScalar?_ofScalar]
    | enum htable hnumber =>
        unfold valueTree
        simp [leafTree, htable, hnumber]
    | message hplan htree =>
        unfold valueTree
        simp [hplan, htree]

theorem itemTrees_eq_ok {field : FieldPlan} {items : List Value} {trees : List WireValue} :
    itemTrees set field items = .ok trees ↔
      List.Forall₂ (ElementTree set field.type) items trees := by
  induction items generalizing trees with
  | nil =>
      unfold itemTrees
      simp [eq_comm]
  | cons item rest ih =>
      unfold itemTrees
      simp only [Except.bind_eq_ok, valueTree_eq_ok, ih, List.forall₂_cons_left_iff]
      constructor
      · rintro ⟨first, hfirst, others, hothers, h⟩
        cases h
        exact ⟨first, others, hfirst, hothers, rfl⟩
      · rintro ⟨first, others, hfirst, hothers, rfl⟩
        exact ⟨first, hfirst, others, hothers, rfl⟩

theorem leafTree_ofMapKey_eq_ok {name : String} {key : ScalarType} {mapKey : MapKey}
    {tree : WireValue} : leafTree set name (.scalar key) (.ofMapKey mapKey) = .ok tree ↔
      ElementTree set (.scalar key) (.ofMapKey mapKey) tree := by
  refine ⟨leafTree_eq_ok, ?_⟩
  intro h
  have hleaf : valueTree set name (.scalar key) (.ofMapKey mapKey) =
      leafTree set name (.scalar key) (.ofMapKey mapKey) := by
    unfold valueTree
    rfl
  rw [← hleaf]
  exact valueTree_eq_ok.mpr h

theorem entryTrees_eq_ok {keyPlan valuePlan : FieldPlan} {key : ScalarType}
    (hkey : keyPlan.type = .scalar key) {entries : List (MapKey × Value)}
    {trees : List WireValue} : entryTrees set keyPlan valuePlan entries = .ok trees ↔
      List.Forall₂ (EntryTree set key valuePlan.type) entries trees := by
  induction entries generalizing trees with
  | nil =>
      unfold entryTrees
      simp [eq_comm]
  | cons entry rest ih =>
      obtain ⟨mapKey, value⟩ := entry
      unfold entryTrees
      simp only [Except.bind_eq_ok, hkey, leafTree_ofMapKey_eq_ok, valueTree_eq_ok, ih,
        List.forall₂_cons_left_iff]
      constructor
      · rintro ⟨first, hfirst, second, hsecond, others, hothers, h⟩
        cases h
        exact ⟨_, others, .intro hfirst hsecond, hothers, rfl⟩
      · rintro ⟨tree, others, ⟨hfirst, hsecond⟩, hothers, rfl⟩
        exact ⟨_, hfirst, _, hsecond, others, hothers, rfl⟩

section Forms

variable {field : FieldPlan} {found : Option Value} {trees : List WireValue}

theorem FieldTree.of_single (hform : field.form = .single) (h : FieldTree set field found trees) :
    found = none ∧ trees = [] ∨ ∃ value tree, found = some value ∧ trees = [tree] ∧
      ElementTree set field.type value tree := by
  cases h with
  | absent => exact Or.inl ⟨rfl, rfl⟩
  | single _ htree => exact Or.inr ⟨_, _, rfl, rfl, htree⟩
  | each hother | noItems hother | packed hother | entries hother =>
      rw [hform] at hother
      cases hother

theorem FieldTree.of_each (hform : field.form = .each) (h : FieldTree set field found trees) :
    ∃ items, (found = none ∧ items = [] ∨ found = some (.list items)) ∧
      List.Forall₂ (ElementTree set field.type) items trees := by
  cases h with
  | absent => exact ⟨[], Or.inl ⟨rfl, rfl⟩, .nil⟩
  | each _ htrees => exact ⟨_, Or.inr rfl, htrees⟩
  | single hother | noItems hother | packed hother | entries hother =>
      rw [hform] at hother
      cases hother

theorem FieldTree.of_packed (hform : field.form = .packed) (h : FieldTree set field found trees) :
    ∃ items elements, (found = none ∧ items = [] ∨ found = some (.list items)) ∧
      List.Forall₂ (ElementTree set field.type) items elements ∧
      trees = if items = [] then [] else [.run elements] := by
  cases h with
  | absent => exact ⟨[], [], Or.inl ⟨rfl, rfl⟩, .nil, rfl⟩
  | noItems _ => exact ⟨[], [], Or.inr rfl, .nil, rfl⟩
  | packed _ hitems htrees => exact ⟨_, _, Or.inr rfl, htrees, (if_neg hitems).symm⟩
  | single hother | each hother | entries hother =>
      rw [hform] at hother
      cases hother

theorem FieldTree.of_entries {name : String} (hform : field.form = .mapEntries name)
    {plan : MessagePlan} {key : ScalarType} {type : ValueType}
    (hplan : set.message? name = some plan) (hentry : plan.IsEntry key type)
    (h : FieldTree set field found trees) :
    ∃ entries, (found = none ∧ entries = [] ∨ found = some (.map entries)) ∧
      List.Forall₂ (EntryTree set key type) entries trees := by
  cases h with
  | absent => exact ⟨[], Or.inl ⟨rfl, rfl⟩, .nil⟩
  | entries hother hplan' hentry' htrees =>
      cases hform.symm.trans hother
      cases hplan.symm.trans hplan'
      obtain ⟨rfl, rfl⟩ := hentry.unique hentry'
      exact ⟨_, Or.inr rfl, htrees⟩
  | single hother | each hother | noItems hother | packed hother =>
      rw [hform] at hother
      cases hother

end Forms

theorem FieldPlan.Coherent.entry_of_form {field : FieldPlan} (h : field.Coherent set)
    {name : String} (hform : field.form = .mapEntries name) :
    field.type = .message name ∧
      ∃ plan key type, set.message? name = some plan ∧ plan.IsEntry key type := by
  unfold FieldPlan.form at hform
  split at hform
  next hmap =>
    obtain ⟨_, message, plan, key, type, htype, hplan, hentry⟩ := h.entry hmap
    rw [htype] at hform
    cases hform
    exact ⟨htype, plan, key, type, hplan, hentry⟩
  next =>
    split at hform
    · cases hform
    split at hform <;> cases hform

theorem fieldTrees_eq_ok {field : FieldPlan} (hfield : field.Coherent set) {value : Value}
    {trees : List WireValue} : fieldTrees set field field.form value = .ok trees ↔
      FieldTree set field (some value) trees := by
  constructor
  · intro h
    unfold fieldTrees at h
    split at h
    next hform =>
      obtain ⟨tree, htree, h⟩ := Except.bind_eq_ok.mp h
      cases h
      exact .single hform (valueTree_eq_ok.mp htree)
    next hform =>
      split at h
      next items => exact .each hform (itemTrees_eq_ok.mp h)
      next => cases h
    next hform =>
      split at h
      next =>
        cases h
        exact .noItems hform
      next items hitems =>
        obtain ⟨inner, hinner, h⟩ := Except.bind_eq_ok.mp h
        cases h
        exact .packed hform (by simpa using hitems) (itemTrees_eq_ok.mp hinner)
      next => cases h
    next name hform =>
      obtain ⟨_, plan, key, type, hplan, hentry⟩ := hfield.entry_of_form hform
      split at h
      next entries =>
        rw [hplan] at h
        simp only [hentry.fields] at h
        exact .entries hform hplan hentry ((entryTrees_eq_ok rfl).mp h)
      next => cases h
  · intro h
    unfold fieldTrees
    cases h with
    | single hform htree => simp [hform, valueTree_eq_ok.mpr htree]
    | each hform htrees => simp [hform, itemTrees_eq_ok.mpr htrees]
    | noItems hform => simp [hform]
    | @packed items trees hform hitems htrees =>
        cases items with
        | nil => exact absurd rfl hitems
        | cons item rest => simp [hform, itemTrees_eq_ok.mpr htrees]
    | entries hform hplan hentry htrees =>
        simp only [hform, hplan, hentry.fields]
        exact (entryTrees_eq_ok rfl).mpr htrees

/-- What a message has on the wire for a field, if it can be encoded. -/
def contribution (set : PlanSet) (record : Record) (field : FieldPlan) :
    Except EncodeError (List WireValue) :=
  match Record.value? record field.name with
  | none => .ok []
  | some value => fieldTrees set field field.form value

theorem contribution_eq_ok {record : Record} {field : FieldPlan} (hfield : field.Coherent set)
    {trees : List WireValue} : contribution set record field = .ok trees ↔
      FieldTree set field (Record.value? record field.name) trees := by
  unfold contribution
  cases Record.value? record field.name with
  | none =>
      constructor
      · rintro ⟨⟩
        exact .absent
      · rintro ⟨⟩
        rfl
  | some value => exact fieldTrees_eq_ok hfield

/-- A step is the step of its field, so it writes what the field contributes. -/
theorem stepTrees_cons_of_field {plan : MessagePlan} {record : Record} {step : EncodeStep}
    {field : FieldPlan} (hget : plan.fields[step.field]? = some field)
    (hat : step = field.stepAt step.field) (rest : List EncodeStep) :
    stepTrees set plan record (step :: rest) =
      contribution set record field >>= fun own =>
        stepTrees set plan record rest >>= fun others =>
          pure (own.map (field.key, ·) ++ others) := by
  have hkey : step.key = field.key := by rw [hat, FieldPlan.stepAt_key]
  have hform : step.form = field.form := by rw [hat]; rfl
  rw [stepTrees_cons, hget, hkey]
  dsimp only
  rw [hform]
  unfold contribution
  cases Record.value? record field.name <;> rfl

theorem stepTrees_eq_ok {plan : MessagePlan} {record : Record} {steps : List EncodeStep}
    {fields : List FieldPlan} (hsteps : List.Forall₂ (fun step field =>
      plan.fields[step.field]? = some field ∧ step = field.stepAt step.field) steps fields)
    {tree : List (Key × WireValue)} : stepTrees set plan record steps = .ok tree ↔
      (∀ field ∈ fields, ∃ own, contribution set record field = .ok own) ∧
        tree = fields.flatMap fun field =>
          ((contribution set record field).toOption.getD []).map (field.key, ·) := by
  induction hsteps generalizing tree with
  | nil =>
      unfold stepTrees
      simp [eq_comm]
  | @cons step field rest others hstep _ ih =>
      obtain ⟨hget, hat⟩ := hstep
      rw [stepTrees_cons_of_field hget hat]
      cases hown : contribution set record field with
      | error e => simp [hown]
      | ok own =>
          simp only [Except.ok_bind, Except.bind_eq_ok, ih, List.forall_mem_cons, hown,
            List.flatMap_cons, Except.toOption, Option.getD_some]
          constructor
          · rintro ⟨others, ⟨hothers, rfl⟩, h⟩
            cases h
            exact ⟨⟨⟨own, rfl⟩, hothers⟩, rfl⟩
          · rintro ⟨⟨_, hothers⟩, rfl⟩
            exact ⟨_, ⟨hothers, rfl⟩, rfl⟩

/-- Each step is the step of the field at its place. -/
theorem MessagePlan.LaidOut.forall₂_steps {plan : MessagePlan} (h : plan.LaidOut) :
    List.Forall₂ (fun (step : EncodeStep) (field : FieldPlan) =>
      plan.fields[step.field]? = some field ∧ step = field.stepAt step.field)
      plan.steps plan.fields := by
  rw [h.steps]
  refine List.forall₂_iff_get.mpr ⟨List.length_mapIdx, ?_⟩
  intro index hleft hright
  simp only [List.get_eq_getElem, List.getElem_mapIdx]
  exact ⟨List.getElem?_eq_getElem hright, rfl⟩

/-- The encoding of a message is the sequence of what there is for the fields
of its plan, in order. Fields may share a name, and with it a value. -/
theorem messageTree_eq_ok_of_laidOut {plan : MessagePlan} (hlaid : plan.LaidOut)
    (hfields : ∀ field ∈ plan.fields, field.Coherent set) {record : Record}
    {tree : List (Key × WireValue)} : messageTree set plan record = .ok tree ↔
      Record.unknownNames record plan = [] ∧ ∃ own : FieldPlan → List WireValue,
        (∀ field ∈ plan.fields,
          FieldTree set field (Record.value? record field.name) (own field)) ∧
        tree = plan.fields.flatMap fun field => (own field).map (field.key, ·) := by
  unfold messageTree
  cases hnames : Record.unknownNames record plan with
  | cons name rest => simp
  | nil =>
      dsimp only
      rw [stepTrees_eq_ok hlaid.forall₂_steps]
      constructor
      · rintro ⟨hall, rfl⟩
        refine ⟨rfl, _, ?_, rfl⟩
        intro field hfield
        obtain ⟨own, hown⟩ := hall field hfield
        rw [hown]
        exact (contribution_eq_ok (hfields field hfield)).mp hown
      · rintro ⟨-, own, hown, rfl⟩
        have hcontribution : ∀ field ∈ plan.fields,
            contribution set record field = .ok (own field) := fun field hfield =>
          (contribution_eq_ok (hfields field hfield)).mpr (hown field hfield)
        refine ⟨fun field hfield => ⟨own field, hcontribution field hfield⟩, ?_⟩
        refine List.flatMap_congr ?_
        intro field hfield
        rw [hcontribution field hfield]
        rfl

theorem messageTree_eq_ok {plan : MessagePlan} (hplan : plan.Named set) {record : Record}
    {tree : List (Key × WireValue)} : messageTree set plan record = .ok tree ↔
      Record.unknownNames record plan = [] ∧ ∃ own : FieldPlan → List WireValue,
        (∀ field ∈ plan.fields,
          FieldTree set field (Record.value? record field.name) (own field)) ∧
        tree = plan.fields.flatMap fun field => (own field).map (field.key, ·) :=
  messageTree_eq_ok_of_laidOut hplan.toLaidOut hplan.fields

end WireCodec
