import WireCodec.Proofs.Codec.RoundTrip
import WireCodec.Proofs.Wire.Delimiting

/-! # Equal encodings

Two messages have the same encoding exactly when their numbered forms are the
same, whether or not they can be decoded. The bytes of a message determine the
bytes of its parts, and the parts what they were written for.
-/

namespace WireCodec

variable {set : PlanSet}

variable (set) in
/-- Whatever has the same encoding as a message has the same numbered form,
and the other way around. -/
def Distinguished (plan : MessagePlan) (record : Record) : Prop :=
  ∀ (other : Record) (tree tree' : List (Key × WireValue)), other.Ordered →
    messageTree set plan record = .ok tree → messageTree set plan other = .ok tree' →
    WireValue.MessageFits tree → WireValue.MessageFits tree' →
    (WireValue.messageBytes tree = WireValue.messageBytes tree' ↔
      set.numbered plan record = set.numbered plan other)

section Elements

variable {type : ValueType} {value value' : Value} {tree tree' : WireValue}

theorem ElementTree.endsAs (h : ElementTree set type value tree) (hfits : tree.Fits) :
    tree.EndsAs type.wireType.code := by
  cases h with
  | scalar type x => exact WireValue.endsAs_scalar type x hfits
  | enum htable hnumber => exact WireValue.endsAs_scalar .int32 _ hfits
  | message hplan htree => exact WireValue.endsAs_message hfits

theorem ScalarType.wire_inj {type : ScalarType} {x y : type.Carrier}
    (hx : (type.wire x).Fits) (hy : (type.wire y).Fits) :
    (type.wire x).bytes = (type.wire y).bytes ↔ x = y := by
  constructor
  · intro h
    exact ((Read.parses_scalar 0 type x hx).unique (Read.parses_scalar 0 type y hy)
      (congrArg (· ++ []) h)).1
  · rintro rfl
    rfl

theorem Value.ofScalar_inj {type : ScalarType} {x y : type.Carrier} :
    Value.ofScalar type x = .ofScalar type y ↔ x = y := by
  constructor
  · intro h
    have hscalar := congrArg (Value.toScalar? type) h
    rw [Value.toScalar?_ofScalar, Value.toScalar?_ofScalar] at hscalar
    exact Option.some.inj hscalar
  · rintro rfl
    rfl

/-- Elements of one type have the same bytes when their numbered forms are the same. -/
theorem ElementTree.bytes_eq_iff (h : ElementTree set type value tree)
    (h' : ElementTree set type value' tree') (hfits : tree.Fits) (hfits' : tree'.Fits)
    (hnested : ∀ fields plan, value = .message fields → set.nested? (some type) = some plan →
      Distinguished set plan fields)
    (hordered : ∀ fields, value' = .message fields → Record.Ordered fields) :
    tree.bytes = tree'.bytes ↔ value.normal set EnumTable.numberValue (some type) =
      value'.normal set EnumTable.numberValue (some type) := by
  cases h with
  | scalar type x =>
      cases h' with
      | scalar type y =>
          rw [Value.normal_ofScalar, Value.normal_ofScalar, ScalarType.wire_inj hfits hfits',
            Value.ofScalar_inj]
  | enum htable hnumber =>
      cases h' with
      | enum htable' hnumber' =>
          cases htable.symm.trans htable'
          rw [ScalarType.wire_inj hfits hfits']
          simp [Value.normal, renameSymbol, htable, EnumTable.numberValue, hnumber, hnumber']
  | message hplan htree =>
      cases h' with
      | message hplan' htree' =>
          cases hplan.symm.trans hplan'
          have hinner := hnested _ _ rfl hplan _ _ _ (hordered _ rfl) htree htree' hfits.2 hfits'.2
          rw [WireValue.bytes, WireValue.bytes, WireValue.delimitedForm_inj hfits.1 hfits'.1,
            hinner]
          simp [Value.normal, PlanSet.nested?, hplan, PlanSet.numbered]

end Elements

/-- Entries of one map type have the same bytes when their keys and the
numbered forms of their values are the same. -/
theorem EntryTree.bytes_eq_iff {key : ScalarType} {type : ValueType}
    {entry entry' : MapKey × Value} {tree tree' : WireValue}
    (h : EntryTree set key type entry tree) (h' : EntryTree set key type entry' tree')
    (hfits : tree.Fits) (hfits' : tree'.Fits)
    (hnested : ∀ fields plan, entry.2 = .message fields → set.nested? (some type) = some plan →
      Distinguished set plan fields)
    (hordered : ∀ fields, entry'.2 = .message fields → Record.Ordered fields) :
    tree.bytes = tree'.bytes ↔
      (entry.1, entry.2.normal set EnumTable.numberValue (some type)) =
        (entry'.1, entry'.2.normal set EnumTable.numberValue (some type)) := by
  cases h with
  | @intro mapKey value first second hkey hvalue =>
      cases h' with
      | @intro mapKey' value' first' second' hkey' hvalue' =>
          -- an entry is a message of two keyed values
          have hkeyed : ∀ {first second : WireValue}, first.EndsAs key.wireType.code →
              second.EndsAs type.wireType.code → ∀ field ∈ [((⟨1, key.wireType.code⟩ : Key), first),
                (⟨2, type.wireType.code⟩, second)], WireValue.Keyed field := by
            intro first second hfirst hsecond
            simp only [List.forall_mem_cons]
            exact ⟨⟨by simp, by simp, key.wireType.code_lt, hfirst⟩,
              ⟨by simp, by simp, type.wireType.code_lt, hsecond⟩, by simp⟩
          have hkeys := hkey.bytes_eq_iff hkey' hfits.2.1 hfits'.2.1
            (fun _ _ _ hplan => by cases hplan)
            (fun fields hfields => by cases mapKey' <;> cases hfields)
          have hvalues := hvalue.bytes_eq_iff hvalue' hfits.2.2.1 hfits'.2.2.1 hnested hordered
          rw [Value.normal_ofMapKey, Value.normal_ofMapKey, Value.ofMapKey_inj] at hkeys
          rw [WireValue.bytes, WireValue.bytes, WireValue.delimitedForm_inj hfits.1 hfits'.1,
            WireValue.messageBytes_inj
              (hkeyed (hkey.endsAs hfits.2.1) (hvalue.endsAs hfits.2.2.1))
              (hkeyed (hkey'.endsAs hfits'.2.1) (hvalue'.endsAs hfits'.2.2.1))]
          simp [hkeys, hvalues]

section Lists

variable {type : ValueType} {trees trees' : List WireValue}

/-- The elements of a list have the same bytes when their numbered forms are the same. -/
theorem elements_bytes_eq_iff {items items' : List Value}
    (h : List.Forall₂ (ElementTree set type) items trees)
    (h' : List.Forall₂ (ElementTree set type) items' trees')
    (hfits : ∀ tree ∈ trees, tree.Fits) (hfits' : ∀ tree ∈ trees', tree.Fits)
    (hnested : ∀ fields, .message fields ∈ items → ∀ plan, set.nested? (some type) = some plan →
      Distinguished set plan fields)
    (hordered : ∀ fields, .message fields ∈ items' → Record.Ordered fields) :
    trees.map WireValue.bytes = trees'.map WireValue.bytes ↔
      items.map (Value.normal set EnumTable.numberValue (some type)) =
        items'.map (Value.normal set EnumTable.numberValue (some type)) := by
  refine forall₂_map_eq_iff h h' ?_
  intro item hitem tree htree item' hitem' tree' htree' helement helement'
  refine helement.bytes_eq_iff helement' (hfits _ htree) (hfits' _ htree') ?_ ?_
  · rintro fields plan rfl hplan
    exact hnested fields hitem plan hplan
  · rintro fields rfl
    exact hordered fields hitem'

/-- The entries of a map have the same bytes when their keys and the numbered
forms of their values are the same. -/
theorem entries_bytes_eq_iff {key : ScalarType} {entries entries' : List (MapKey × Value)}
    (h : List.Forall₂ (EntryTree set key type) entries trees)
    (h' : List.Forall₂ (EntryTree set key type) entries' trees')
    (hfits : ∀ tree ∈ trees, tree.Fits) (hfits' : ∀ tree ∈ trees', tree.Fits)
    (hnested : ∀ fields, .message fields ∈ entries.map (·.2) →
      ∀ plan, set.nested? (some type) = some plan → Distinguished set plan fields)
    (hordered : ∀ fields, .message fields ∈ entries'.map (·.2) → Record.Ordered fields) :
    trees.map WireValue.bytes = trees'.map WireValue.bytes ↔
      entries.map (fun entry =>
          (entry.1, entry.2.normal set EnumTable.numberValue (some type))) =
        entries'.map fun entry =>
          (entry.1, entry.2.normal set EnumTable.numberValue (some type)) := by
  refine forall₂_map_eq_iff h h' ?_
  intro entry hentry tree htree entry' hentry' tree' htree' hentryTree hentryTree'
  refine hentryTree.bytes_eq_iff hentryTree' (hfits _ htree) (hfits' _ htree') ?_ ?_
  · intro fields plan hfields hplan
    exact hnested fields (hfields ▸ List.mem_map_of_mem hentry) plan hplan
  · intro fields hfields
    exact hordered fields (hfields ▸ List.mem_map_of_mem hentry')

/-- Packed runs have the same bytes when their elements have. -/
theorem run_bytes_eq_iff {items items' : List Value}
    (h : List.Forall₂ (ElementTree set type) items trees)
    (h' : List.Forall₂ (ElementTree set type) items' trees')
    (hfits : (WireValue.run trees).Fits) (hfits' : (WireValue.run trees').Fits) :
    (WireValue.run trees).bytes = (WireValue.run trees').bytes ↔
      trees.map WireValue.bytes = trees'.map WireValue.bytes := by
  have hends : ∀ {items : List Value} {trees : List WireValue},
      List.Forall₂ (ElementTree set type) items trees → (WireValue.run trees).Fits →
      ∀ tree ∈ trees, tree.EndsAs type.wireType.code ∧ tree.bytes ≠ [] := by
    intro items trees htrees hfits tree hmem
    obtain ⟨item, _, htree⟩ := exists_mem_of_forall₂ htrees hmem
    exact ⟨htree.endsAs (WireValue.runFits_iff.mp hfits.2 tree hmem), htree.bytes_ne_nil⟩
  rw [WireValue.bytes, WireValue.bytes, WireValue.delimitedForm_inj hfits.1 hfits'.1,
    WireValue.runBytes_inj (hends h hfits) (hends h' hfits')]

theorem fits_of_packed {items : List Value} (h : List.Forall₂ (ElementTree set type) items trees)
    (hfits : ∀ tree ∈ (if items = [] then [] else [WireValue.run trees]), tree.Fits) :
    ∀ tree ∈ trees, tree.Fits := by
  cases h with
  | nil => simp
  | cons hfirst hrest => exact WireValue.runFits_iff.mp (hfits _ List.mem_cons_self).2

/-- Runs that are left out when they are empty have the same bytes when their elements have. -/
theorem packed_bytes_eq_iff {items items' : List Value}
    (h : List.Forall₂ (ElementTree set type) items trees)
    (h' : List.Forall₂ (ElementTree set type) items' trees')
    (hfits : ∀ tree ∈ (if items = [] then [] else [WireValue.run trees]), tree.Fits)
    (hfits' : ∀ tree ∈ (if items' = [] then [] else [WireValue.run trees']), tree.Fits) :
    (if items = [] then [] else [WireValue.run trees]).map WireValue.bytes =
        (if items' = [] then [] else [WireValue.run trees']).map WireValue.bytes ↔
      trees.map WireValue.bytes = trees'.map WireValue.bytes := by
  cases h with
  | nil => cases h' <;> simp
  | cons hfirst hrest =>
      cases h' with
      | nil => simp
      | cons hfirst' hrest' =>
          have hrun := run_bytes_eq_iff (.cons hfirst hrest) (.cons hfirst' hrest')
            (hfits _ List.mem_cons_self) (hfits' _ List.mem_cons_self)
          simpa using hrun

end Lists

section Fields

variable {field : FieldPlan} {found found' : Option Value} {trees trees' : List WireValue}

theorem found_of_mem {α : Type} {items : List α} {value : Value}
    (hfound : found = none ∧ items = [] ∨ found = some value) {item : α} (hitem : item ∈ items) :
    found = some value := by
  rcases hfound with ⟨_, rfl⟩ | hfound
  · cases hitem
  · exact hfound

/-- Where missing and empty collections count as one, collections are the same
when their items are. -/
theorem orNone_eq_iff {α β γ : Type} {collect : List β → γ} (hcollect : collect.Injective)
    {f : α → β} {items items' : List α} :
    (if items = [] then none else some (collect (items.map f))) =
        (if items' = [] then none else some (collect (items'.map f))) ↔
      items.map f = items'.map f := by
  cases items <;> cases items' <;> simp [hcollect.eq_iff]

/-- Lists have the same bytes, element by element, when the numbered forms of the fields that
they are held in are the same. -/
theorem list_bytes_eq_iff (hmap : field.isMapEntry = false) {items items' : List Value}
    (hitems : found = none ∧ items = [] ∨ found = some (.list items))
    (hitems' : found' = none ∧ items' = [] ∨ found' = some (.list items'))
    (htrees : List.Forall₂ (ElementTree set field.type) items trees)
    (htrees' : List.Forall₂ (ElementTree set field.type) items' trees')
    (hfits : ∀ tree ∈ trees, tree.Fits) (hfits' : ∀ tree ∈ trees', tree.Fits)
    (hnested : ∀ value, found = some value → ∀ fields, .message fields ∈ value.elements →
      ∀ plan, set.nested? (field.elementType? set) = some plan → Distinguished set plan fields)
    (hordered : ∀ value, found' = some value → ∀ fields, .message fields ∈ value.elements →
      Record.Ordered fields) :
    trees.map WireValue.bytes = trees'.map WireValue.bytes ↔
      field.normal set EnumTable.numberValue found =
        field.normal set EnumTable.numberValue found' := by
  have helement : field.elementType? set = some field.type :=
    FieldPlan.elementType?_of_not_map hmap
  rw [FieldPlan.normal_list hitems, FieldPlan.normal_list hitems',
    orNone_eq_iff fun _ _ => Value.list.inj, helement]
  refine elements_bytes_eq_iff htrees htrees' hfits hfits' ?_ ?_
  · intro fields hmem plan hplan
    exact hnested _ (found_of_mem hitems hmem) fields hmem plan (helement ▸ hplan)
  · intro fields hmem
    exact hordered _ (found_of_mem hitems' hmem) fields hmem

/-- Fields have the same bytes when their numbered forms are the same. -/
theorem FieldTree.bytes_eq_iff (hfield : field.Coherent set)
    (h : FieldTree set field found trees) (h' : FieldTree set field found' trees')
    (hfits : ∀ tree ∈ trees, tree.Fits) (hfits' : ∀ tree ∈ trees', tree.Fits)
    (hnested : ∀ value, found = some value → ∀ fields, .message fields ∈ value.elements →
      ∀ plan, set.nested? (field.elementType? set) = some plan → Distinguished set plan fields)
    (hordered : ∀ value, found' = some value → ∀ fields, .message fields ∈ value.elements →
      Record.Ordered fields) :
    trees.map WireValue.bytes = trees'.map WireValue.bytes ↔
      field.normal set EnumTable.numberValue found =
        field.normal set EnumTable.numberValue found' := by
  cases hform : field.form with
  | single =>
      have helement : field.elementType? set = some field.type :=
        FieldPlan.elementType?_of_not_map (FieldPlan.form_eq_single hform).1
      rcases h.of_single hform with ⟨rfl, rfl⟩ | ⟨value, tree, rfl, rfl, htree⟩ <;>
        rcases h'.of_single hform with ⟨rfl, rfl⟩ | ⟨value', tree', rfl, rfl, htree'⟩
      · simp
      · simp [FieldPlan.normal, (htree'.rebuild_normal field.name).1]
      · simp [FieldPlan.normal, (htree.rebuild_normal field.name).1]
      · have hiff := htree.bytes_eq_iff htree' (hfits _ List.mem_cons_self)
          (hfits' _ List.mem_cons_self)
          (fun fields plan hvalue hplan =>
            hnested _ rfl fields (by simp [hvalue]) plan (helement ▸ hplan))
          (fun fields hvalue => hordered _ rfl fields (by simp [hvalue]))
        simp [FieldPlan.normal_single (htree.rebuild_normal field.name).1,
          FieldPlan.normal_single (htree'.rebuild_normal field.name).1, helement, hiff]
  | each =>
      obtain ⟨items, hitems, htrees⟩ := h.of_each hform
      obtain ⟨items', hitems', htrees'⟩ := h'.of_each hform
      exact list_bytes_eq_iff (FieldPlan.form_eq_each hform).1 hitems hitems' htrees htrees' hfits
        hfits' hnested hordered
  | packed =>
      obtain ⟨items, elements, hitems, htrees, rfl⟩ := h.of_packed hform
      obtain ⟨items', elements', hitems', htrees', rfl⟩ := h'.of_packed hform
      -- a missing run is told from a run by its key alone
      rw [packed_bytes_eq_iff htrees htrees' hfits hfits']
      exact list_bytes_eq_iff (FieldPlan.form_eq_packed hform).1 hitems hitems' htrees htrees'
        (fits_of_packed htrees hfits) (fits_of_packed htrees' hfits') hnested hordered
  | mapEntries name =>
      obtain ⟨htype, plan, key, type, hplan, hentry⟩ := hfield.entry_of_form hform
      have helement := FieldPlan.elementType?_of_entry (FieldPlan.form_eq_mapEntries hform).1 htype
        hplan hentry
      obtain ⟨entries, hentries, htrees⟩ := h.of_entries hform hplan hentry
      obtain ⟨entries', hentries', htrees'⟩ := h'.of_entries hform hplan hentry
      rw [FieldPlan.normal_map hentries, FieldPlan.normal_map hentries',
        orNone_eq_iff fun _ _ => Value.map.inj, helement]
      refine entries_bytes_eq_iff htrees htrees' hfits hfits' ?_ ?_
      · intro fields hmem plan hplan
        obtain ⟨entry, hentryMem, _⟩ := List.mem_map.mp hmem
        exact hnested _ (found_of_mem hentries hentryMem) fields hmem plan (helement ▸ hplan)
      · intro fields hmem
        obtain ⟨entry, hentryMem, _⟩ := List.mem_map.mp hmem
        exact hordered _ (found_of_mem hentries' hentryMem) fields hmem

theorem FieldTree.endsAs (h : FieldTree set field found trees)
    (hfits : ∀ tree ∈ trees, tree.Fits) : ∀ tree ∈ trees, tree.EndsAs field.key.wireType := by
  intro tree hmem
  unfold FieldPlan.key
  cases h with
  | absent | noItems => cases hmem
  | single hform htree =>
      rw [List.mem_singleton.mp hmem, (FieldPlan.form_eq_single hform).2.2]
      exact htree.endsAs (hfits _ List.mem_cons_self)
  | each hform htrees =>
      obtain ⟨_, _, htree⟩ := exists_mem_of_forall₂ htrees hmem
      rw [(FieldPlan.form_eq_each hform).2.2]
      exact htree.endsAs (hfits _ hmem)
  | packed hform hitems htrees =>
      rw [List.mem_singleton.mp hmem, (FieldPlan.form_eq_packed hform).2.2]
      exact WireValue.endsAs_run (hfits _ List.mem_cons_self)
  | entries hform hplan hentry htrees =>
      obtain ⟨_, _, htree⟩ := exists_mem_of_forall₂ htrees hmem
      rw [(FieldPlan.form_eq_mapEntries hform).2.2]
      cases htree with
      | intro hkey hvalue => exact WireValue.endsAs_message (hfits _ hmem)

end Fields

section Message

variable {plan : MessagePlan} {own own' : FieldPlan → List WireValue}

theorem keyed_of_fieldTrees (hplan : plan.Coherent set) {found : FieldPlan → Option Value}
    (hown : ∀ field ∈ plan.fields, FieldTree set field (found field) (own field))
    (hfits : WireValue.MessageFits
      (plan.fields.flatMap fun field => (own field).map (field.key, ·))) :
    ∀ part ∈ plan.fields.flatMap (fun field => (own field).map (field.key, ·)),
      WireValue.Keyed part := by
  intro part hpart
  obtain ⟨field, hfield, hmem⟩ := List.mem_flatMap.mp hpart
  obtain ⟨tree, htree, rfl⟩ := List.mem_map.mp hmem
  have hcoherent := hplan.fields field hfield
  refine ⟨hcoherent.number_ne_zero, hcoherent.number_lt, field.writtenAs.code_lt, ?_⟩
  refine (hown field hfield).endsAs ?_ tree htree
  intro tree htree
  refine WireValue.messageFits_iff.mp hfits (field.key, tree) ?_
  exact List.mem_flatMap.mpr ⟨field, hfield, List.mem_map_of_mem htree⟩

/-- The bytes of a message determine the bytes of its fields. -/
theorem messageBytes_eq_iff (hplan : plan.Coherent set) {found found' : FieldPlan → Option Value}
    (hown : ∀ field ∈ plan.fields, FieldTree set field (found field) (own field))
    (hown' : ∀ field ∈ plan.fields, FieldTree set field (found' field) (own' field))
    (hfits : WireValue.MessageFits
      (plan.fields.flatMap fun field => (own field).map (field.key, ·)))
    (hfits' : WireValue.MessageFits
      (plan.fields.flatMap fun field => (own' field).map (field.key, ·))) :
    WireValue.messageBytes (plan.fields.flatMap fun field => (own field).map (field.key, ·)) =
        WireValue.messageBytes
          (plan.fields.flatMap fun field => (own' field).map (field.key, ·)) ↔
      ∀ field ∈ plan.fields, (own field).map WireValue.bytes = (own' field).map WireValue.bytes := by
  have hnumber : ∀ own : FieldPlan → List WireValue, ∀ field ∈ plan.fields,
      ∀ part ∈ ((own field).map (field.key, ·)).map (fun part => (part.1, part.2.bytes)),
        part.1.number = field.number := by
    intro own field _ part hpart
    obtain ⟨_, hmem, rfl⟩ := List.mem_map.mp hpart
    obtain ⟨tree, _, rfl⟩ := List.mem_map.mp hmem
    rfl
  -- the numbers of fields tell which parts belong to which field
  rw [WireValue.messageBytes_inj (keyed_of_fieldTrees hplan hown hfits)
    (keyed_of_fieldTrees hplan hown' hfits'), List.map_flatMap, List.map_flatMap,
    flatMap_eq_iff_of_labels hplan.numbers (hnumber own) (hnumber own')]
  refine forall₂_congr ?_
  intro field _
  have hparts : ∀ trees : List WireValue,
      (trees.map (field.key, ·)).map (fun part => (part.1, part.2.bytes)) =
        (trees.map WireValue.bytes).map (field.key, ·) := by
    intro trees
    simp
  rw [hparts, hparts]
  exact List.map_inj_right fun _ _ h => (Prod.mk.inj h).2

end Message

/-- A message is told from all others by its encoding. -/
theorem distinguished (hset : set.Coherent) (record : Record) (hordered : record.Ordered)
    {plan : MessagePlan} (hplan : plan.Coherent set) : Distinguished set plan record := by
  induction record using Record.nesting_induction generalizing plan with
  | step record nested =>
      intro other tree tree' hother htree htree' hfits hfits'
      obtain ⟨hknown, own, hown, rfl⟩ := (messageTree_eq_ok hplan.named).mp htree
      obtain ⟨hknown', own', hown', rfl⟩ := (messageTree_eq_ok hplan.named).mp htree'
      obtain ⟨hfields, -, hnested⟩ := hordered
      obtain ⟨hfields', -, hnested'⟩ := hother
      -- both sides are about the fields of the plan, one by one
      rw [messageBytes_eq_iff hplan hown hown' hfits hfits', PlanSet.numbered, PlanSet.numbered,
        normalFields_eq_iff hplan hfields hfields' hknown hknown']
      refine forall₂_congr ?_
      intro field hfield
      have hpart : ∀ own : FieldPlan → List WireValue, ∀ tree ∈ own field, (field.key, tree) ∈
          plan.fields.flatMap fun field => (own field).map (field.key, ·) := fun own tree htree =>
        List.mem_flatMap.mpr ⟨field, hfield, List.mem_map_of_mem htree⟩
      refine (hown field hfield).bytes_eq_iff (hplan.fields field hfield) (hown' field hfield)
        (fun tree htree => WireValue.messageFits_iff.mp hfits _ (hpart own tree htree))
        (fun tree htree => WireValue.messageFits_iff.mp hfits' _ (hpart own' tree htree)) ?_ ?_
      · intro value hvalue fields hmem inner hinner
        have hpair := Sorted.mem_of_find? hvalue
        exact nested _ hpair fields hmem (hnested _ hpair fields hmem) (hset.of_nested? hinner)
      · intro value hvalue fields hmem
        exact hnested' _ (Sorted.mem_of_find? hvalue) fields hmem

/-- Two messages have the same encoding exactly when they have the same
numbered form. Nothing is asked of their nesting or their required fields. -/
theorem PlanSet.encode_eq_iff {source : String} {schema : Schema} {set : PlanSet}
    (hcompile : compile source = .ok schema) (hdistinct : schema.DistinctFields)
    (hbuild : schema.build = .ok set) {message : String} {plan : MessagePlan}
    (hplan : set.declared? message = some plan) {first second : Record}
    (hfirst : first.Ordered) (hsecond : second.Ordered) {bytes bytes' : Bytes}
    (hencode : set.encode plan first = .ok bytes) (hencode' : set.encode plan second = .ok bytes')
    (hfits : set.PayloadsFit plan first) (hfits' : set.PayloadsFit plan second) :
    bytes = bytes' ↔ set.numbered plan first = set.numbered plan second := by
  have hset := coherent_of_build hcompile hdistinct hbuild
  rw [PlanSet.encode_eq] at hencode hencode'
  obtain ⟨tree, htree, rfl⟩ := Except.map_eq_ok.mp hencode
  obtain ⟨tree', htree', rfl⟩ := Except.map_eq_ok.mp hencode'
  have hinj : (WireValue.messageBytes tree).toArray = (WireValue.messageBytes tree').toArray ↔
      WireValue.messageBytes tree = WireValue.messageBytes tree' := by simp
  rw [hinj]
  exact distinguished hset first hfirst (hset.of_declared? hplan) second tree tree' hsecond htree
    htree' (hfits tree htree) (hfits' tree' htree')

/-- Another symbol for the same number and an empty list do not show in the encoding. -/
theorem encode_eq_iff_leafNode :
    let first : Record := [("hue", .enum "CRIMSON"), ("sizes", .list [])]
    let second : Record := [("hue", .enum "RED")]
    nodePlans.encode nodePlan first = .ok #[8, 0] ∧
      nodePlans.encode nodePlan second = .ok #[8, 0] ∧
      nodePlans.numbered nodePlan first = nodePlans.numbered nodePlan second := by
  intro first second
  have hbytes : WireValue.messageBytes [(⟨1, 0⟩, ScalarType.wire .int32 0)] = [8, 0] := by
    have hhue : ScalarType.wire .int32 0 = .inline [0] :=
      congrArg WireValue.inline (Varint.encode_of_lt (by decide))
    simp [hhue, WireValue.messageBytes, WireValue.bytes, Key.form, Key.word, Varint.encode_of_lt]
  have hleaf : ∀ record : Record, messageTree nodePlans nodePlan record =
      .ok [(⟨1, 0⟩, ScalarType.wire .int32 0)] →
      nodePlans.encode nodePlan record = .ok #[8, 0] ∧ nodePlans.PayloadsFit nodePlan record := by
    intro record htree
    have hencode : nodePlans.encode nodePlan record = .ok #[8, 0] := by
      rw [PlanSet.encode_eq, htree, Except.map_ok, hbytes]
    exact ⟨hencode, PlanSet.payloadsFit_of_size hencode (by decide)⟩
  obtain ⟨hencode, hfits⟩ := hleaf first (messageTree_leafNode rfl (Or.inr rfl))
  obtain ⟨hencode', hfits'⟩ := hleaf second (messageTree_leafNode rfl (Or.inl rfl))
  obtain ⟨schema, hcompile, hdistinct, hbuild⟩ := compile_nodeSource
  have hplan : nodePlans.declared? "Node" = some nodePlan := rfl
  exact ⟨hencode, hencode', (PlanSet.encode_eq_iff hcompile hdistinct hbuild hplan
    (ordered_leafNode (Or.inr rfl)) (ordered_leafNode (Or.inl rfl)) hencode hencode' hfits
    hfits').mp rfl⟩

end WireCodec
