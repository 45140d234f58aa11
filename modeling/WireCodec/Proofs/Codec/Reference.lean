import WireCodec.Proofs.Codec.Encodable

/-! # The reference encoding

The bytes of a message by the rules of the format: each field that is present
contributes its tag and its value, element by element or as one run, and the
contributions stand in the order of declaration. There are no buffers and no
errors here.
-/

namespace WireCodec

/-! ## Rules of the format -/

namespace Reference

/-- A payload behind its exact byte count. -/
def counted (payload : List UInt8) : List UInt8 := Varint.encode payload.length ++ payload

/-- A field number together with a wire type. -/
def tag (number : Nat) (wireType : WireType) : List UInt8 :=
  Varint.encode (number * 8 + wireType.code.toNat)

/-- A scalar. Varints hold negative numbers as their residues by 2⁶⁴. -/
def scalar : (type : ScalarType) → type.Carrier → List UInt8
  | .double, x => littleEndian 8 x.bits.toNat
  | .float, x => littleEndian 4 x.bits.toNat
  | .int32, x => Varint.encode (x.toInt % 2 ^ 64).toNat
  | .int64, x => Varint.encode (x.toInt % 2 ^ 64).toNat
  | .uint32, x => Varint.encode x.toNat
  | .uint64, x => Varint.encode x.toNat
  | .sint32, x => Varint.encode (Zigzag.encode x.toInt)
  | .sint64, x => Varint.encode (Zigzag.encode x.toInt)
  | .fixed32, x => littleEndian 4 x.toNat
  | .fixed64, x => littleEndian 8 x.toNat
  | .sfixed32, x => littleEndian 4 (x.toInt % 2 ^ 32).toNat
  | .sfixed64, x => littleEndian 8 (x.toInt % 2 ^ 64).toNat
  | .bool, x => [if x then 1 else 0]
  | .string, x => counted (Bytes.ofText x).toList
  | .bytes, x => counted x.toList

/-- A field, by what there is for each of its elements. -/
def field (field : FieldPlan) (elements : List (List UInt8)) : List UInt8 :=
  if field.packed then
    if elements.isEmpty then []
    else tag field.number.toNat .lengthDelimited ++ counted elements.flatten
  else elements.flatMap (tag field.number.toNat field.type.wireType ++ ·)

/-- The fields of a message in order of declaration, by what is contributed under each name. -/
def fields (plan : MessagePlan) (contributions : List (String × (FieldPlan → List UInt8))) :
    List UInt8 :=
  plan.fields.flatMap fun field =>
    match Sorted.find? field.name contributions with
    | some contribution => contribution field
    | none => []

variable (set : PlanSet)

/-- The types of the keys and the values of a map, by the type of its entries. -/
def entryTypes? (entry : ValueType) : Option (ValueType × ValueType) :=
  match entry with
  | .message name =>
    match (set.message? name).map (·.fields) with
    | some [key, value] => some (key.type, value.type)
    | _ => none
  | _ => none

/-- A value that is no message, of a type. -/
def leaf (type : ValueType) (value : Value) : List UInt8 :=
  match type, value with
  | .scalar type, value => ((value.toScalar? type).map (scalar type)).getD []
  | .enum name, .enum symbol =>
    (((set.enum? name).bind (·.number? symbol)).map (scalar .int32)).getD []
  | _, _ => []

/-- A map entry: its key under the number 1 and its value under the number 2. -/
def entry (keyType valueType : ValueType) (key value : List UInt8) : List UInt8 :=
  counted (tag 1 keyType.wireType ++ key ++ (tag 2 valueType.wireType ++ value))

mutual

/-- What there is for each element of a value; a value that is no list or map is its only
element. -/
def elements (type : ValueType) : Value → List (List UInt8)
  | .message record =>
    match set.nested? (some type) with
    | some plan => [counted (fields plan (contributions record))]
    | none => []
  | .list values => items type values
  | .map pairs =>
    match entryTypes? set type with
    | some (keyType, valueType) => entries keyType valueType pairs
    | none => []
  | .bool b => [leaf set type (.bool b)]
  | .int32 n => [leaf set type (.int32 n)]
  | .int64 n => [leaf set type (.int64 n)]
  | .uint32 n => [leaf set type (.uint32 n)]
  | .uint64 n => [leaf set type (.uint64 n)]
  | .float x => [leaf set type (.float x)]
  | .double x => [leaf set type (.double x)]
  | .string s => [leaf set type (.string s)]
  | .bytes b => [leaf set type (.bytes b)]
  | .enum symbol => [leaf set type (.enum symbol)]

/-- What there is for the items of a list. -/
def items (type : ValueType) : List Value → List (List UInt8)
  | [] => []
  | value :: rest => elements type value ++ items type rest

/-- What there is for the entries of a map. -/
def entries (keyType valueType : ValueType) : List (MapKey × Value) → List (List UInt8)
  | [] => []
  | (key, value) :: rest =>
    entry keyType valueType (leaf set keyType (.ofMapKey key)) (elements valueType value).flatten ::
      entries keyType valueType rest

/-- What the fields of a message contribute, each by its declaration. -/
def contributions : List (String × Value) → List (String × (FieldPlan → List UInt8))
  | [] => []
  | (name, value) :: rest =>
    (name, fun declared => field declared (elements declared.type value)) :: contributions rest

end

end Reference

/-- The bytes of a message by the rules of the format. -/
def PlanSet.reference (set : PlanSet) (plan : MessagePlan) (record : Record) : List UInt8 :=
  Reference.fields plan (Reference.contributions set record)

/-! ## Bytes of wire trees -/

variable {set : PlanSet}

namespace Reference

theorem toNat_residue {w : Nat} (word : BitVec w) : (word.toInt % 2 ^ w).toNat = word.toNat := by
  have hpow : (2 : Int) ^ w = ((2 ^ w : Nat) : Int) := by norm_cast
  rw [BitVec.toInt_eq_toNat_bmod, hpow, Int.bmod_emod,
    Int.toNat_emod (Int.natCast_nonneg _) (Int.natCast_nonneg _), Int.toNat_natCast,
    Int.toNat_natCast, Nat.mod_eq_of_lt word.isLt]

theorem delimitedForm_eq {payload : List UInt8} (h : payload.length < 2 ^ 32) :
    delimitedForm payload = counted payload := by
  rw [delimitedForm, counted, Nat.mod_eq_of_lt h]

theorem form_eq (number : UInt32) (h : number.toNat < 2 ^ 29) (wireType : WireType) :
    Key.form ⟨number, wireType.code⟩ = tag number.toNat wireType := by
  rw [Key.form, tag, Key.toNat_word h wireType.code_lt, Nat.mul_comm]

theorem scalar_eq {type : ScalarType} {x : type.Carrier} (hfits : (type.wire x).Fits) :
    (type.wire x).bytes = scalar type x := by
  have hword32 : ∀ n : Int32, n.toUInt32.toNat = (n.toInt % 2 ^ 32).toNat := fun n =>
    (toNat_residue n.toBitVec).symm
  have hword64 : ∀ n : Int64, n.toUInt64.toNat = (n.toInt % 2 ^ 64).toNat := fun n =>
    (toNat_residue n.toBitVec).symm
  cases type with
  | int32 =>
      have hword := hword64 (Int32.toInt64 x)
      rw [Int32.toInt_toInt64] at hword
      exact congrArg Varint.encode hword
  | int64 => exact congrArg Varint.encode (hword64 x)
  | sfixed32 => exact congrArg (littleEndian 4) (hword32 x)
  | sfixed64 => exact congrArg (littleEndian 8) (hword64 x)
  | sint32 =>
      have hlt := Zigzag.encode_lt (2 ^ 31) (Int32.le_toInt x) (Int32.toInt_lt x)
      exact congrArg Varint.encode (UInt32.toNat_ofNat'.trans (Nat.mod_eq_of_lt hlt))
  | sint64 =>
      have hlt := Zigzag.encode_lt (2 ^ 63) (Int64.le_toInt x) (Int64.toInt_lt x)
      exact congrArg Varint.encode (UInt64.toNat_ofNat'.trans (Nat.mod_eq_of_lt hlt))
  | string | bytes => exact delimitedForm_eq hfits
  | _ => rfl

theorem entryTypes?_of_isEntry {name : String} {plan : MessagePlan} {key : ScalarType}
    {type : ValueType} (hplan : set.message? name = some plan) (hentry : plan.IsEntry key type) :
    entryTypes? set (.message name) = some (.scalar key, type) := by
  simp [entryTypes?, hplan, hentry.fields, FieldPlan.ofEntry]

theorem elements_ofScalar (type : ScalarType) (x : type.Carrier) :
    elements set (.scalar type) (.ofScalar type x) = [scalar type x] := by
  cases type <;> rfl

end Reference

/-- The bytes of a message are those of the reference encoding, whatever its plan. -/
def BytesOf (set : PlanSet) (record : Record) : Prop :=
  ∀ plan : MessagePlan, plan.Closed set → ∀ tree, messageTree set plan record = .ok tree →
    WireValue.MessageFits tree → WireValue.messageBytes tree = set.reference plan record

section Bytes

variable (hset : set.Closed)
include hset

open Reference

theorem ElementTree.elements_eq {type : ValueType} {value : Value} {tree : WireValue}
    (h : ElementTree set type value tree) (hfits : tree.Fits)
    (nested : ∀ record, value = .message record → BytesOf set record) :
    elements set type value = [tree.bytes] := by
  cases h with
  | scalar type x => rw [elements_ofScalar, scalar_eq hfits]
  | @enum name symbol table number htable hnumber =>
      rw [scalar_eq hfits]
      simp [elements, leaf, htable, hnumber]
  | @message name plan record inner hplan htree =>
      obtain ⟨hlength, hinner⟩ := hfits
      have hbytes := nested record rfl plan (hset.of_message? hplan) inner htree hinner
      simp only [elements, PlanSet.nested?, hplan]
      rw [WireValue.bytes, delimitedForm_eq hlength, hbytes, PlanSet.reference]

theorem items_eq {type : ValueType} {values : List Value} {trees : List WireValue}
    (h : List.Forall₂ (ElementTree set type) values trees)
    (hfits : ∀ tree ∈ trees, tree.Fits)
    (nested : ∀ record, .message record ∈ values → BytesOf set record) :
    items set type values = trees.map WireValue.bytes := by
  induction h with
  | nil => rfl
  | cons hfirst hrest ih =>
      obtain ⟨hfit, hfits⟩ := List.forall_mem_cons.mp hfits
      have helement := hfirst.elements_eq hset hfit fun record heq =>
        nested record (heq ▸ List.mem_cons_self)
      have hitems := ih hfits fun record hmem => nested record (List.mem_cons_of_mem _ hmem)
      rw [items, helement, hitems, List.map_cons, List.singleton_append]

theorem entries_eq {key : ScalarType} {type : ValueType} {pairs : List (MapKey × Value)}
    {trees : List WireValue} (h : List.Forall₂ (EntryTree set key type) pairs trees)
    (hfits : ∀ tree ∈ trees, tree.Fits)
    (nested : ∀ record, .message record ∈ pairs.map (·.2) → BytesOf set record) :
    entries set (.scalar key) type pairs = trees.map WireValue.bytes := by
  induction h with
  | nil => rfl
  | @cons pair tree rest others hfirst hrest ih =>
      obtain ⟨hfit, hfits⟩ := List.forall_mem_cons.mp hfits
      have hentries := ih hfits fun record hmem => nested record (List.mem_cons_of_mem _ hmem)
      cases hfirst with
      | @intro mapKey value first second hkey hvalue =>
          obtain ⟨hlength, hfirst, hsecond, -⟩ := hfit
          have hkeyForm := hkey.elements_eq hset hfirst fun record heq => by
            cases mapKey <;> cases heq
          have hvalueForm := hvalue.elements_eq hset hsecond fun record heq =>
            nested record (heq ▸ List.mem_cons_self)
          have hleaf : [leaf set (.scalar key) (.ofMapKey mapKey)] = [first.bytes] := by
            rw [← hkeyForm]
            cases mapKey <;> rfl
          rw [entries, List.map_cons, hentries, hvalueForm, List.flatten_singleton,
            List.singleton_inj.mp hleaf, WireValue.bytes, delimitedForm_eq hlength, entry]
          simp only [WireValue.messageBytes, form_eq 1 (by decide),
            form_eq 2 (by decide), ValueType.wireType, List.append_assoc,
            List.append_nil]
          rfl

omit hset in
/-- Without a run, each element stands behind the key of its type. -/
theorem field_of_apart {field : FieldPlan} (hfield : field.Coherent set)
    (hform : field.form ≠ .packed) (hwritten : field.writtenAs = field.type.wireType)
    {elements : List (List UInt8)} {trees : List WireValue}
    (helements : elements = trees.map WireValue.bytes) :
    Reference.field field elements = trees.flatMap fun tree => field.key.form ++ tree.bytes := by
  have hpacked : field.packed = false := by
    refine Bool.eq_false_iff.mpr fun hpacked => hform ?_
    obtain ⟨-, hmap, -⟩ := hfield.packed hpacked
    simp [FieldPlan.form, hmap, hpacked]
  have hkey : field.key.form = tag field.number.toNat field.writtenAs :=
    form_eq field.number hfield.number_lt field.writtenAs
  rw [helements, Reference.field, hpacked, if_neg Bool.false_ne_true, List.flatMap_map, hkey,
    hwritten]

omit hset in
/-- In a run, the elements stand together behind one key. -/
theorem field_of_run {field : FieldPlan} (hfield : field.Coherent set)
    (hform : field.form = .packed) {elements : List WireValue} (hsome : elements ≠ [])
    (hlength : (WireValue.runBytes elements).length < 2 ^ 32) :
    Reference.field field (elements.map WireValue.bytes) =
      field.key.form ++ (WireValue.run elements).bytes := by
  obtain ⟨-, hpacked, hwritten⟩ := FieldPlan.form_eq_packed hform
  have hkey : field.key.form = tag field.number.toNat field.writtenAs :=
    form_eq field.number hfield.number_lt field.writtenAs
  have hnonempty : (elements.map WireValue.bytes).isEmpty = false := by simpa using hsome
  rw [Reference.field, if_pos hpacked, hnonempty, if_neg Bool.false_ne_true, WireValue.bytes,
    delimitedForm_eq hlength, WireValue.runBytes_eq_flatten, hkey, hwritten]

theorem FieldTree.field_eq {field : FieldPlan} (hfield : field.Coherent set) {value : Value}
    {trees : List WireValue} (h : FieldTree set field (some value) trees)
    (hfits : ∀ tree ∈ trees, tree.Fits)
    (nested : ∀ record, .message record ∈ value.elements → BytesOf set record) :
    Reference.field field (elements set field.type value) =
      trees.flatMap fun tree => field.key.form ++ tree.bytes := by
  cases h with
  | single hform htree =>
      have hwritten := (FieldPlan.form_eq_single hform).2.2
      refine field_of_apart hfield (by simp [hform]) hwritten ?_
      refine htree.elements_eq hset (hfits _ List.mem_cons_self) fun record heq => nested record ?_
      rw [heq]
      exact List.mem_cons_self
  | each hform htrees =>
      have hwritten := (FieldPlan.form_eq_each hform).2.2
      refine field_of_apart hfield (by simp [hform]) hwritten ?_
      rw [elements, items_eq hset htrees hfits nested]
  | noItems hform =>
      have hpacked := (FieldPlan.form_eq_packed hform).2.1
      simp [Reference.field, hpacked, elements, items]
  | @packed values inner hform hitems htrees =>
      obtain ⟨hlength, hinner⟩ := hfits _ List.mem_cons_self
      have hsome : inner ≠ [] := by
        rintro rfl
        exact hitems (List.length_eq_zero_iff.mp htrees.length_eq)
      rw [elements, items_eq hset htrees (WireValue.runFits_iff.mp hinner) nested,
        field_of_run hfield hform hsome hlength, List.flatMap_singleton]
  | entries hform hplan hentry htrees =>
      obtain ⟨htype, -⟩ := hfield.entry_of_form hform
      have hwritten := (FieldPlan.form_eq_mapEntries hform).2.2
      refine field_of_apart hfield (by simp [hform]) (by rw [hwritten, htype]; rfl) ?_
      rw [htype, elements, entryTypes?_of_isEntry hplan hentry]
      exact entries_eq hset htrees hfits nested

omit hset in
theorem find?_contributions (record : Record) (name : String) :
    Sorted.find? name (contributions set record) =
      (Record.value? record name).map fun value declared =>
        Reference.field declared (elements set declared.type value) := by
  induction record with
  | nil => rfl
  | cons pair rest ih =>
      obtain ⟨other, value⟩ := pair
      rw [contributions, Sorted.find?, Record.value?, Sorted.find?, ih, Record.value?]
      split <;> rfl

/-- The bytes of every message are those of the reference encoding. -/
theorem bytesOf (record : Record) : BytesOf set record := by
  induction record using Record.nesting_induction with
  | step record ih =>
      intro plan hplan tree htree hfits
      obtain ⟨-, own, hown, rfl⟩ :=
        (messageTree_eq_ok_of_laidOut hplan.toLaidOut hplan.fields).mp htree
      rw [WireValue.messageBytes_flatMap, PlanSet.reference, fields]
      refine List.flatMap_congr fun field hfield => ?_
      have htrees := hown field hfield
      have hfitting : ∀ tree ∈ own field, tree.Fits := fun tree hmem =>
        WireValue.messageFits_iff.mp hfits (field.key, tree)
          (List.mem_flatMap.mpr ⟨field, hfield, List.mem_map_of_mem hmem⟩)
      rw [WireValue.messageBytes_map, find?_contributions]
      cases hvalue : Record.value? record field.name with
      | none =>
          rw [hvalue] at htrees
          generalize own field = trees at htrees
          cases htrees
          rfl
      | some value =>
          rw [hvalue] at htrees
          exact (htrees.field_eq hset (hplan.fields field hfield) hfitting
            (ih _ (Sorted.mem_of_find? hvalue))).symm

end Bytes

/-- A message can be encoded exactly if each of its fields is declared and holds what the
declaration has room for. As long as every payload is shorter than 2³² bytes, the encoding
is the reference encoding, and the writer appends just that to any buffer, whatever
older bytes lie in its storage and in that of the buffers of the pool. -/
theorem PlanSet.encode_eq_reference {source : String} {schema : Schema} {set : PlanSet}
    (hcompile : compile source = .ok schema) (hbuild : schema.build = .ok set) {message : String}
    {plan : MessagePlan} (hplan : set.declared? message = some plan) (record : Record) :
    ((∃ bytes, set.encode plan record = .ok bytes) ↔ record.Encodable set plan) ∧
      (set.PayloadsFit plan record →
        (∀ bytes, set.encode plan record = .ok bytes →
          bytes.toList = set.reference plan record) ∧
        (record.Encodable set plan → ∀ output : Output, output.Valid →
          ∃ after, writeMessage set plan record output = .ok ((), after) ∧
            after.buffer.log = output.buffer.log ++ set.reference plan record)) := by
  have hset := closed_of_build hcompile hbuild
  have hclosed : plan.Closed set := hset.of_message? (Option.filter_eq_some_iff.mp hplan).1
  have hencodable := treesOf hset record plan hclosed
  rw [PlanSet.encode_eq]
  refine ⟨?_, fun hfits => ⟨?_, ?_⟩⟩
  · rw [← hencodable, HasTree]
    constructor
    · rintro ⟨bytes, hencode⟩
      obtain ⟨tree, htree, -⟩ := Except.map_eq_ok.mp hencode
      exact ⟨tree, htree⟩
    · rintro ⟨tree, htree⟩
      exact ⟨_, Except.map_eq_ok.mpr ⟨tree, htree, rfl⟩⟩
  · intro bytes hencode
    obtain ⟨tree, htree, rfl⟩ := Except.map_eq_ok.mp hencode
    exact bytesOf hset record plan hclosed tree htree (hfits tree htree)
  · intro hrecord output hvalid
    obtain ⟨tree, htree⟩ := hencodable.mpr hrecord
    have hputs := writesTree set record plan
    rw [htree, Except.map_ok] at hputs
    obtain ⟨after, hrun, -, hlog⟩ := hputs output hvalid
    rw [bytesOf hset record plan hclosed tree htree (hfits tree htree)] at hlog
    exact ⟨after, hrun, hlog⟩

theorem encode_eq_reference_node : nodeRecord.Encodable nodePlans nodePlan ∧
    nodePlans.reference nodePlan nodeRecord = [8, 0, 18, 1, 1, 26, 6, 8, 1, 18, 2, 8, 0] := by
  obtain ⟨schema, hcompile, -, hbuild⟩ := compile_nodeSource
  have hplan : nodePlans.declared? "Node" = some nodePlan := rfl
  obtain ⟨hencodable, hbytes⟩ := PlanSet.encode_eq_reference hcompile hbuild hplan nodeRecord
  exact ⟨hencodable.mp ⟨_, encode_nodeRecord⟩,
    ((hbytes payloadsFit_nodeRecord).1 _ encode_nodeRecord).symm⟩

end WireCodec
