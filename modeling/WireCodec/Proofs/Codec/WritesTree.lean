import WireCodec.Proofs.Codec.MessageTree
import WireCodec.Proofs.Outcome
import WireCodec.Proofs.Wire.BufferLog

/-! # Writers and wire trees

The writer of a message appends the bytes of its wire tree to the buffer at
hand, whatever buffers the pool hands out on the way, and fails exactly when
there is no tree, with the same error.
-/

namespace WireCodec

/-- The buffer at hand and the buffers of the pool are valid, and the pool
holds reset buffers only. -/
structure Output.Valid (output : Output) : Prop where
  buffer : output.buffer.Valid
  idle : ∀ buffer ∈ output.pool.idle, buffer.Valid ∧ buffer.log = []

/-- The buffer that the pool hands out is valid, and nothing is in its log. -/
theorem Output.Valid.acquire {output : Output} (h : output.Valid) :
    output.pool.acquire.1.Valid ∧ output.pool.acquire.1.log = [] ∧
      ∀ buffer ∈ output.pool.acquire.2.idle, buffer.Valid ∧ buffer.log = [] := by
  have hall := h.idle
  unfold BufferPool.acquire
  cases hidle : output.pool.idle with
  | nil => exact ⟨Buffer.valid_withCapacity _, Buffer.log_withCapacity _, hall⟩
  | cons buffer rest =>
      rw [hidle] at hall
      obtain ⟨hfirst, hrest⟩ := List.forall_mem_cons.mp hall
      exact ⟨hfirst.1, hfirst.2, hrest⟩

namespace Write

/-- A write appends these bytes to the buffer at hand, or fails with this error. -/
def Puts (write : Write Unit) : Except EncodeError (List UInt8) → Prop
  | .ok bytes => ∀ output : Output, output.Valid →
      ∃ after, write output = .ok ((), after) ∧ after.Valid ∧
        after.buffer.log = output.buffer.log ++ bytes
  | .error e => ∀ output : Output, output.Valid → write output = .error e

theorem puts_pure : Puts (pure ()) (.ok []) :=
  fun output hvalid => ⟨output, rfl, hvalid, (List.append_nil _).symm⟩

theorem puts_throw (e : EncodeError) : Puts (throw e) (.error e) :=
  fun _ _ => rfl

theorem puts_put {write : Buffer → Buffer} {form : List UInt8} (h : Buffer.Appends write form) :
    Puts (put write) (.ok form) := by
  intro output hvalid
  obtain ⟨hbuffer, hlog⟩ := h output.buffer hvalid.buffer
  exact ⟨_, rfl, ⟨hbuffer, hvalid.idle⟩, hlog⟩

/-- Writes one after the other append their bytes one after the other. -/
theorem Puts.bind {first : Write Unit} {second : Unit → Write Unit}
    {outcome outcome' : Except EncodeError (List UInt8)} (hfirst : Puts first outcome)
    (hsecond : Puts (second ()) outcome') :
    Puts (first >>= second) (do return (← outcome) ++ (← outcome')) := by
  cases outcome with
  | error e =>
      intro output hvalid
      have hrun := hfirst output hvalid
      simp only [Bind.bind, StateT.bind, Except.bind, hrun]
  | ok bytes =>
      cases outcome' with
      | error e =>
          intro output hvalid
          obtain ⟨middle, hrun, hmiddle, _⟩ := hfirst output hvalid
          have hrun' := hsecond middle hmiddle
          simp only [Bind.bind, StateT.bind, Except.bind, hrun, hrun']
      | ok bytes' =>
          intro output hvalid
          obtain ⟨middle, hrun, hmiddle, hlog⟩ := hfirst output hvalid
          obtain ⟨after, hrun', hafter, hlog'⟩ := hsecond middle hmiddle
          refine ⟨after, ?_, hafter, ?_⟩
          · simp only [Bind.bind, StateT.bind, Except.bind, hrun, hrun']
          · rw [hlog', hlog, List.append_assoc]

/-- A payload that goes through the pool is delivered as its own bytes. -/
theorem Puts.throughPool {payload : Write Unit} {outcome : Except EncodeError (List UInt8)}
    (h : Puts payload outcome) {deliver : Buffer → Bytes → Buffer}
    {frame : List UInt8 → List UInt8}
    (hdeliver : ∀ bytes : Bytes, Buffer.Appends (deliver · bytes) (frame bytes.toList)) :
    Puts (throughPool payload deliver) (frame <$> outcome) := by
  cases outcome with
  | error e =>
      intro output hvalid
      obtain ⟨hscratch, _, hidle⟩ := hvalid.acquire
      have hrun := h ⟨output.pool.acquire.1, output.pool.acquire.2⟩ ⟨hscratch, hidle⟩
      simp only [Write.throughPool, Bind.bind, Except.bind, hrun]
  | ok bytes =>
      intro output hvalid
      obtain ⟨hscratch, hempty, hidle⟩ := hvalid.acquire
      obtain ⟨inner, hrun, hinner, hlog⟩ :=
        h ⟨output.pool.acquire.1, output.pool.acquire.2⟩ ⟨hscratch, hidle⟩
      obtain ⟨hbuffer, hdelivered⟩ := hdeliver inner.buffer.bytes output.buffer hvalid.buffer
      refine ⟨⟨deliver output.buffer inner.buffer.bytes, inner.pool.release inner.buffer⟩, ?_,
        ⟨hbuffer, ?_⟩, ?_⟩
      · simp only [Write.throughPool, Bind.bind, Except.bind, hrun]
        rfl
      · -- the buffer goes back into the pool reset
        intro buffer hmem
        rcases List.mem_cons.mp hmem with rfl | hmem
        · exact ⟨Buffer.valid_reset hinner.buffer, Buffer.log_reset _⟩
        · exact hinner.idle buffer hmem
      · have hpayload : inner.buffer.bytes.toList = bytes := by
          rw [hempty, List.nil_append] at hlog
          exact hlog
        rw [hdelivered, hpayload]

theorem Puts.delimited {payload : Write Unit} {outcome : Except EncodeError (List UInt8)}
    (h : Puts payload outcome) :
    Puts (Write.throughPool payload fun buffer bytes => buffer.writeDelimited bytes)
      (delimitedForm <$> outcome) :=
  h.throughPool Buffer.appends_writeDelimited

theorem Puts.delimitedField {payload : Write Unit} {outcome : Except EncodeError (List UInt8)}
    (h : Puts payload outcome) (number : UInt32) :
    Puts (Write.throughPool payload fun buffer bytes => buffer.writeDelimitedField number bytes)
      ((fun bytes => Key.form ⟨number, WireType.lengthDelimited.code⟩ ++ delimitedForm bytes) <$>
        outcome) := by
  have hdeliver := Buffer.appends_writeDelimitedField number
  generalize hkey : Key.form ⟨number, WireType.lengthDelimited.code⟩ = keyForm at hdeliver ⊢
  exact @Puts.throughPool payload outcome h _ (fun bytes => keyForm ++ delimitedForm bytes) hdeliver

theorem Puts.congr {write : Write Unit} {outcome outcome' : Except EncodeError (List UInt8)}
    (h : Puts write outcome) (heq : outcome = outcome') : Puts write outcome' :=
  heq ▸ h

end Write

open Write

variable (set : PlanSet)

theorem puts_writeLeaf (field : String) (type : ValueType) (value : Value) :
    Puts (writeLeaf set field type value) (WireValue.bytes <$> leafTree set field type value) := by
  unfold writeLeaf leafTree
  cases type with
  | scalar type =>
      dsimp only
      cases value.toScalar? type with
      | none => exact puts_throw _
      | some x => exact puts_put (Buffer.appends_writeScalar type x)
  | enum enum =>
      cases value with
      | enum symbol =>
          dsimp only
          cases set.enum? enum with
          | none => exact puts_throw _
          | some table =>
              dsimp only
              cases table.number? symbol with
              | none => exact puts_throw _
              | some number => exact puts_put (Buffer.appends_writeScalar .int32 number)
      | _ => exact puts_throw _
  | message name => exact puts_throw _

section Nested

/-! The writers of parts of a message, under the assumption that the messages
nested in the part are written by their trees. -/

variable {set}

/-- A message is written by its tree, under every plan. -/
def WritesTree (set : PlanSet) (fields : Record) : Prop :=
  ∀ plan : MessagePlan, Puts (writeMessage set plan fields)
    (WireValue.messageBytes <$> messageTree set plan fields)

theorem puts_writeValue (field : String) (type : ValueType) {value : Value}
    (nested : ∀ fields, value = .message fields → WritesTree set fields) :
    Puts (writeValue set field type value) (WireValue.bytes <$> valueTree set field type value) := by
  unfold writeValue valueTree
  cases type with
  | scalar type => exact puts_writeLeaf set field _ _
  | enum enum => exact puts_writeLeaf set field _ _
  | message name =>
      cases value with
      | message fields =>
          dsimp only
          cases set.message? name with
          | none => exact puts_throw _
          | some plan =>
              dsimp only
              refine (nested fields rfl plan).delimited.congr ?_
              cases messageTree set plan fields <;> rfl
      | _ => exact puts_writeLeaf set field _ _

theorem puts_writeEach (field : FieldPlan) (step : EncodeStep) {items : List Value}
    (nested : ∀ fields, .message fields ∈ items → WritesTree set fields) :
    Puts (writeEach set field step items)
      ((fun trees => WireValue.messageBytes (trees.map (step.tag.key, ·))) <$>
        itemTrees set field items) := by
  induction items with
  | nil =>
      unfold writeEach itemTrees
      exact puts_pure
  | cons item rest ih =>
      unfold writeEach itemTrees
      have hitem : Puts (writeValue set field.name field.type item) _ :=
        puts_writeValue field.name field.type fun fields heq =>
          nested fields (heq ▸ List.mem_cons_self)
      have hrest := ih fun fields hmem => nested fields (List.mem_cons_of_mem _ hmem)
      refine ((puts_put (Buffer.appends_writeKey _)).bind (hitem.bind hrest)).congr ?_
      cases valueTree set field.name field.type item with
      | error e => rfl
      | ok first =>
          cases itemTrees set field rest with
          | error e => rfl
          | ok others =>
              simp [WireValue.messageBytes]

theorem puts_writeItems (field : FieldPlan) {items : List Value}
    (nested : ∀ fields, .message fields ∈ items → WritesTree set fields) :
    Puts (writeItems set field items) (WireValue.runBytes <$> itemTrees set field items) := by
  induction items with
  | nil =>
      unfold writeItems itemTrees
      exact puts_pure
  | cons item rest ih =>
      unfold writeItems itemTrees
      have hitem : Puts (writeValue set field.name field.type item) _ :=
        puts_writeValue field.name field.type fun fields heq =>
          nested fields (heq ▸ List.mem_cons_self)
      have hrest := ih fun fields hmem => nested fields (List.mem_cons_of_mem _ hmem)
      refine (hitem.bind hrest).congr ?_
      cases valueTree set field.name field.type item with
      | error e => rfl
      | ok first => cases itemTrees set field rest <;> rfl

theorem puts_writeEntries (keyPlan valuePlan : FieldPlan) (step : EncodeStep)
    {entries : List (MapKey × Value)}
    (nested : ∀ fields, .message fields ∈ entries.map (·.2) → WritesTree set fields) :
    Puts (writeEntries set keyPlan valuePlan step entries)
      ((fun trees => WireValue.messageBytes
        (trees.map (⟨step.tag.number, WireType.lengthDelimited.code⟩, ·))) <$>
        entryTrees set keyPlan valuePlan entries) := by
  induction entries with
  | nil =>
      unfold writeEntries entryTrees
      exact puts_pure
  | cons entry rest ih =>
      obtain ⟨key, value⟩ := entry
      unfold writeEntries entryTrees
      have hkey := puts_writeLeaf set keyPlan.name keyPlan.type (.ofMapKey key)
      have hvalue : Puts (writeValue set valuePlan.name valuePlan.type value) _ :=
        puts_writeValue valuePlan.name valuePlan.type fun fields heq =>
          nested fields (heq ▸ List.mem_cons_self)
      have hrest := ih fun fields hmem => nested fields (List.mem_cons_of_mem _ hmem)
      have hfirst := puts_put (Buffer.appends_writeKey ⟨1, keyPlan.type.wireType.code⟩)
      have hsecond := puts_put (Buffer.appends_writeKey ⟨2, valuePlan.type.wireType.code⟩)
      have hpayload : Puts (do
          put (·.writeKey ⟨1, keyPlan.type.wireType.code⟩)
          writeLeaf set keyPlan.name keyPlan.type (.ofMapKey key)
          put (·.writeKey ⟨2, valuePlan.type.wireType.code⟩)
          writeValue set valuePlan.name valuePlan.type value) _ :=
        hfirst.bind (hkey.bind (hsecond.bind hvalue))
      refine ((hpayload.delimitedField step.tag.number).bind hrest).congr ?_
      cases leafTree set keyPlan.name keyPlan.type (.ofMapKey key) with
      | error e => rfl
      | ok first =>
          cases valueTree set valuePlan.name valuePlan.type value with
          | error e => rfl
          | ok second =>
              cases entryTrees set keyPlan valuePlan rest with
              | error e => rfl
              | ok others =>
                  simp [WireValue.messageBytes, WireValue.bytes]

theorem puts_writeField (field : FieldPlan) (step : EncodeStep) {value : Value}
    (nested : ∀ fields, .message fields ∈ value.elements → WritesTree set fields) :
    Puts (writeField set field step value)
      ((fun trees => WireValue.messageBytes (trees.map (step.key, ·))) <$>
        fieldTrees set field step.form value) := by
  unfold writeField fieldTrees EncodeStep.key
  cases hform : step.form with
  | single =>
      have hvalue : Puts (writeValue set field.name field.type value) _ :=
        puts_writeValue field.name field.type fun fields heq => nested fields (by simp [heq])
      refine ((puts_put (Buffer.appends_writeKey _)).bind hvalue).congr ?_
      cases valueTree set field.name field.type value with
      | error e => rfl
      | ok tree =>
          simp [WireValue.messageBytes]
  | each =>
      cases value with
      | list items => exact puts_writeEach field step nested
      | _ => exact puts_throw _
  | packed =>
      cases value with
      | list items =>
          cases items with
          | nil => exact puts_pure
          | cons item rest =>
              have hitems : Puts (writeItems set field (item :: rest)) _ :=
                puts_writeItems field nested
              refine (hitems.delimitedField step.tag.number).congr ?_
              dsimp only
              cases itemTrees set field (item :: rest) with
              | error e => rfl
              | ok trees =>
                  simp [WireValue.messageBytes, WireValue.bytes]
      | _ => exact puts_throw _
  | mapEntries entry =>
      cases value with
      | map entries =>
          dsimp only
          cases set.message? entry with
          | none => exact puts_throw _
          | some plan =>
              dsimp only
              cases plan.fields with
              | nil => exact puts_throw _
              | cons keyPlan rest =>
                  cases rest with
                  | nil => exact puts_throw _
                  | cons valuePlan rest => exact puts_writeEntries keyPlan valuePlan step nested
      | _ => exact puts_throw _

theorem writeSteps_cons (plan : MessagePlan) (record : Record) (step : EncodeStep)
    (rest : List EncodeStep) :
    writeSteps set plan record (step :: rest) = (do
      match plan.fields[step.field]? with
      | none => throw (.danglingReference plan.name)
      | some field =>
        match Record.value? record field.name with
        | none => pure ()
        | some value => writeField set field step value
      writeSteps set plan record rest) := by
  rw [writeSteps]
  cases plan.fields[step.field]? with
  | none => rfl
  | some field =>
      dsimp only
      split
      next hnone => rw [hnone]
      next value hfound => rw [hfound]

theorem puts_writeSteps (plan : MessagePlan) {record : Record}
    (nested : ∀ pair ∈ record, ∀ fields, .message fields ∈ pair.2.elements →
      WritesTree set fields) (steps : List EncodeStep) :
    Puts (writeSteps set plan record steps)
      (WireValue.messageBytes <$> stepTrees set plan record steps) := by
  induction steps with
  | nil =>
      unfold writeSteps stepTrees
      exact puts_pure
  | cons step rest ih =>
      rw [writeSteps_cons, stepTrees_cons]
      cases plan.fields[step.field]? with
      | none => exact (puts_throw _).bind ih
      | some field =>
          dsimp only
          cases hvalue : Record.value? record field.name with
          | none =>
              have hskip : Puts (pure () >>= fun _ => writeSteps set plan record rest) _ :=
                puts_pure.bind ih
              refine hskip.congr ?_
              cases stepTrees set plan record rest <;> rfl
          | some value =>
              have hmem := Sorted.mem_of_find? hvalue
              have hfield : Puts (writeField set field step value) _ :=
                puts_writeField field step (nested (field.name, value) hmem)
              refine (hfield.bind ih).congr ?_
              dsimp only
              cases fieldTrees set field step.form value with
              | error e => rfl
              | ok own =>
                  cases stepTrees set plan record rest with
                  | error e => rfl
                  | ok others => simp [WireValue.messageBytes_append]

end Nested

/-- Every message is written by its wire tree. -/
theorem writesTree (record : Record) : WritesTree set record := by
  induction record using Record.nesting_induction with
  | step record nested =>
      intro plan
      unfold writeMessage messageTree
      cases Record.unknownNames record plan with
      | nil => exact puts_writeSteps plan nested plan.steps
      | cons name rest => exact puts_throw _

/-- The encoding of a message is the bytes of its wire tree. -/
theorem PlanSet.encode_eq (plan : MessagePlan) (record : Record) :
    set.encode plan record =
      (fun tree => (WireValue.messageBytes tree).toArray) <$> messageTree set plan record := by
  have hstart : Output.Valid ⟨BufferPool.empty.acquire.1, BufferPool.empty.acquire.2⟩ :=
    ⟨Buffer.valid_withCapacity _, fun buffer hmem => by cases hmem⟩
  have hwrites := writesTree set record plan
  cases htree : messageTree set plan record with
  | error e =>
      rw [htree] at hwrites
      have hrun := hwrites _ hstart
      simp only [PlanSet.encode, Bind.bind, Except.bind, hrun]
      rfl
  | ok tree =>
      rw [htree] at hwrites
      obtain ⟨after, hrun, _, hlog⟩ := hwrites _ hstart
      have hempty : BufferPool.empty.acquire.1.log = [] := Buffer.log_withCapacity _
      rw [hempty, List.nil_append, Buffer.log] at hlog
      simp only [PlanSet.encode, Bind.bind, Except.bind, hrun]
      simp only [Pure.pure, Except.pure, Functor.map, Except.map, ← hlog, Array.toArray_toList]

end WireCodec

