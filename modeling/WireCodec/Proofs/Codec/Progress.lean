import WireCodec.Proofs.Codec.InPlace
import WireCodec.Proofs.Wire.Charges
import WireCodec.Proofs.Wire.Descent

/-! # Progress of decoding

Each occurrence and each element of a run takes bytes away, and messages are
nested only in payloads, which are shorter than what is around them. So what a
message is read as is determined by how the shorter and deeper ones are read.
And as each value is paid for by a byte of its own, a decoded message is no
larger than its encoding.
-/

namespace WireCodec

/-! ## Weight of changes -/

/-- What a change puts into a message weighs. -/
def FieldChange.weight : FieldChange → Nat
  | .assign value => value.elim 0 Value.weight
  | .append item => item.elim 0 Value.weight
  | .put key value => Value.entryWeight (key, value)

namespace Change

/-- What changes put into a message weighs. -/
def weighAll (changes : List Change) : Nat := (changes.map (·.what.weight)).sum

theorem weight_apply_le {record : Record} (h : Sorted.Increasing record) (change : Change) :
    Record.weight (change.apply record) ≤ Record.weight record + change.what.weight := by
  obtain ⟨field, what⟩ := change
  cases what with
  | assign value =>
      cases value with
      | none => exact Record.weight_remove_le field
      | some value => exact Record.weight_assign_le h field value
  | append item =>
      cases item with
      | none => exact Nat.le_refl _
      | some item => exact Record.weight_appendItem_le h field item
  | put key value => exact Record.weight_putEntry_le h field key value

theorem weight_applyAll_le {record : Record} (h : Sorted.Increasing record)
    (changes : List Change) :
    Record.weight (applyAll changes record) ≤ Record.weight record + weighAll changes := by
  induction changes generalizing record with
  | nil => exact Nat.le_refl _
  | cons change rest ih =>
      have hfirst := weight_apply_le h change
      have hrest := ih (increasing_apply h change)
      have hcons : applyAll (change :: rest) record = applyAll rest (change.apply record) := rfl
      rw [hcons, weighAll, List.map_cons, List.sum_cons]
      exact Nat.le_trans hrest (by simp only [weighAll]; omega)

end Change

/-! ## Decoded messages are paid for -/

section Paid

variable {set : PlanSet} {nested : MessagePlan → Read Record}
  (huniform : ∀ plan, (nested plan).Uniform)
  (hnested : ∀ plan, (nested plan).Pays 0 Record.weight)
include huniform hnested

theorem pays_delimited (plan : MessagePlan) :
    (Read.delimited (nested plan)).Pays 0 fun fields => Record.weight fields + 1 :=
  ((hnested plan).add 1).delimited (huniform plan).disciplined

theorem pays_readValue (type : ValueType) :
    (readValue set nested type).Pays 0 fun answer => answer.elim 0 Value.weight := by
  cases type with
  | scalar type => exact ((Read.pays_scalar type).map fun _ => Nat.le_refl _).map fun _ => Nat.le_refl _
  | enum name =>
      refine ((Read.consumes_scalar .int32).pays 0).bind (Read.uniform_scalar _).disciplined ?_
      intro number
      split
      · exact Read.pays_throw _
      · next table _ =>
        refine Read.pays_pure ?_
        cases table.symbol? number with
        | none => exact Nat.zero_le _
        | some symbol => exact Nat.le_of_eq (Value.weight_enum symbol)
  | message name =>
      unfold readValue
      dsimp only
      split
      · exact Read.pays_throw _
      · refine (pays_delimited huniform hnested _).map fun fields => ?_
        rw [Option.elim_some, Value.weight_message, Nat.add_comm]

theorem pays_collectItem (field : FieldPlan) (changes : List Change) :
    (collectItem set nested field changes).Pays (Change.weighAll changes) Change.weighAll := by
  have hvalue : (readValue set nested field.type).Pays 0 fun item => item.elim 0 Value.weight :=
    pays_readValue huniform hnested field.type
  rw [← Nat.zero_add (Change.weighAll changes)]
  refine (hvalue.add _).map fun item => ?_
  simp only [Change.weighAll, List.map_append, List.sum_append, List.map_singleton,
    List.sum_singleton, FieldChange.weight]
  omega

theorem pays_readPair (entry : String) :
    (readPair set nested entry).Pays 0 Value.entryWeight := by
  unfold readPair
  split
  · exact Read.pays_throw _
  · refine (pays_delimited huniform hnested _).bind (huniform _).delimited.disciplined ?_
    intro pair
    split
    · exact Read.pays_throw _
    next key hkey =>
      split
      · exact Read.pays_throw _
      next value hvalue =>
        refine Read.pays_pure ?_
        obtain ⟨found, hfound, hmapKey⟩ := Option.bind_eq_some_iff.mp hkey
        obtain rfl := Value.eq_ofMapKey_of_toMapKey? hmapKey
        have hne : keyField ≠ valueField := by decide
        exact Nat.le_succ_of_le (Record.weight_add_le hne hfound hvalue)

theorem pays_fieldChanges (plan : MessagePlan) (found : Key) :
    (fieldChanges set nested plan found).Pays 0 Change.weighAll := by
  unfold fieldChanges
  split
  · exact ((Read.uniform_skip _).disciplined.pays 0).map fun _ => Nat.le_refl _
  · unfold armChanges
    split
    · exact Read.pays_throw _
    · split
      · refine Read.Pays.expect ?_ _ _
        exact (pays_readValue huniform hnested _).map fun value => Nat.le_refl _
      · exact (pays_collectItem huniform hnested _ []).expect _ _
      · exact Read.Pays.packable (pays_collectItem huniform hnested _)
          (uniform_collectItem huniform _) _ _ []
      · refine Read.Pays.expect ?_ _ _
        exact (pays_readPair huniform hnested _).map fun pair => Nat.le_refl _

theorem pays_readOccurrence (plan : MessagePlan) {record : Record}
    (hrecord : Sorted.Increasing record) :
    (readOccurrence set nested plan record).Pays (Record.weight record) fun answer =>
      answer.elim (Record.weight record) Record.weight := by
  have hchanges : (occurrenceChanges set nested plan).Pays 0 fun answer =>
      answer.elim 0 Change.weighAll := by
    have hkey := Read.uniform_key.disciplined
    refine (hkey.pays 0).bind hkey fun found => ?_
    cases found with
    | none => exact Read.pays_pure (Nat.le_refl _)
    | some found => exact (pays_fieldChanges huniform hnested plan found).map fun _ => Nat.le_refl _
  rw [readOccurrence_eq]
  have hadd := hchanges.add (Record.weight record)
  rw [Nat.zero_add] at hadd
  refine hadd.map fun answer => ?_
  cases answer with
  | none => exact Nat.le_of_eq (Nat.zero_add _).symm
  | some changes =>
      have hweight := Change.weight_applyAll_le hrecord changes
      simp only [Option.map_some, Option.elim_some]
      omega

theorem pays_readMessageWith (plan : MessagePlan) :
    (readMessageWith set nested plan).Pays 0 Record.weight := by
  have hkeeps : ∀ record, Sorted.Increasing record → (readOccurrence set nested plan record).Yields
      fun answer => ∀ next, answer = some next → Sorted.Increasing next := by
    intro record hrecord
    rw [readOccurrence_eq]
    refine (Read.yields_trivial _).map ?_
    rintro answer - next hnext
    obtain ⟨changes, -, rfl⟩ := Option.map_eq_some_iff.mp hnext
    exact Change.increasing_applyAll hrecord changes
  have hloop : (Read.iterate (readOccurrence set nested plan) (fun record =>
      Read.advances_key (steady_readField set nested plan record)) []).Pays 0 Record.weight :=
    Read.Pays.iterate (fun _ hrecord => pays_readOccurrence huniform hnested plan hrecord) hkeeps
      (fun record => (uniform_readOccurrence huniform plan record).disciplined)
      Sorted.increasing_nil
  refine hloop.bind (uniform_occurrences set huniform plan []).disciplined fun record => ?_
  unfold MessagePlan.complete
  split
  · exact Read.pays_pure (Nat.le_refl _)
  · exact Read.pays_throw _

omit huniform hnested in
theorem pays_readMessageWithin (levels : Nat) (plan : MessagePlan) :
    (readMessageWithin set levels plan).Pays 0 Record.weight := by
  induction levels generalizing plan with
  | zero => exact pays_readMessageWith (fun _ => Read.uniform_throw _) (fun _ => Read.pays_throw _) plan
  | succ levels ih => exact pays_readMessageWith (uniform_readMessageWithin levels) ih plan

end Paid

/-! ## Descent -/

section Descent

variable {set : PlanSet} {nested nested' : MessagePlan → Read Record} {input : Bytes}
  {depth bound : Nat} (huniform : ∀ plan, (nested plan).Uniform)
  (hnested : ∀ fewer < bound, ∀ plan,
    Read.SameFrom input (depth + 1) fewer (nested plan) (nested' plan))
include huniform hnested

omit huniform in
theorem sameFrom_readValue (type : ValueType) :
    Read.SameFrom input depth bound (readValue set nested type) (readValue set nested' type) := by
  cases type with
  | scalar type => exact Read.SameFrom.refl _
  | enum name => exact Read.SameFrom.refl _
  | message name =>
      unfold readValue
      dsimp only
      split
      · exact Read.SameFrom.refl _
      next plan _ =>
        exact (Read.SameFrom.delimited fun fewer hfewer => hnested fewer hfewer plan).map _

theorem sameFrom_readPair (entry : String) :
    Read.SameFrom input depth bound (readPair set nested entry) (readPair set nested' entry) := by
  unfold readPair
  split
  · exact Read.SameFrom.refl _
  next plan _ =>
    have hpair := Read.SameFrom.delimited fun fewer hfewer => hnested fewer hfewer plan
    exact hpair.bind (huniform plan).delimited.disciplined fun pair => Read.SameFrom.refl _

theorem sameFrom_fieldChanges (plan : MessagePlan) (found : Key) :
    Read.SameFrom input depth bound (fieldChanges set nested plan found)
      (fieldChanges set nested' plan found) := by
  unfold fieldChanges
  split
  · exact Read.SameFrom.refl _
  · unfold armChanges
    split
    · exact Read.SameFrom.refl _
    next field _ =>
      have hitem : ∀ changes, Read.SameFrom input depth bound (collectItem set nested field changes)
          (collectItem set nested' field changes) := fun changes =>
        (sameFrom_readValue hnested field.type).map _
      split
      · exact ((sameFrom_readValue hnested field.type).map _).expect _ _
      · exact (hitem []).expect _ _
      · exact Read.SameFrom.packable hitem (uniform_collectItem huniform field) _ _ []
      · exact ((sameFrom_readPair huniform hnested _).map _).expect _ _

theorem sameFrom_readMessageWith (plan : MessagePlan) :
    Read.SameFrom input depth bound (readMessageWith set nested plan)
      (readMessageWith set nested' plan) := by
  have hoccurrence : ∀ record, Read.SameFrom input depth bound
      (readOccurrence set nested plan record) (readOccurrence set nested' plan record) := by
    intro record
    rw [readOccurrence_eq, readOccurrence_eq]
    refine Read.SameFrom.map ?_ _
    refine (Read.SameFrom.refl _).bind Read.uniform_key.disciplined fun found => ?_
    cases found with
    | none => exact Read.SameFrom.refl _
    | some found => exact (sameFrom_fieldChanges huniform hnested plan found).map _
  refine Read.SameFrom.bind ?_ (uniform_occurrences set huniform plan []).disciplined
    fun record => Read.SameFrom.refl _
  exact Read.SameFrom.iterate hoccurrence
    (fun record => (uniform_readOccurrence huniform plan record).disciplined) []

end Descent

variable {set : PlanSet} {plan : MessagePlan} {input : Bytes} {cursor : Cursor}

/-- What a message is read as depends on how messages are read at deeper levels
where fewer bytes are left. -/
theorem readMessageWith_congr (hcursor : cursor.Sound input)
    {nested nested' : MessagePlan → Read Record} (huniform : ∀ plan, (nested plan).Uniform)
    (h : ∀ plan (inner : Cursor), inner.Sound input → cursor.depth < inner.depth →
      inner.remaining < cursor.remaining → nested plan input inner = nested' plan input inner) :
    readMessageWith set nested plan input cursor =
      readMessageWith set nested' plan input cursor := by
  have hnested : ∀ fewer < cursor.remaining, ∀ plan,
      Read.SameFrom input (cursor.depth + 1) fewer (nested plan) (nested' plan) :=
    fun _ hfewer plan inner hinner hdepth hbound =>
      h plan inner hinner hdepth (Nat.lt_of_le_of_lt hbound hfewer)
  exact sameFrom_readMessageWith huniform hnested plan cursor hcursor (Nat.le_refl _)
    (Nat.le_refl _)

/-- One more level than the nesting limit admits makes no difference. -/
theorem readMessageWithin_succ {levels : Nat} (hcursor : cursor.Sound input)
    (hlevels : nestingLimit ≤ levels + cursor.depth) :
    readMessageWithin set (levels + 1) plan input cursor =
      readMessageWithin set levels plan input cursor := by
  induction levels generalizing plan cursor with
  | zero =>
      refine readMessageWith_congr hcursor (uniform_readMessageWithin 0) ?_
      intro plan inner hinner hdepth _
      have hlimit := hinner.depth_le
      omega
  | succ levels ih =>
      refine readMessageWith_congr hcursor (uniform_readMessageWithin (levels + 1)) ?_
      intro plan inner hinner hdepth _
      exact ih hinner (by omega)

theorem readMessageWithin_eq_readMessage {levels : Nat} (hcursor : cursor.Sound input)
    (hlevels : nestingLimit ≤ levels + cursor.depth) :
    readMessageWithin set levels plan input cursor = readMessage set plan input cursor := by
  obtain ⟨more, rfl⟩ := Nat.exists_eq_add_of_le (Nat.sub_le_iff_le_add.mpr hlevels)
  clear hlevels
  induction more with
  | zero => rfl
  | succ more ih =>
      have hmore : nestingLimit ≤ nestingLimit - cursor.depth + more + cursor.depth := by omega
      exact (readMessageWithin_succ hcursor hmore).trans ih

/-- A message is read with any reader that reads the messages nested in it. -/
theorem readMessageWith_eq_readMessage (hcursor : cursor.Sound input)
    {reader : MessagePlan → Read Record} (hreader : ∀ plan (inner : Cursor), inner.Sound input →
      cursor.depth < inner.depth → inner.remaining < cursor.remaining →
      reader plan input inner = readMessage set plan input inner) :
    readMessageWith set reader plan input cursor = readMessage set plan input cursor := by
  rw [readMessage, readMessageWithin_eq]
  refine (readMessageWith_congr hcursor (uniform_nestedReader _) ?_).symm
  intro plan inner hinner hdepth hfewer
  rw [hreader plan inner hinner hdepth hfewer]
  have hlimit := hinner.depth_le
  obtain ⟨levels, hlevels⟩ : ∃ levels, nestingLimit - cursor.depth = levels + 1 :=
    ⟨nestingLimit - cursor.depth - 1, by omega⟩
  rw [hlevels]
  exact readMessageWithin_eq_readMessage hinner (by omega)

/-- A reader of messages that reads nested messages by itself is the one there is. -/
theorem eq_readMessage {reader : MessagePlan → Read Record}
    (hreader : ∀ plan (cursor : Cursor), cursor.Sound input →
      reader plan input cursor = readMessageWith set reader plan input cursor)
    (hcursor : cursor.Sound input) :
    reader plan input cursor = readMessage set plan input cursor := by
  induction hremaining : cursor.remaining using Nat.strongRecOn generalizing plan cursor with
  | _ remaining ih =>
      rw [hreader plan cursor hcursor]
      refine readMessageWith_eq_readMessage hcursor ?_
      rintro plan inner hinner - hfewer
      exact ih _ (hremaining ▸ hfewer) hinner rfl

/-! ## The law -/

/-- An occurrence with a key goes forward, whatever comes of it. -/
theorem offset_lt_of_key {nested : MessagePlan → Read Record}
    (huniform : ∀ plan, (nested plan).Uniform) (hcursor : cursor.Sound input) (record : Record)
    {found : Key} {middle : Cursor} (hkey : Read.key input cursor = .ok (some found) middle) :
    cursor.offset < ((readOccurrence set nested plan record).ending input cursor).2.offset := by
  obtain ⟨_, _, hforward⟩ := Read.key_eq_some hkey
  have hmiddle := (Read.uniform_key.disciplined.reaches_of_ok hcursor.toInside hkey).sound hcursor
  have hfield : Read.Uniform (some <$> fieldChanges set nested plan found) :=
    (uniform_fieldChanges huniform plan found).map some
  have hreaches := hfield.disciplined input middle hmiddle.toInside
  rw [readOccurrence_eq, Read.ending_map, occurrenceChanges, Read.ending_bind,
    Read.ending_of_ok hkey]
  exact Nat.lt_of_lt_of_le hforward hreaches.offset_le

/-- What a message is read as weighs no more than the bytes that it is read from. -/
theorem weight_le_of_readMessage (hcursor : cursor.Sound input) {record : Record} {after : Cursor}
    (hrun : readMessage set plan input cursor = .ok record after) :
    cursor.offset + Record.weight record ≤ after.offset ∧ after.offset ≤ cursor.limit := by
  refine ⟨pays_readMessageWithin _ plan _ _ _ _ hcursor.toInside hrun, ?_⟩
  have hreaches := (uniform_readMessage set plan).disciplined.reaches_of_ok hcursor.toInside hrun
  obtain ⟨count, hcount, rfl⟩ := hreaches
  have hoffset := hcursor.offset_le
  simp only [Cursor.remaining, Cursor.forward] at hcount ⊢
  omega

theorem weight_le_of_decode {record : Record} (hdecode : set.decode plan input = .ok record) :
    Record.weight record ≤ input.size := by
  obtain ⟨after, hrun⟩ := PlanSet.exists_run_of_decode hdecode
  obtain ⟨hweight, hlimit⟩ := weight_le_of_readMessage (Cursor.sound_start input) hrun
  simp only [Cursor.start] at hweight hlimit
  omega

/-- Decoding goes forward: each occurrence that has a key and each element of a
run takes at least one byte. A message is read by reading messages only at
deeper levels with fewer bytes left, and so there is one way to read it, on
whatever bytes. What it is read as has no more values, and bytes of texts among
them, than there were bytes. -/
theorem readMessage_progress (set : PlanSet) (plan : MessagePlan) (input : Bytes)
    {cursor : Cursor} (hcursor : cursor.Sound input) :
    (∀ (record : Record) (found : Key) (middle : Cursor),
      Read.key input cursor = .ok (some found) middle →
      cursor.offset <
        ((readOccurrence set (readMessage set) plan record).ending input cursor).2.offset) ∧
    (∀ (field : FieldPlan) (record next : Record) (after : Cursor),
      readItem set (readMessage set) field record input cursor = .ok next after →
      cursor.offset < after.offset) ∧
    (∀ reader : MessagePlan → Read Record,
      (∀ plan (inner : Cursor), inner.Sound input → cursor.depth < inner.depth →
        inner.remaining < cursor.remaining →
        reader plan input inner = readMessage set plan input inner) →
      readMessageWith set reader plan input cursor = readMessage set plan input cursor) ∧
    (∀ reader : MessagePlan → Read Record,
      (∀ plan (cursor : Cursor), cursor.Sound input →
        reader plan input cursor = readMessageWith set reader plan input cursor) →
      reader plan input cursor = readMessage set plan input cursor) ∧
    (∀ (record : Record) (after : Cursor),
      readMessage set plan input cursor = .ok record after →
      cursor.offset + ((Record.constituents record).length +
        ((Record.constituents record).map Value.textLength).sum) ≤ after.offset ∧
      after.offset ≤ cursor.limit) ∧
    ∀ record : Record, set.decode plan input = .ok record →
      (Record.constituents record).length +
        ((Record.constituents record).map Value.textLength).sum ≤ input.size := by
  refine ⟨?_, ?_, ?_, ?_, ?_, ?_⟩
  · intro record found middle hkey
    exact offset_lt_of_key (uniform_readMessage set) hcursor record hkey
  · intro field record next after hrun
    exact (consumes_readItem set _ field record _ _ _ _ hrun).2.2
  · intro reader hreader
    exact readMessageWith_eq_readMessage hcursor hreader
  · intro reader hreader
    exact eq_readMessage hreader hcursor
  · intro record after hrun
    exact weight_le_of_readMessage hcursor hrun
  · intro record hdecode
    exact weight_le_of_decode hdecode

/-- A node with a size, at the deepest level there is. -/
theorem readMessage_progress_node :
    Cursor.Sound #[255, 8, 0, 16, 1] ⟨1, 5, nestingLimit⟩ ∧
      1 < ((readOccurrence nodePlans (readMessage nodePlans) nodePlan []).ending
        #[255, 8, 0, 16, 1] ⟨1, 5, nestingLimit⟩).2.offset ∧
      1 + ((Record.constituents [("hue", .enum "RED"), ("sizes", .list [.int32 (-1)])]).length +
        ((Record.constituents [("hue", .enum "RED"), ("sizes", .list [.int32 (-1)])]).map
          Value.textLength).sum) ≤ 5 := by
  have hcursor : Cursor.Sound #[255, 8, 0, 16, 1] ⟨1, 5, nestingLimit⟩ :=
    ⟨⟨by decide, by decide⟩, Nat.le_refl _⟩
  obtain ⟨hforward, -, -, -, hpaid, -⟩ :=
    readMessage_progress nodePlans nodePlan #[255, 8, 0, 16, 1] hcursor
  have hkey : Read.key #[255, 8, 0, 16, 1] ⟨1, 5, nestingLimit⟩ =
      .ok (some ⟨1, 0⟩) ⟨2, 5, nestingLimit⟩ := by cbv
  have hread : readMessage nodePlans nodePlan #[255, 8, 0, 16, 1] ⟨1, 5, nestingLimit⟩ =
      .ok [("hue", .enum "RED"), ("sizes", .list [.int32 (-1)])] ⟨5, 5, nestingLimit⟩ := by cbv
  exact ⟨hcursor, hforward [] _ _ hkey, (hpaid _ _ hread).1⟩

end WireCodec
