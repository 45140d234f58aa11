import WireCodec.Proofs.Codec.Determined
import WireCodec.Proofs.Wire.Local

/-! # Sequences of occurrences

What one step of the reader of a message takes is an occurrence: a key and
the value behind it. Such bytes are read as the same changes wherever they
stand, so what stands behind a sequence of them is read as if it stood behind
any other sequence of the same changes.
-/

namespace WireCodec

variable {set : PlanSet} {nested : MessagePlan → Read Record}

section Local

variable (hnested : ∀ plan, (nested plan).Uniform)
include hnested

theorem local_readValue (type : ValueType) : (readValue set nested type).Local := by
  cases type with
  | scalar type => exact ((Read.local_scalar type).map _).map _
  | enum name =>
      refine (Read.local_scalar .int32).bind fun number => ?_
      split
      · exact Read.local_throw _
      · exact Read.local_pure _
  | message name =>
      unfold readValue
      dsimp only
      split
      · exact Read.local_throw _
      · exact (Read.local_delimited (hnested _)).map _

theorem local_readPair (entry : String) : (readPair set nested entry).Local := by
  unfold readPair
  split
  · exact Read.local_throw _
  · refine (Read.local_delimited (hnested _)).bind fun pair => ?_
    split
    · exact Read.local_throw _
    · split
      · exact Read.local_throw _
      · exact Read.local_pure _

theorem local_fieldChanges (plan : MessagePlan) (found : Key) :
    (fieldChanges set nested plan found).Local := by
  have hitem : ∀ field changes, (collectItem set nested field changes).Local :=
    fun field _ => (local_readValue hnested field.type).map _
  unfold fieldChanges
  split
  · exact (Read.local_skip _).map _
  · unfold armChanges
    split
    · exact Read.local_throw _
    · split
      · exact (Read.local_expect _ _).bind fun _ => (local_readValue hnested _).map _
      · exact (Read.local_expect _ _).bind fun _ => hitem _ _
      · exact Read.local_packable (uniform_collectItem hnested _) (hitem _) _ _ _
      · exact (Read.local_expect _ _).bind fun _ => (local_readPair hnested _).map _

/-- The bytes that a step takes are a key and what is read behind it. -/
theorem parses_of_readOccurrence {plan : MessagePlan} {input : Bytes} {before after : Cursor}
    {record next : Record} (hinside : before.Inside input)
    (hrun : readOccurrence set nested plan record input before = .ok (some next) after) :
    ∃ found changes key value rest, before.view input = key ++ value ++ rest ∧
      after = before.forward (key ++ value).length ∧
      Read.Parses Read.key before.depth key (.ok (some found)) ∧
      Read.Parses (fieldChanges set nested plan found) before.depth value (.ok changes) := by
  rw [readOccurrence_eq] at hrun
  obtain ⟨answer, hchanges, hanswer⟩ := Read.map_eq_ok.mp hrun
  obtain ⟨changes, rfl, _⟩ := Option.map_eq_some_iff.mp hanswer
  obtain ⟨answer, middle, hkey, hfield⟩ := Read.bind_eq_ok.mp hchanges
  cases answer with
  | none => cases hfield
  | some found =>
      obtain ⟨key, rest, hview, hparses⟩ := Read.parses_key_of_run hinside hkey
      have hmiddle := hparses input before rest hinside rfl hview
      rw [hkey] at hmiddle
      cases hmiddle
      obtain ⟨_, hvalue, heq⟩ := Read.map_eq_ok.mp hfield
      cases heq
      obtain ⟨value, rest', hview', hparses'⟩ :=
        local_fieldChanges hnested plan found _ _ _ _ (hinside.forward hview) hvalue
      have hafter := hparses' input _ rest' (hinside.forward hview) rfl hview'
      rw [hvalue] at hafter
      cases hafter
      refine ⟨found, changes, key, value, rest', ?_, ?_, hparses, hparses'⟩
      · rw [hview, ← Cursor.view_forward hview, hview', List.append_assoc]
      · rw [Cursor.forward_forward, List.length_append]

end Local

/-! ## Occurrences at the top of an input -/

/-- One step of the reader of a message takes all of these bytes, and does not
end the message. -/
def PlanSet.IsOccurrence (set : PlanSet) (plan : MessagePlan) (bytes : List UInt8) : Prop :=
  ∃ record after, readOccurrence set (nestedReader set nestingLimit) plan [] bytes.toArray
    (.start bytes.toArray) = .ok (some record) after ∧ after.atEnd = true

/-- One step of the reader of a message that lies so deep takes all of these
bytes, and does not end the message. -/
def PlanSet.IsOccurrenceAt (set : PlanSet) (depth : Nat) (plan : MessagePlan) (bytes : List UInt8) :
    Prop :=
  ∃ record after, readOccurrence set (nestedReader set (nestingLimit - depth)) plan [] bytes.toArray
    { Cursor.start bytes.toArray with depth := depth } = .ok (some record) after ∧
      after.atEnd = true

/-- The field number in the key that bytes begin with. -/
def fieldNumber? (bytes : List UInt8) : Option UInt32 :=
  match Read.key bytes.toArray (.start bytes.toArray) with
  | .ok (some found) _ => some found.number
  | _ => none

/-- The changes that an occurrence is read as. -/
def PlanSet.changesOf (set : PlanSet) (plan : MessagePlan) (bytes : List UInt8) : List Change :=
  match occurrenceChanges set (nestedReader set nestingLimit) plan bytes.toArray
    (.start bytes.toArray) with
  | .ok (some changes) _ => changes
  | _ => []

theorem fieldNumber?_of_parses {key rest : List UInt8} {found : Key}
    (h : Read.Parses Read.key 0 key (.ok (some found))) :
    fieldNumber? (key ++ rest) = some found.number := by
  have hrun := h (key ++ rest).toArray _ rest (Cursor.inside_start _) rfl (Cursor.view_start _)
  simp only [fieldNumber?, hrun]

namespace PlanSet

variable {plan : MessagePlan} {bytes : List UInt8}

theorem changesOf_of_parses {changes : List Change}
    (h : Read.Parses (occurrenceChanges set (nestedReader set nestingLimit) plan) 0 bytes
      (.ok (some changes))) : set.changesOf plan bytes = changes := by
  have hview : (Cursor.start bytes.toArray).view bytes.toArray = bytes ++ [] := by
    rw [List.append_nil]
    exact Cursor.view_start _
  have hrun := h bytes.toArray _ [] (Cursor.inside_start _) rfl hview
  simp only [changesOf, hrun]

theorem IsOccurrenceAt.parts {depth : Nat} (h : set.IsOccurrenceAt depth plan bytes) :
    ∃ found changes key value, bytes = key ++ value ∧
      Read.Parses Read.key depth key (.ok (some found)) ∧
      Read.Parses (fieldChanges set (nestedReader set (nestingLimit - depth)) plan found) depth
        value (.ok changes) := by
  obtain ⟨record, after, hrun, hend⟩ := h
  have hinside : Cursor.Inside bytes.toArray { Cursor.start bytes.toArray with depth := depth } :=
    ⟨Nat.zero_le _, Nat.le_refl _⟩
  obtain ⟨found, changes, key, value, rest, hview, rfl, hkey, hvalue⟩ :=
    parses_of_readOccurrence (uniform_nestedReader _) hinside hrun
  -- nothing is left behind the value
  have hrest : rest = [] := by
    have hafter := (hinside.forward hview).atEnd_eq
    rw [hend, Cursor.view_forward hview] at hafter
    exact List.isEmpty_iff.mp hafter.symm
  have hbytes : bytes = key ++ value := by
    rw [← List.append_nil (key ++ value), ← hrest, ← hview]
    exact (Cursor.view_start bytes.toArray).symm
  exact ⟨found, changes, key, value, hbytes, hkey, hvalue⟩

theorem IsOccurrence.parts (h : set.IsOccurrence plan bytes) :
    ∃ found key value, bytes = key ++ value ∧ fieldNumber? bytes = some found.number ∧
      Read.Parses Read.key 0 key (.ok (some found)) ∧
      Read.Parses (fieldChanges set (nestedReader set nestingLimit) plan found) 0 value
        (.ok (set.changesOf plan bytes)) := by
  have htop : set.IsOccurrenceAt 0 plan bytes := h
  obtain ⟨found, changes, key, value, rfl, hkey, hvalue⟩ := htop.parts
  rw [changesOf_of_parses (parses_occurrence_of_key hkey hvalue)]
  exact ⟨found, key, value, rfl, fieldNumber?_of_parses hkey, hkey, hvalue⟩

/-- An occurrence is read as its changes wherever it stands. -/
theorem IsOccurrence.parses (h : set.IsOccurrence plan bytes) :
    Read.Parses (occurrenceChanges set (nestedReader set nestingLimit) plan) 0 bytes
      (.ok (some (set.changesOf plan bytes))) := by
  obtain ⟨found, key, value, hbytes, _, hkey, hvalue⟩ := h.parts
  have hparses := parses_occurrence_of_key hkey hvalue
  rwa [← hbytes] at hparses

theorem isOccurrence_of_parses {changes : List Change}
    (h : Read.Parses (occurrenceChanges set (nestedReader set nestingLimit) plan) 0 bytes
      (.ok (some changes))) : set.IsOccurrence plan bytes := by
  have hview : (Cursor.start bytes.toArray).view bytes.toArray = bytes ++ [] := by
    rw [List.append_nil]
    exact Cursor.view_start _
  have hinside := Cursor.inside_start bytes.toArray
  have hrun := h bytes.toArray _ [] hinside rfl hview
  refine ⟨Change.applyAll changes [], (Cursor.start bytes.toArray).forward bytes.length, ?_, ?_⟩
  · rw [readOccurrence_eq]
    exact Read.map_of_ok hrun
  · rw [(hinside.forward hview).atEnd_eq, Cursor.view_forward hview]
    rfl

/-- An occurrence changes no other field than those of its number. -/
theorem IsOccurrence.changes_of_number (hplan : plan.Coherent set)
    (h : set.IsOccurrence plan bytes) : ∀ change ∈ set.changesOf plan bytes,
      ∃ field ∈ plan.fields, fieldNumber? bytes = some field.number ∧ change.name = field.name := by
  obtain ⟨found, _, _, _, hnumber, _, hvalue⟩ := h.parts
  have htrivial : ∀ name plan, set.message? name = some plan →
      (nestedReader set nestingLimit plan).Yields fun _ => True :=
    fun _ _ _ => Read.yields_trivial _
  intro change hchange
  obtain ⟨field, hfield, hfound, hname, _⟩ :=
    hvalue.of_yields (yields_fieldChanges htrivial hplan.toLaidOut found) change hchange
  exact ⟨field, hfield, hfound ▸ hnumber, hname⟩

/-- A sequence of occurrences is read as the changes of one after the other. -/
theorem readsAs_flatten {occurrences : List (List UInt8)}
    (h : ∀ bytes ∈ occurrences, set.IsOccurrence plan bytes) :
    ReadsAs set (nestedReader set nestingLimit) plan 0 occurrences.flatten
      (.ok (occurrences.flatMap (set.changesOf plan))) := by
  induction occurrences with
  | nil => exact .nil
  | cons bytes rest ih =>
      obtain ⟨hbytes, hrest⟩ := List.forall_mem_cons.mp h
      exact .next hbytes.parses (ih hrest)

theorem exists_readsAs_flatten {depth : Nat} {occurrences : List (List UInt8)}
    (h : ∀ bytes ∈ occurrences, set.IsOccurrenceAt depth plan bytes) :
    ∃ changes, ReadsAs set (nestedReader set (nestingLimit - depth)) plan depth occurrences.flatten
      (.ok changes) := by
  induction occurrences with
  | nil => exact ⟨[], .nil⟩
  | cons bytes rest ih =>
      obtain ⟨hbytes, hrest⟩ := List.forall_mem_cons.mp h
      obtain ⟨changes, hchanges⟩ := ih hrest
      obtain ⟨found, first, key, value, rfl, hkey, hvalue⟩ := hbytes.parts
      exact ⟨first ++ changes, .next (parses_occurrence_of_key hkey hvalue) hchanges⟩

/-- What an input that is read to its end as occurrences is decoded as. -/
theorem decode_of_readsAs {outcome : Except DecodeError (List Change)}
    (h : ReadsAs set (nestedReader set nestingLimit) plan 0 bytes outcome) :
    set.decode plan bytes.toArray =
      outcome >>= fun changes => plan.completed (Change.applyAll changes []) := by
  refine PlanSet.decode_of_finishes (finishes_readMessage ?_)
  rw [readMessageWithin_eq]
  exact h.finishes

/-- What an input is decoded as that starts with occurrences, by what the loop
over occurrences makes of the rest. -/
theorem decode_append {first rest : List UInt8} {changes : List Change}
    (hfirst : ReadsAs set (nestedReader set nestingLimit) plan 0 first (.ok changes))
    {outcome : Except DecodeError Record}
    (hrest : Read.Finishes (Read.iterate (readOccurrence set (nestedReader set nestingLimit) plan)
      (fun record => Read.advances_key (steady_readField set _ plan record))
      (Change.applyAll changes [])) 0 rest outcome) :
    set.decode plan (first ++ rest).toArray = outcome >>= plan.completed := by
  refine PlanSet.decode_of_finishes (finishes_readMessage ?_)
  rw [readMessageWithin_eq]
  exact finishes_readMessageWith (hfirst.finishes_append hrest)

/-- Bytes that are read as the same changes may stand for one another in front
of any other bytes. -/
theorem decode_append_congr {first second : List UInt8} {changes : List Change}
    (hfirst : ReadsAs set (nestedReader set nestingLimit) plan 0 first (.ok changes))
    (hsecond : ReadsAs set (nestedReader set nestingLimit) plan 0 second (.ok changes))
    (rest : List UInt8) :
    set.decode plan (first ++ rest).toArray = set.decode plan (second ++ rest).toArray := by
  have hnested : ∀ plan, (nestedReader set nestingLimit plan).Uniform :=
    uniform_nestedReader nestingLimit
  have hloop := uniform_occurrences set hnested plan (Change.applyAll changes [])
  obtain ⟨outcome, hrest⟩ := (hloop 0 rest).finishes
  rw [decode_append hfirst hrest, decode_append hsecond hrest]

end PlanSet

end WireCodec
