import Mathlib.Data.List.Permutation
import WireCodec.Proofs.Codec.RoundTrip
import WireCodec.Proofs.Codec.Sequences
import WireCodec.Proofs.Plan.Closed

/-! # Ends of messages

A varint that is read as a key of number zero ends the message that it stands
in, whatever stands behind it. In a nested message or a map entry it ends that
one only: the message around it goes on behind the payload, so it is read as if
the payload ended in front of that varint.
-/

namespace WireCodec

/-- The groups of a varint that ends a message: a word without a field number. -/
structure Varint.EndsMessage (groups : List UInt8) : Prop where
  terminated : Terminated groups
  short : groups.length ≤ 10
  word : value groups % 2 ^ 32 < 8

/-- The groups of a varint that is read as the byte count of a payload. -/
structure Varint.Counts (groups payload : List UInt8) : Prop where
  terminated : Terminated groups
  short : groups.length ≤ 10
  value_eq : value groups % 2 ^ 32 = payload.length

theorem Varint.EndsMessage.parses {groups : List UInt8} (h : EndsMessage groups) (depth : Nat) :
    Read.Parses Read.key depth groups (.ok none) := by
  have hzero : (Key.ofWord (UInt32.ofNat (value groups))).number = 0 := by
    apply UInt32.toNat_inj.mp
    have hword := h.word
    rw [Key.ofWord, UInt32.toNat_shiftRight, UInt32.toNat_ofNat', Nat.shiftRight_eq_div_pow]
    simp only [UInt32.reduceToNat, Nat.reduceMod]
    omega
  have hread := Read.parses_key_of_word depth h.terminated h.short
  dsimp only at hread
  rwa [if_pos hzero] at hread

/-- What a delimited body is read as, by what its payload is read as. -/
theorem Varint.Counts.parses {α : Type} {body : Read α} {groups payload : List UInt8}
    (h : Counts groups payload) {depth : Nat} (hdepth : depth < nestingLimit)
    {outcome : Except DecodeError α} (hbody : Read.Finishes body (depth + 1) payload outcome) :
    Read.Parses (Read.delimited body) depth (groups ++ payload) outcome :=
  hbody.delimited_of_count hdepth (Read.parses_varint32 depth h.terminated h.short)
    (UInt32.toNat_ofNat'.trans h.value_eq)

section Level

variable {set : PlanSet} {nested : MessagePlan → Read Record} {plan : MessagePlan} {depth : Nat}

/-- Occurrences are read as they are at the limit if the message ends behind them. -/
theorem ReadsAs.finishes_end {bytes : List UInt8} {changes : List Change}
    (h : ReadsAs set nested plan depth bytes (.ok changes)) {groups : List UInt8}
    (hend : Varint.EndsMessage groups) (rest : List UInt8) :
    Read.Finishes (readMessageWith set nested plan) depth (bytes ++ (groups ++ rest))
      (plan.completed (Change.applyAll changes [])) := by
  have hoccurrence : Read.Parses (occurrenceChanges set nested plan) depth groups (.ok none) :=
    (hend.parses depth).bind_nil (Read.parses_pure none)
  have hstep : Read.Parses (readOccurrence set nested plan (Change.applyAll changes [])) depth
      groups (.ok none) := by
    rw [readOccurrence_eq]
    exact hoccurrence.map _
  have hloop : Read.Finishes (Read.iterate (readOccurrence set nested plan) (fun record =>
      Read.advances_key (steady_readField set nested plan record)) (Change.applyAll changes []))
      depth (groups ++ rest) (.ok (Change.applyAll changes [])) :=
    fun input cursor hinside hdepth hview =>
      ⟨_, Read.parses_iterate_none hstep input cursor rest hinside hdepth hview, hdepth⟩
  exact finishes_readMessageWith (h.finishes_append hloop)

/-- What stands behind an occurrence is read by what the occurrence is read as,
not by its bytes. -/
theorem exists_finishes_of_occurrence (hnested : ∀ plan, (nested plan).Uniform)
    {before : List UInt8} {changes : List Change}
    (h : ReadsAs set nested plan depth before (.ok changes))
    (outcome : Except DecodeError (List Change)) (rest : List UInt8) :
    ∃ result, ∀ bytes,
      Read.Parses (occurrenceChanges set nested plan) depth bytes (some <$> outcome) →
      Read.Finishes (readMessageWith set nested plan) depth (before ++ (bytes ++ rest)) result := by
  cases outcome with
  | error e =>
      refine ⟨.error e, fun bytes hbytes => ?_⟩
      exact (h.append (.stop hbytes rest)).finishes
  | ok more =>
      have hloop := uniform_occurrences set hnested plan (Change.applyAll (changes ++ more) [])
      obtain ⟨result, hrest⟩ := (hloop depth rest).finishes
      refine ⟨result >>= plan.completed, fun bytes hbytes => ?_⟩
      have hboth := h.append (.of_occurrence hbytes)
      rw [← List.append_assoc]
      exact finishes_readMessageWith (hboth.finishes_append hrest)

/-- An entry is read by what its payload is read as, not by its bytes. -/
theorem exists_pair_of_payload {entry : String} {inner : MessagePlan}
    (hinner : set.message? entry = some inner) :
    ∃ next : Record → Except DecodeError (MapKey × Value), ∀ bytes outcome,
      Read.Parses (Read.delimited (nested inner)) depth bytes outcome →
      Read.Parses (readPair set nested entry) depth bytes (outcome >>= next) := by
  unfold readPair
  simp only [hinner]
  refine Read.exists_bind_outcome fun pair => ?_
  split
  · exact ⟨_, Read.parses_throw _ []⟩
  · split
    · exact ⟨_, Read.parses_throw _ []⟩
    · exact ⟨.ok _, Read.parses_pure _⟩

/-- A field of messages is read by what the payload is read as, not by its bytes. -/
theorem FieldPlan.exists_changes_of_payload {field : FieldPlan} {name : String}
    {inner : MessagePlan} (htype : field.type = .message name)
    (hinner : set.message? name = some inner) {found : Key}
    (hfound : found.wireType = WireType.lengthDelimited.code) :
    ∃ next : Record → Except DecodeError (List Change), ∀ bytes outcome,
      Read.Parses (Read.delimited (nested inner)) depth bytes outcome →
      Read.Parses (field.changes set nested found) depth bytes (outcome >>= next) := by
  have hexpect : Read.Parses (Read.expect found field.type.wireType.code) depth [] (.ok ()) := by
    rw [htype]
    exact hfound ▸ parses_expect found
  have hvalue : readValue set nested field.type =
      (fun record => some (.message record)) <$> Read.delimited (nested inner) := by
    rw [htype, readValue, hinner]
  unfold FieldPlan.changes FieldPlan.action
  split_ifs with hentry hrepeated hpackable
  · obtain ⟨next, hnext⟩ := @exists_pair_of_payload set nested depth name inner hinner
    refine ⟨fun record => (fun pair => [⟨field.name, .put pair.1 pair.2⟩]) <$> next record, ?_⟩
    intro bytes outcome hbytes
    refine hexpect.bind ?_
    rw [htype]
    have hpair := (hnext bytes outcome hbytes).map fun pair =>
      [Change.mk field.name (.put pair.1 pair.2)]
    cases outcome <;> exact hpair
  · rw [htype] at hpackable
    cases hpackable
  · refine ⟨fun record => .ok [⟨field.name, .append (some (.message record))⟩], ?_⟩
    intro bytes outcome hbytes
    refine hexpect.bind ?_
    simp only [collectItem, hvalue, Functor.map_map]
    cases outcome <;> exact hbytes.map _
  · refine ⟨fun record => .ok [⟨field.name, .assign (some (.message record))⟩], ?_⟩
    intro bytes outcome hbytes
    refine hexpect.bind ?_
    simp only [hvalue, Functor.map_map]
    cases outcome <;> exact hbytes.map _

theorem nestedReader_of_lt (hdepth : depth < nestingLimit) :
    nestedReader set (nestingLimit - depth) =
      readMessageWithin set (nestingLimit - (depth + 1)) := by
  have hlevels : nestingLimit - depth = nestingLimit - (depth + 1) + 1 := by omega
  rw [hlevels]
  rfl

end Level

/-- Bytes of a message that lies so deep, and the same bytes with some more in
them that no reader gets to see: behind a varint that ends the message, or
behind one that ends a message nested in it, at any level. -/
inductive PlanSet.Extends (set : PlanSet) : Nat → MessagePlan → List UInt8 → List UInt8 → Prop
  | here {depth : Nat} {plan : MessagePlan} {occurrences : List (List UInt8)} {groups : List UInt8}
      (h : ∀ bytes ∈ occurrences, set.IsOccurrenceAt depth plan bytes)
      (hend : Varint.EndsMessage groups) (rest : List UInt8) :
      Extends set depth plan occurrences.flatten (occurrences.flatten ++ (groups ++ rest))
  | inside {depth : Nat} {plan inner : MessagePlan} {occurrences : List (List UInt8)}
      {number : UInt32} {arm : DecodeArm} {field : FieldPlan} {name : String}
      {key count count' payload payload' : List UInt8}
      (h : ∀ bytes ∈ occurrences, set.IsOccurrenceAt depth plan bytes)
      (hkey : Key.SpelledBy ⟨number, WireType.lengthDelimited.code⟩ key)
      (harm : plan.arm? number = some arm) (hfield : plan.fields[arm.field]? = some field)
      (htype : field.type = .message name) (hinner : set.message? name = some inner)
      (hcount : Varint.Counts count payload) (hcount' : Varint.Counts count' payload')
      (hpayload : Extends set (depth + 1) inner payload payload') (rest : List UInt8) :
      Extends set depth plan (occurrences.flatten ++ (key ++ (count ++ payload) ++ rest))
        (occurrences.flatten ++ (key ++ (count' ++ payload') ++ rest))

namespace PlanSet

variable {set : PlanSet} {plan : MessagePlan} {depth : Nat} {first second : List UInt8}

/-- The induction is on the level at which the message ends early. -/
theorem Extends.finishes (hset : set.Closed) (h : set.Extends depth plan first second)
    (hplan : plan.Closed set) :
    ∃ outcome,
      Read.Finishes (readMessageWithin set (nestingLimit - depth) plan) depth first outcome ∧
      Read.Finishes (readMessageWithin set (nestingLimit - depth) plan) depth second outcome := by
  induction h with
  | @here depth plan occurrences groups h hend rest =>
      obtain ⟨changes, hreads⟩ := exists_readsAs_flatten h
      rw [readMessageWithin_eq]
      exact ⟨_, hreads.finishes, hreads.finishes_end hend rest⟩
  | @inside depth plan inner occurrences number arm field name key count count' payload payload' h
      hkey harm hfield htype hinner hcount hcount' _ rest ih =>
      obtain ⟨changes, hreads⟩ := exists_readsAs_flatten h
      obtain ⟨index, other, hindex, rfl, rfl⟩ := hplan.arm?_eq_some harm
      obtain rfl : other = field := Option.some.inj (hindex.symm.trans hfield)
      have hnumber := (hplan.fields other (List.mem_of_getElem? hindex)).number_ne_zero
      -- at the nesting limit neither payload is entered
      have hpayload : ∃ outcome,
          Read.Parses (Read.delimited (nestedReader set (nestingLimit - depth) inner)) depth
            (count ++ payload) outcome ∧
          Read.Parses (Read.delimited (nestedReader set (nestingLimit - depth) inner)) depth
            (count' ++ payload') outcome := by
        rcases Nat.lt_or_ge depth nestingLimit with hdepth | hdepth
        · obtain ⟨outcome, hfirst, hsecond⟩ := ih (hset.of_message? hinner)
          rw [nestedReader_of_lt hdepth]
          exact ⟨outcome, hcount.parses hdepth hfirst, hcount'.parses hdepth hsecond⟩
        · exact ⟨_, Read.parses_delimited_of_limit hdepth _,
            Read.parses_delimited_of_limit hdepth _⟩
      obtain ⟨outcome, hfirst, hsecond⟩ := hpayload
      obtain ⟨next, hnext⟩ := FieldPlan.exists_changes_of_payload htype hinner
        (rfl : (Key.mk other.number WireType.lengthDelimited.code).wireType = _)
      obtain ⟨result, hresult⟩ := exists_finishes_of_occurrence (uniform_nestedReader _) hreads
        (outcome >>= next) rest
      have hoccurrence : ∀ bytes, Read.Parses
          (Read.delimited (nestedReader set (nestingLimit - depth) inner)) depth bytes outcome →
          Read.Parses (occurrenceChanges set (nestedReader set (nestingLimit - depth)) plan) depth
            (key ++ bytes) (some <$> (outcome >>= next)) := by
        intro bytes hbytes
        refine parses_occurrence_of_key (hkey.parses hnumber depth) ?_
        rw [fieldChanges_of_arm? hindex harm]
        exact hnext bytes outcome hbytes
      rw [readMessageWithin_eq]
      exact ⟨result, hresult _ (hoccurrence _ hfirst), hresult _ (hoccurrence _ hsecond)⟩

/-- A message comes out the same, value or error, with and without the bytes
behind a varint that ends it or a message in it, whatever they are. If it is the
payload of a field, the reader goes on behind the payload either way. -/
theorem readMessage_of_extends {source : String} {schema : Schema}
    (hcompile : compile source = .ok schema) (hbuild : schema.build = .ok set)
    (hplan : plan ∈ set.messages) (h : set.Extends depth plan first second) :
    ∃ outcome, Read.Finishes (readMessage set plan) depth first outcome ∧
      Read.Finishes (readMessage set plan) depth second outcome ∧
      (depth = 0 → set.decode plan first.toArray = outcome ∧
        set.decode plan second.toArray = outcome) ∧
      ∀ outer, depth = outer + 1 → outer < nestingLimit → ∀ count count',
        Varint.Counts count first → Varint.Counts count' second →
        Read.Parses (Read.delimited (readMessage set plan)) outer (count ++ first) outcome ∧
        Read.Parses (Read.delimited (readMessage set plan)) outer (count' ++ second) outcome := by
  have hset := closed_of_build hcompile hbuild
  obtain ⟨outcome, hfirst, hsecond⟩ := h.finishes hset (hset plan hplan)
  have hfirst := finishes_readMessage hfirst
  have hsecond := finishes_readMessage hsecond
  refine ⟨outcome, hfirst, hsecond, ?_, ?_⟩
  · rintro rfl
    exact ⟨decode_of_finishes hfirst, decode_of_finishes hsecond⟩
  · rintro outer rfl houter count count' hcount hcount'
    exact ⟨hcount.parses houter hfirst, hcount'.parses houter hsecond⟩

/-- A node in a map that ends early, with a size behind the map. -/
theorem readMessage_of_extends_node :
    nodePlans.decode nodePlan #[26, 6, 8, 1, 18, 2, 8, 0, 16, 1, 8, 0] =
      nodePlans.decode nodePlan #[26, 9, 8, 1, 18, 5, 8, 0, 7, 8, 255, 16, 1, 8, 0] := by
  obtain ⟨schema, hcompile, -, hbuild⟩ := compile_nodeSource
  have hred : ∀ bytes ∈ [[8, 0]], nodePlans.IsOccurrenceAt 2 nodePlan bytes := by
    rintro bytes hbytes
    obtain rfl := List.mem_singleton.mp hbytes
    exact ⟨[("hue", .enum "RED")], ⟨2, 2, 2⟩, by cbv, rfl⟩
  have htrue : ∀ bytes ∈ [[8, 1]], nodePlans.IsOccurrenceAt 1 nodeEntryPlan bytes := by
    rintro bytes hbytes
    obtain rfl := List.mem_singleton.mp hbytes
    exact ⟨[("key", .bool true)], ⟨2, 2, 1⟩, by cbv, rfl⟩
  have hvalueKey : Key.SpelledBy ⟨2, WireType.lengthDelimited.code⟩ [18] :=
    ⟨.last rfl, by decide, rfl⟩
  have hkidsKey : Key.SpelledBy ⟨3, WireType.lengthDelimited.code⟩ [26] :=
    ⟨.last rfl, by decide, rfl⟩
  have hnode : nodePlans.Extends 2 nodePlan [8, 0] [8, 0, 7, 8, 255] :=
    .here hred ⟨.last rfl, by decide, by decide⟩ [8, 255]
  have hnodeCount : Varint.Counts [2] [8, 0] := ⟨.last rfl, by decide, rfl⟩
  have hnodeCount' : Varint.Counts [5] [8, 0, 7, 8, 255] := ⟨.last rfl, by decide, rfl⟩
  have hentry : nodePlans.Extends 1 nodeEntryPlan [8, 1, 18, 2, 8, 0]
      [8, 1, 18, 5, 8, 0, 7, 8, 255] :=
    .inside htrue hvalueKey rfl rfl rfl rfl hnodeCount hnodeCount' hnode []
  have hentryCount : Varint.Counts [6] [8, 1, 18, 2, 8, 0] := ⟨.last rfl, by decide, rfl⟩
  have hentryCount' : Varint.Counts [9] [8, 1, 18, 5, 8, 0, 7, 8, 255] :=
    ⟨.last rfl, by decide, rfl⟩
  have hkids : nodePlans.Extends 0 nodePlan [26, 6, 8, 1, 18, 2, 8, 0, 16, 1, 8, 0]
      [26, 9, 8, 1, 18, 5, 8, 0, 7, 8, 255, 16, 1, 8, 0] :=
    .inside (List.forall_mem_nil _) hkidsKey rfl rfl rfl rfl hentryCount hentryCount' hentry
      [16, 1, 8, 0]
  obtain ⟨outcome, -, -, hdecode, -⟩ :=
    readMessage_of_extends hcompile hbuild List.mem_cons_self hkids
  obtain ⟨hfirst, hsecond⟩ := hdecode rfl
  exact hfirst.trans hsecond.symm

end PlanSet

end WireCodec
