import WireCodec.Proofs.Codec.Determined
import WireCodec.Proofs.Codec.RoundTrip

/-! # Packed and unpacked elements

The elements of a packable field may stand in packed runs or one by one, and
occurrences of other fields may stand anywhere between them: the message that
is read is the same, and so is the error.
-/

namespace WireCodec

/-- A part of the bytes of a message, as one of its repeated fields sees it. -/
inductive Piece where
  /-- An element under a key of its own. -/
  | element (tree : WireValue)
  /-- Elements that stand in a packed run. -/
  | run (elements : List WireValue)
  /-- An occurrence of another field. -/
  | other (bytes : List UInt8)

namespace Piece

/-- The elements of the field in a piece. -/
def elements : Piece → List WireValue
  | element tree => [tree]
  | run elements => elements
  | other _ => []

/-- The occurrences of other fields in a piece. -/
def others : Piece → List (List UInt8)
  | other bytes => [bytes]
  | _ => []

/-- The bytes of a piece. -/
def bytes (field : FieldPlan) : Piece → List UInt8
  | element tree => Key.form ⟨field.number, field.type.wireType.code⟩ ++ tree.bytes
  | run elements =>
    Key.form ⟨field.number, WireType.lengthDelimited.code⟩ ++ (WireValue.run elements).bytes
  | other bytes => bytes

end Piece

section Interleaving

variable {E : Type}

/-- The outcome of one thing after the other: the first error, or all results in a row. -/
def inTurn {α β : Type} (outcome : α → Except E (List β)) : List α → Except E (List β)
  | [] => .ok []
  | a :: rest => do
    let results ← outcome a
    (results ++ ·) <$> inTurn outcome rest

variable {α : Type} (name : String)

/-- An outcome that has some changes to a field besides those of another outcome. -/
inductive Interleaved (own : List Change) :
    Except E (List Change) → Except E (List Change) → Prop
  | error (e : E) : Interleaved own (.error e) (.error e)
  | ok {rest changes : List Change} (hown : changes.filter (·.name = name) = own)
      (hrest : changes.filter (·.name ≠ name) = rest) : Interleaved own (.ok rest) (.ok changes)

variable {name} {own : List Change} {rest outcome : Except E (List Change)}

theorem Interleaved.own_append (h : Interleaved name own rest outcome) {more : List Change}
    (hmore : ∀ change ∈ more, change.name = name) :
    Interleaved name (more ++ own) rest ((more ++ ·) <$> outcome) := by
  cases h with
  | error e => exact .error e
  | ok hown hrest =>
      have hfilter : more.filter (·.name = name) = more := by simpa using hmore
      have hother : more.filter (·.name ≠ name) = [] := by simpa using hmore
      refine .ok ?_ ?_
      · rw [List.filter_append, hfilter, hown]
      · rw [List.filter_append, hother, hrest, List.nil_append]

theorem Interleaved.other_append (h : Interleaved name own rest outcome) {more : List Change}
    (hmore : ∀ change ∈ more, change.name ≠ name) :
    Interleaved name own ((more ++ ·) <$> rest) ((more ++ ·) <$> outcome) := by
  cases h with
  | error e => exact .error e
  | ok hown hrest =>
      have hfilter : more.filter (·.name = name) = [] := by simpa using hmore
      have hother : more.filter (·.name ≠ name) = more := by simpa using hmore
      refine .ok ?_ ?_
      · rw [List.filter_append, hfilter, hown, List.nil_append]
      · rw [List.filter_append, hother, hrest]

/-- Changes to one field may be made before all others. -/
theorem Change.applyAll_own_first (changes : List Change) :
    applyAll changes [] =
      applyAll (changes.filter (·.name = name) ++ changes.filter (·.name ≠ name)) [] := by
  refine applyAll_congr ?_
  intro other
  rw [List.filter_append, List.filter_filter, List.filter_filter]
  by_cases hother : other = name
  · subst hother
    simp
  · have hnone : changes.filter (fun change => decide (change.name = other) &&
        decide (change.name = name)) = [] := by
      refine List.filter_eq_nil_iff.mpr ?_
      intro change _ hboth
      simp only [Bool.and_eq_true, decide_eq_true_eq] at hboth
      exact hother (hboth.1.symm.trans hboth.2)
    have hall : changes.filter (fun change => decide (change.name = other) &&
        decide (change.name ≠ name)) = changes.filter (·.name = other) := by
      refine List.filter_congr ?_
      intro change _
      by_cases hchange : change.name = other
      · simp [hchange, hother]
      · simp [hchange]
    rw [hnone, hall, List.nil_append]

theorem Interleaved.completed {rest outcome : Except DecodeError (List Change)}
    (h : Interleaved name own rest outcome) (plan : MessagePlan) :
    (do plan.completed (Change.applyAll (← outcome) [])) =
      (do plan.completed (Change.applyAll (own ++ (← rest)) [])) := by
  cases h with
  | error e => rfl
  | @ok rest changes hown hrest =>
      change plan.completed (Change.applyAll changes []) =
        plan.completed (Change.applyAll (own ++ rest) [])
      rw [Change.applyAll_own_first changes, hown, hrest]

end Interleaving

section Pieces

variable {set : PlanSet} {plan : MessagePlan} {field : FieldPlan}
  {nested : MessagePlan → Read Record} {depth : Nat}

variable (set field) in
/-- The change that an element of the field is read as. -/
def appended (item : Value) : Change :=
  ⟨field.name, .append (some (item.normal set canonicalSymbols (some field.type)))⟩

theorem foldl_appended (items : List Value) :
    (items.map (appended set field)).foldl (fun old change => change.what.apply old) none =
      if items = [] then none
      else some (.list (items.map (Value.normal set canonicalSymbols (some field.type)))) := by
  cases items with
  | nil => rfl
  | cons item rest =>
      have h := foldl_append_items field.name [item.normal set canonicalSymbols (some field.type)]
        (rest.map (Value.normal set canonicalSymbols (some field.type)))
      rw [List.map_map] at h
      exact h

theorem FieldPlan.Coherent.isMapEntry_of_packable (h : field.Coherent set)
    (hpackable : field.type.packable = true) : field.isMapEntry = false := by
  refine eq_false_of_ne_true fun hmap => ?_
  obtain ⟨_, _, _, _, _, htype, _⟩ := h.entry hmap
  exact ValueType.ne_message_of_packable hpackable _ htype

theorem parses_elementPiece (hplan : plan.Coherent set) (hfield : field ∈ plan.fields)
    (hrepeated : field.cardinality = .repeated) (hpackable : field.type.packable = true)
    {item : Value} {tree : WireValue} (hitem : ElementTree set field.type item tree) :
    Read.Parses (occurrenceChanges set nested plan) depth (Piece.bytes field (.element tree))
      (.ok (some [appended set field item])) := by
  have hleaf := ValueType.ne_message_of_packable hpackable
  have hmap := (hplan.fields field hfield).isMapEntry_of_packable hpackable
  have hread := hitem.parses_leaf hleaf (hitem.fits_of_packable hpackable) nested depth
  exact parses_occurrence hplan hfield (parses_element hmap hrepeated hread)

theorem parses_runPiece (hplan : plan.Coherent set) (hfield : field ∈ plan.fields)
    (hrepeated : field.cardinality = .repeated) (hpackable : field.type.packable = true)
    (hdepth : depth < nestingLimit) {items : List Value} {elements : List WireValue}
    (hitems : List.Forall₂ (ElementTree set field.type) items elements)
    (hlength : (WireValue.runBytes elements).length < 2 ^ 32) :
    Read.Parses (occurrenceChanges set nested plan) depth (Piece.bytes field (.run elements))
      (.ok (some (items.map (appended set field)))) := by
  have hleaf := ValueType.ne_message_of_packable hpackable
  have hmap := (hplan.fields field hfield).isMapEntry_of_packable hpackable
  have hfits : ∀ tree ∈ elements, tree.Fits := by
    intro tree htree
    obtain ⟨item, _, hitem⟩ := exists_mem_of_forall₂ hitems htree
    exact hitem.fits_of_packable hpackable
  have hrun : Read.Parses (field.changes set nested
      ⟨field.number, WireType.lengthDelimited.code⟩) depth (WireValue.run elements).bytes
      (.ok (items.map (appended set field))) := by
    rw [FieldPlan.changes_run hmap hrepeated hpackable]
    exact (finishes_leaves hleaf hitems hfits nested (depth + 1)).delimited hdepth hlength
  exact parses_occurrence hplan hfield hrun

theorem name_of_appended (items : List Value) :
    ∀ change ∈ items.map (appended set field), change.name = field.name := by
  intro change hchange
  obtain ⟨item, _, rfl⟩ := List.mem_map.mp hchange
  rfl

section Turns

variable {bytes rest : List UInt8} {own : List Change} {others : Except DecodeError (List Change)}
  (hrest : ∃ outcome, ReadsAs set nested plan depth rest outcome ∧
    Interleaved field.name own others outcome)
include hrest

/-- Bytes that are read as changes to the field add to its own changes. -/
theorem exists_readsAs_own {changes : List Change}
    (hbytes : Read.Parses (occurrenceChanges set nested plan) depth bytes (.ok (some changes)))
    (hnames : ∀ change ∈ changes, change.name = field.name) :
    ∃ outcome, ReadsAs set nested plan depth (bytes ++ rest) outcome ∧
      Interleaved field.name (changes ++ own) others outcome := by
  obtain ⟨outcome, hreads, hmerged⟩ := hrest
  exact ⟨_, .next hbytes hreads, hmerged.own_append hnames⟩

/-- Bytes that are read as changes to other fields add to those, and an error ends the message. -/
theorem exists_readsAs_other {first : Except DecodeError (List Change)}
    (hbytes : Read.Parses (occurrenceChanges set nested plan) depth bytes (some <$> first))
    (hnames : ∀ changes, first = .ok changes → ∀ change ∈ changes, change.name ≠ field.name) :
    ∃ outcome, ReadsAs set nested plan depth (bytes ++ rest) outcome ∧
      Interleaved field.name own (do let changes ← first; (changes ++ ·) <$> others) outcome := by
  obtain ⟨outcome, hreads, hmerged⟩ := hrest
  cases first with
  | error e => exact ⟨.error e, .stop hbytes _, .error e⟩
  | ok changes => exact ⟨_, .next hbytes hreads, hmerged.other_append (hnames changes rfl)⟩

end Turns

/-- However the elements of a field are cut into pieces, and whatever stands
between them, the message is read as the same changes to the field among the
changes of the other occurrences. -/
theorem readsAs_pieces (hplan : plan.Coherent set) (hfield : field ∈ plan.fields)
    (hrepeated : field.cardinality = .repeated) (hpackable : field.type.packable = true)
    (hdepth : depth < nestingLimit) {outcomes : List UInt8 → Except DecodeError (List Change)}
    {pieces : List Piece} {items : List Value}
    (hitems : List.Forall₂ (ElementTree set field.type) items (pieces.flatMap Piece.elements))
    (hothers : ∀ other ∈ pieces.flatMap Piece.others,
      Read.Parses (occurrenceChanges set nested plan) depth other (some <$> outcomes other) ∧
        ∀ changes, outcomes other = .ok changes → ∀ change ∈ changes, change.name ≠ field.name)
    (hruns : ∀ elements, Piece.run elements ∈ pieces →
      (WireValue.runBytes elements).length < 2 ^ 32) :
    ∃ outcome, ReadsAs set nested plan depth (pieces.flatMap (Piece.bytes field)) outcome ∧
      Interleaved field.name (items.map (appended set field))
        (inTurn outcomes (pieces.flatMap Piece.others)) outcome := by
  -- the induction is on the pieces, and the items still to come shrink with them
  induction pieces generalizing items with
  | nil =>
      cases hitems
      exact ⟨.ok [], .nil, .ok rfl rfl⟩
  | cons piece rest ih =>
      simp only [List.flatMap_cons] at hitems hothers ⊢
      obtain ⟨hothersFirst, hothersRest⟩ := List.forall_mem_append.mp hothers
      have hrunsRest : ∀ elements, Piece.run elements ∈ rest →
          (WireValue.runBytes elements).length < 2 ^ 32 := fun elements hmem =>
        hruns elements (List.mem_cons_of_mem _ hmem)
      cases piece with
      | element tree =>
          cases hitems with
          | @cons item _ items _ hitem hrest =>
              exact exists_readsAs_own (ih hrest hothersRest hrunsRest)
                (parses_elementPiece hplan hfield hrepeated hpackable hitem)
                (name_of_appended [item])
      | run elements =>
          -- the run holds the first items, as many as it has elements
          obtain ⟨first, others, rfl, helements, hrest⟩ :
              ∃ first others, items = first ++ others ∧
                List.Forall₂ (ElementTree set field.type) first elements ∧
                List.Forall₂ (ElementTree set field.type) others (rest.flatMap Piece.elements) :=
            ⟨_, _, (List.take_append_drop elements.length items).symm,
              List.forall₂_take_append _ _ _ hitems, List.forall₂_drop_append _ _ _ hitems⟩
          rw [List.map_append]
          exact exists_readsAs_own (ih hrest hothersRest hrunsRest)
            (parses_runPiece hplan hfield hrepeated hpackable hdepth helements
              (hruns elements List.mem_cons_self))
            (name_of_appended first)
      | other bytes =>
          obtain ⟨hparses, hnames⟩ := hothersFirst bytes List.mem_cons_self
          exact exists_readsAs_other (ih hitems hothersRest hrunsRest) hparses hnames

end Pieces

theorem name_of_inTurn {outcomes : List UInt8 → Except DecodeError (List Change)}
    {others : List (List UInt8)} {name : String}
    (h : ∀ other ∈ others, ∀ changes, outcomes other = .ok changes →
      ∀ change ∈ changes, change.name ≠ name) {changes : List Change}
    (hchanges : inTurn outcomes others = .ok changes) : ∀ change ∈ changes, change.name ≠ name := by
  induction others generalizing changes with
  | nil =>
      cases hchanges
      simp
  | cons other rest ih =>
      obtain ⟨hother, hrest⟩ := List.forall_mem_cons.mp h
      obtain ⟨first, hfirst, hnext⟩ := Except.bind_eq_ok.mp hchanges
      obtain ⟨more, hmore, rfl⟩ := Except.map_eq_ok.mp hnext
      exact List.forall_mem_append.mpr ⟨hother first hfirst, ih hrest hmore⟩

/-- The elements of a repeated field of a packable type are read the same in
whatever runs or single occurrences they come, and wherever these stand among
complete occurrences of other fields. The list that is read has exactly these
elements, in their order. -/
theorem PlanSet.readMessage_of_pieces {source : String} {schema : Schema} {set : PlanSet}
    (hcompile : compile source = .ok schema) (hdistinct : schema.DistinctFields)
    (hbuild : schema.build = .ok set) {message : String} {plan : MessagePlan}
    (hplan : set.message? message = some plan) {field : FieldPlan} (hfield : field ∈ plan.fields)
    (hrepeated : field.cardinality = .repeated) (hpackable : field.type.packable = true)
    {items : List Value} {trees : List WireValue} (hitems : itemTrees set field items = .ok trees)
    {others : List (List UInt8)}
    (hothers : ∀ other ∈ others, ∃ number ≠ field.number, OccurrenceForm number other)
    {depth : Nat} (hdepth : depth < nestingLimit) :
    ∃ outcome : Except DecodeError Record,
      (∀ pieces : List Piece, pieces.flatMap Piece.elements = trees →
        pieces.flatMap Piece.others = others →
        (∀ elements, Piece.run elements ∈ pieces →
          (WireValue.runBytes elements).length < 2 ^ 32) →
        Read.Finishes (readMessage set plan) depth (pieces.flatMap (Piece.bytes field)) outcome) ∧
      ∀ record, outcome = .ok record → Record.value? record field.name =
        if items = [] then none
        else some (.list (items.map (Value.normal set canonicalSymbols (some field.type)))) := by
  have hset := coherent_of_build hcompile hdistinct hbuild
  have hcoherent := hset.of_message? hplan
  have helements := itemTrees_eq_ok.mp hitems
  -- what comes of each other occurrence is fixed before the pieces are laid out
  have hoccurrence : ∀ other, ∃ outcome : Except DecodeError (List Change), other ∈ others →
      Read.Parses (occurrenceChanges set (nestedReader set (nestingLimit - depth)) plan) depth other
          (some <$> outcome) ∧
        ∀ changes, outcome = .ok changes → ∀ change ∈ changes, change.name ≠ field.name := by
    intro other
    by_cases hother : other ∈ others
    · obtain ⟨number, hnumber, hform⟩ := hothers other hother
      obtain ⟨outcome, hparses, hnames⟩ :=
        determined_occurrence (uniform_nestedReader (nestingLimit - depth)) hcoherent hform
      refine ⟨outcome, fun _ => ⟨hparses, ?_⟩⟩
      intro changes hchanges change hchange hname
      obtain ⟨found, hfound, hfoundNumber, hfoundName⟩ := hnames changes hchanges change hchange
      obtain rfl := List.inj_on_of_nodup_map hcoherent.names hfound hfield
        (hfoundName.symm.trans hname)
      exact hnumber hfoundNumber.symm
    · exact ⟨.ok [], fun hmem => absurd hmem hother⟩
  choose outcomes houtcomes using hoccurrence
  let own := items.map (appended set field)
  refine ⟨(do plan.completed (Change.applyAll (own ++ (← inTurn outcomes others)) [])), ?_, ?_⟩
  · intro pieces hpieces hpiecesOthers hruns
    obtain ⟨outcome, hreads, hmerged⟩ := readsAs_pieces hcoherent hfield hrepeated hpackable hdepth
      (hpieces ▸ helements) (fun other hmem => houtcomes other (hpiecesOthers ▸ hmem)) hruns
    rw [hpiecesOthers] at hmerged
    rw [← hmerged.completed plan]
    refine finishes_readMessage ?_
    rw [readMessageWithin_eq]
    exact hreads.finishes
  · intro record hrecord
    obtain ⟨rest, hrest, hcompleted⟩ := Except.bind_eq_ok.mp hrecord
    obtain ⟨rfl, -⟩ := (MessagePlan.completed_eq_ok hcoherent.toLaidOut).mp hcompleted
    have hnames := name_of_inTurn (fun other hmem => (houtcomes other hmem).2) hrest
    have hown : own.filter (·.name = field.name) = own := by simp [own, appended]
    have hother : rest.filter (·.name = field.name) = [] := by simpa using hnames
    rw [Change.value?_applyAll, List.filter_append, hown, hother, List.append_nil]
    exact foldl_appended items

/-- Two sizes of a node, once as a run between a single size and another field
and once all in runs, with a field that nodes do not have at the end. -/
theorem readMessage_of_pieces_node :
    nodePlans.decode nodePlan #[16, 1, 8, 0, 18, 1, 2, 72, 5] =
        nodePlans.decode nodePlan #[8, 0, 18, 2, 1, 2, 18, 0, 72, 5] ∧
      ∀ record, nodePlans.decode nodePlan #[16, 1, 8, 0, 18, 1, 2, 72, 5] = .ok record →
        Record.value? record "sizes" = some (.list [.int32 (-1), .int32 1]) := by
  obtain ⟨schema, hcompile, hdistinct, hbuild⟩ := compile_nodeSource
  let sizes : FieldPlan := ⟨"sizes", 2, .repeated, .scalar .sint32, true, false⟩
  let first := ScalarType.wire .sint32 (-1)
  let second := ScalarType.wire .sint32 1
  have hfirst : first.bytes = [1] := Varint.encode_of_lt (by decide)
  have hsecond : second.bytes = [2] := Varint.encode_of_lt (by decide)
  have hitems : itemTrees nodePlans sizes [.int32 (-1), .int32 1] = .ok [first, second] :=
    itemTrees_eq_ok.mpr (.cons (.scalar .sint32 (-1)) (.cons (.scalar .sint32 1) .nil))
  have hgroups : ∀ group : UInt8, Varint.continues group = false → Varint.Terminated [group] :=
    fun group hlast => .last hlast
  have hothers : ∀ other ∈ [[8, 0], [72, 5]], ∃ number ≠ sizes.number,
      OccurrenceForm number other := by
    simp only [List.forall_mem_cons]
    exact ⟨⟨1, by decide, .intro (hgroups 8 rfl) (by decide) rfl (by decide)
        (.varint (hgroups 0 rfl))⟩,
      ⟨9, by decide, .intro (hgroups 72 rfl) (by decide) rfl (by decide)
        (.varint (hgroups 5 rfl))⟩, by simp⟩
  have hplan : nodePlans.message? "Node" = some nodePlan := rfl
  have hdepth : 0 < nestingLimit := by decide
  obtain ⟨outcome, hpieces, hsizes⟩ := PlanSet.readMessage_of_pieces hcompile hdistinct hbuild
    hplan (by simp [nodePlan_fields, sizes]) rfl rfl hitems hothers hdepth
  have hmixed := PlanSet.decode_of_finishes
    (hpieces [.element first, .other [8, 0], .run [second], .other [72, 5]] rfl rfl
      (by simp [WireValue.runBytes, hsecond]))
  have hpacked := PlanSet.decode_of_finishes
    (hpieces [.other [8, 0], .run [first, second], .run [], .other [72, 5]] rfl rfl
      (by simp [WireValue.runBytes, hfirst, hsecond]))
  simp [sizes, Piece.bytes, WireValue.bytes, WireValue.runBytes, hfirst, hsecond, delimitedForm,
    Key.form, Key.word, ValueType.wireType, ScalarType.wireType, WireType.code,
    Varint.encode_of_lt] at hmixed hpacked
  rw [hmixed, hpacked]
  refine ⟨rfl, ?_⟩
  intro record hrecord
  exact hsizes record hrecord

end WireCodec
