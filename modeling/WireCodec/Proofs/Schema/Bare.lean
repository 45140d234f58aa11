import WireCodec.Proofs.Outcome
import WireCodec.Proofs.Schema.Grammar
import WireCodec.Schema.Compile

/-! # Schemas without spans

What a schema declares does not depend on where its parts stand. Tokens that
differ in nothing but their spans spell schemas that differ in nothing but
theirs, and the check finds the same faults in these.
-/

namespace WireCodec

/-! ## Bare parts -/

def EnumValue.bare (value : EnumValue) : EnumValue :=
  ⟨.detached value.name.node, .detached value.number.node⟩

def FieldType.bare : FieldType → FieldType
  | named name => .named name
  | map key value => .map (.detached key.node) (.detached value.node)

def Field.bare (field : Field) : Field :=
  ⟨.detached field.name.node, .detached field.type.node.bare, .detached field.number.node,
    field.cardinality, field.packed.map (.detached ·.node)⟩

def EnumDecl.bare (decl : EnumDecl) : EnumDecl :=
  ⟨.detached decl.name.node, decl.values.map (.detached ·.node.bare)⟩

def MessageDecl.bare (decl : MessageDecl) : MessageDecl :=
  ⟨.detached decl.name.node, decl.fields.map (.detached ·.node.bare)⟩

/-- A schema without the spans of its parts. -/
def Schema.bare (schema : Schema) : Schema :=
  ⟨schema.package.map (.detached ·.node), schema.enums.map (.detached ·.node.bare),
    schema.messages.map (.detached ·.node.bare)⟩

def SchemaItem.bare : SchemaItem → SchemaItem
  | version => .version
  | package name => .package (.detached name.node)
  | enum decl => .enum (.detached decl.node.bare)
  | message decl => .message (.detached decl.node.bare)

theorem Schema.bare_ofItems (items : List SchemaItem) :
    (ofItems items).bare = ofItems (items.map SchemaItem.bare) := by
  have hpackage : SchemaItem.package? ∘ SchemaItem.bare =
      fun item => item.package?.map (.detached ·.node) := by
    funext item
    cases item <;> rfl
  have henum : SchemaItem.enum? ∘ SchemaItem.bare =
      fun item => item.enum?.map (.detached ·.node.bare) := by
    funext item
    cases item <;> rfl
  have hmessage : SchemaItem.message? ∘ SchemaItem.bare =
      fun item => item.message?.map (.detached ·.node.bare) := by
    funext item
    cases item <;> rfl
  simp only [ofItems, bare, List.filterMap_map, hpackage, henum, hmessage, List.getLast?_map,
    ← List.map_filterMap]

/-! ## Tokens at other places -/

/-- Two lists have the same tokens, with any spans. -/
inductive SameTokens : List (Spanned Token) → List (Spanned Token) → Prop
  | nil : SameTokens [] []
  | cons {token : Token} {here here' : Span} {rest rest' : List (Spanned Token)}
      (hrest : SameTokens rest rest') : SameTokens (⟨token, here⟩ :: rest) (⟨token, here'⟩ :: rest')

section SameTokens

variable {tokens tokens' : List (Spanned Token)}

theorem SameTokens.symm (h : SameTokens tokens tokens') : SameTokens tokens' tokens := by
  induction h with
  | nil => exact .nil
  | cons _ ih => exact .cons ih

theorem SameTokens.ne_nil (h : SameTokens tokens tokens') (hne : tokens ≠ []) : tokens' ≠ [] := by
  cases h with
  | nil => exact absurd rfl hne
  | cons => exact List.cons_ne_nil _ _

theorem SameTokens.exists_append {before after : List (Spanned Token)}
    (h : SameTokens (before ++ after) tokens') : ∃ before' after', tokens' = before' ++ after' ∧
      SameTokens before before' ∧ SameTokens after after' := by
  induction before generalizing tokens' with
  | nil => exact ⟨[], tokens', rfl, .nil, h⟩
  | cons token before ih =>
      cases h with
      | cons hrest =>
          obtain ⟨before', after', rfl, hbefore, hafter⟩ := ih hrest
          exact ⟨_ :: before', after', rfl, .cons hbefore, hafter⟩

theorem DottedName.respan {name : Spanned String} (h : DottedName tokens name)
    (hsame : SameTokens tokens tokens') :
    ∃ name', DottedName tokens' name' ∧ name'.node = name.node := by
  induction h generalizing tokens' with
  | one =>
      obtain _ | ⟨⟨⟩⟩ := hsame
      exact ⟨_, .one, rfl⟩
  | more _ ih =>
      obtain ⟨before, after, rfl, hbefore, hafter⟩ := hsame.exists_append
      obtain ⟨name', hname, heq⟩ := ih hbefore
      obtain _ | ⟨_ | ⟨⟨⟩⟩⟩ := hafter
      exact ⟨_, .more hname, by rw [heq]⟩

theorem SignedNumber.respan {number : Spanned Int} (h : SignedNumber tokens number)
    (hsame : SameTokens tokens tokens') : ∃ there, SignedNumber tokens' ⟨number.node, there⟩ := by
  cases h with
  | plain =>
      obtain _ | ⟨⟨⟩⟩ := hsame
      exact ⟨_, .plain⟩
  | negative =>
      obtain _ | ⟨_ | ⟨⟨⟩⟩⟩ := hsame
      exact ⟨_, .negative⟩

theorem EnumValue.Spells.respan {value : Spanned EnumValue} (h : Spells tokens value)
    (hsame : SameTokens tokens tokens') :
    ∃ value', Spells tokens' value' ∧ value'.node.bare = value.node.bare := by
  cases h with
  | value hnumber =>
      obtain _ | ⟨_ | hrest⟩ := hsame
      obtain ⟨number, stop, rfl, hsameNumber, hstop⟩ := hrest.exists_append
      obtain ⟨there, hnumber⟩ := hnumber.respan hsameNumber
      obtain _ | ⟨⟨⟩⟩ := hstop
      exact ⟨_, .value hnumber, rfl⟩

theorem FieldHead.Spells.respan {head : FieldHead} (h : head.Spells tokens)
    (hsame : SameTokens tokens tokens') :
    ∃ head' : FieldHead, head'.Spells tokens' ∧ head'.cardinality = head.cardinality ∧
      head'.type.node.bare = head.type.node.bare := by
  cases h with
  | unlabelled =>
      obtain _ | ⟨⟨⟩⟩ := hsame
      exact ⟨_, .unlabelled, rfl, rfl⟩
  | labelled =>
      obtain _ | ⟨_ | ⟨⟨⟩⟩⟩ := hsame
      exact ⟨_, .labelled, rfl, rfl⟩
  | map =>
      obtain _ | ⟨_ | ⟨_ | ⟨_ | ⟨_ | ⟨_ | ⟨⟨⟩⟩⟩⟩⟩⟩⟩ := hsame
      exact ⟨_, .map, rfl, rfl⟩

theorem NumberedField.respan {start : Span} {field : Field}
    (h : NumberedField tokens start field) (hsame : SameTokens tokens tokens') :
    ∃ start' field', NumberedField tokens' start' field' ∧ field'.bare = field.bare := by
  cases h with
  | number hhead hpositive hlast =>
      obtain ⟨before, after, rfl, hbefore, hafter⟩ := hsame.exists_append
      obtain ⟨head', hhead, hcardinality, htype⟩ := hhead.respan hbefore
      obtain _ | ⟨_ | ⟨_ | ⟨⟨⟩⟩⟩⟩ := hafter
      refine ⟨_, _, .number hhead hpositive hlast, ?_⟩
      simp only [Field.bare, hcardinality, htype]

theorem PackedOption.respan {packed : Option (Spanned Bool)} (h : PackedOption tokens packed)
    (hsame : SameTokens tokens tokens') :
    ∃ packed', PackedOption tokens' packed' ∧ packed'.map (·.node) = packed.map (·.node) := by
  cases h with
  | absent =>
      obtain ⟨⟩ := hsame
      exact ⟨_, .absent, rfl⟩
  | present =>
      rcases hsame with _ | ⟨_ | ⟨_ | ⟨_ | ⟨_ | ⟨⟨⟩⟩⟩⟩⟩⟩
      exact ⟨_, .present, rfl⟩

theorem Field.Spells.respan {field : Spanned Field} (h : Spells tokens field)
    (hsame : SameTokens tokens tokens') :
    ∃ field', Spells tokens' field' ∧ field'.node.bare = field.node.bare := by
  cases h with
  | field hfield hoption =>
      obtain ⟨before, after, rfl, hbefore, hafter⟩ := hsame.exists_append
      obtain ⟨option, stop, rfl, hsameOption, hstop⟩ := hafter.exists_append
      obtain ⟨start', field', hfield, hbare⟩ := hfield.respan hbefore
      obtain ⟨packed', hoption, hpacked⟩ := hoption.respan hsameOption
      obtain _ | ⟨⟨⟩⟩ := hstop
      refine ⟨_, .field hfield hoption, ?_⟩
      simp only [bare, mk.injEq] at hbare ⊢
      obtain ⟨hname, htype, hnumber, hcardinality, -⟩ := hbare
      refine ⟨hname, htype, hnumber, hcardinality, ?_⟩
      have hmap := congrArg (Option.map Spanned.detached) hpacked
      rwa [Option.map_map, Option.map_map] at hmap

/-- Parts in sequence have other spans if each of them may have. -/
theorem InSequence.respan {α β : Type} {Spells : List (Spanned Token) → α → Prop} {bare : α → β}
    (hpart : ∀ part part' node, Spells part node → SameTokens part part' →
      ∃ node', Spells part' node' ∧ bare node' = bare node)
    {nodes : List α} (h : InSequence Spells tokens nodes) (hsame : SameTokens tokens tokens') :
    ∃ nodes', InSequence Spells tokens' nodes' ∧ nodes'.map bare = nodes.map bare := by
  obtain ⟨parts, rfl, hparts⟩ := h
  induction hparts generalizing tokens' with
  | nil =>
      obtain ⟨⟩ := hsame
      exact ⟨[], .nil, rfl⟩
  | cons hnode _ ih =>
      obtain ⟨part', rest, rfl, hsamePart, hrest⟩ := hsame.exists_append
      obtain ⟨node', hnode', hbare⟩ := hpart _ _ _ hnode hsamePart
      obtain ⟨nodes', hnodes', heq⟩ := ih hrest
      refine ⟨node' :: nodes', .cons hnode' hnodes', ?_⟩
      rw [List.map_cons, List.map_cons, hbare, heq]

theorem EnumDraft.Spells.respan {draft : EnumDraft} (h : draft.Spells tokens)
    (hsame : SameTokens tokens tokens') : ∃ draft' : EnumDraft, draft'.Spells tokens' ∧
      EnumDecl.bare ⟨draft'.name, draft'.values⟩ = EnumDecl.bare ⟨draft.name, draft.values⟩ := by
  have hvalue : ∀ part part' value, EnumValue.Spells part value → SameTokens part part' →
      ∃ value', EnumValue.Spells part' value' ∧
        Spanned.detached value'.node.bare = Spanned.detached value.node.bare := by
    intro part part' value hvalue hsamePart
    obtain ⟨value', hvalue', hbare⟩ := hvalue.respan hsamePart
    exact ⟨value', hvalue', congrArg _ hbare⟩
  cases h with
  | values hvalues =>
      obtain _ | ⟨_ | ⟨_ | hrest⟩⟩ := hsame
      obtain ⟨values', hvalues', heq⟩ := hvalues.respan hvalue hrest
      exact ⟨_, .values hvalues', by simp only [EnumDecl.bare, heq]⟩

theorem MessageDraft.Spells.respan {draft : MessageDraft} (h : draft.Spells tokens)
    (hsame : SameTokens tokens tokens') : ∃ draft' : MessageDraft, draft'.Spells tokens' ∧
      MessageDecl.bare ⟨draft'.name, draft'.fields⟩ =
        MessageDecl.bare ⟨draft.name, draft.fields⟩ := by
  have hfield : ∀ part part' field, Field.Spells part field → SameTokens part part' →
      ∃ field', Field.Spells part' field' ∧
        Spanned.detached field'.node.bare = Spanned.detached field.node.bare := by
    intro part part' field hfield hsamePart
    obtain ⟨field', hfield', hbare⟩ := hfield.respan hsamePart
    exact ⟨field', hfield', congrArg _ hbare⟩
  cases h with
  | fields hfields =>
      obtain _ | ⟨_ | ⟨_ | hrest⟩⟩ := hsame
      obtain ⟨fields', hfields', heq⟩ := hfields.respan hfield hrest
      exact ⟨_, .fields hfields', by simp only [MessageDecl.bare, heq]⟩

theorem SchemaItem.Spells.respan {item : SchemaItem} (h : item.Spells tokens)
    (hsame : SameTokens tokens tokens') :
    ∃ item' : SchemaItem, item'.Spells tokens' ∧ item'.bare = item.bare := by
  cases h with
  | version htext =>
      obtain _ | ⟨_ | ⟨_ | ⟨_ | ⟨⟨⟩⟩⟩⟩⟩ := hsame
      exact ⟨_, .version htext, rfl⟩
  | package hname =>
      obtain _ | hrest := hsame
      obtain ⟨before, stop, rfl, hbefore, hstop⟩ := hrest.exists_append
      obtain ⟨name', hname, heq⟩ := hname.respan hbefore
      obtain _ | ⟨⟨⟩⟩ := hstop
      exact ⟨_, .package hname, by simp only [bare, heq]⟩
  | enum hdraft =>
      obtain ⟨before, stop, rfl, hbefore, hstop⟩ := hsame.exists_append
      obtain ⟨draft', hdraft, heq⟩ := hdraft.respan hbefore
      obtain _ | ⟨⟨⟩⟩ := hstop
      exact ⟨_, .enum hdraft, by simp only [bare, heq]⟩
  | message hdraft =>
      obtain ⟨before, stop, rfl, hbefore, hstop⟩ := hsame.exists_append
      obtain ⟨draft', hdraft, heq⟩ := hdraft.respan hbefore
      obtain _ | ⟨⟨⟩⟩ := hstop
      exact ⟨_, .message hdraft, by simp only [bare, heq]⟩

/-- Tokens with other spans spell a schema with other spans. -/
theorem Schema.Spells.respan {schema : Schema} (h : schema.Spells tokens)
    (hsame : SameTokens tokens tokens') :
    ∃ schema' : Schema, schema'.Spells tokens' ∧ schema'.bare = schema.bare := by
  obtain ⟨items, hitems, rfl⟩ := h
  obtain ⟨items', hitems', heq⟩ := hitems.respan
    (fun _ _ _ hitem hsamePart => hitem.respan hsamePart) hsame
  exact ⟨_, ⟨items', hitems', rfl⟩, by rw [bare_ofItems, bare_ofItems, heq]⟩

end SameTokens

/-! ## The check -/

def CheckError.bare : CheckError → CheckError
  | undefinedType name _ => .undefinedType name .detached
  | invalidMapKey key => .invalidMapKey (.detached key.node)
  | packedMap message field _ => .packedMap message field .detached
  | packedSingular message field _ => .packedSingular message field .detached
  | packedUnpackable message field _ _ => .packedUnpackable message field .detached .detached
  | entryNameTaken message field entry _ =>
    .entryNameTaken message (.detached field.node) entry .detached

section Check

variable {index : TypeIndex}

theorem errorsOf_resolve_bare (name : String) (span : Span) :
    errorsOf (index.resolve name .detached) =
      (errorsOf (index.resolve name span)).map CheckError.bare := by
  unfold TypeIndex.resolve
  cases index.find? name <;> rfl

theorem checkMapKey_bare (key : Spanned String) :
    checkMapKey index (.detached key.node) = (checkMapKey index key).map CheckError.bare := by
  unfold checkMapKey TypeIndex.resolve
  dsimp only [Spanned.detached]
  cases index.find? key.node with
  | none => rfl
  | some type =>
      cases type with
      | scalar type => cases hkey : type.isMapKey <;> simp [hkey, CheckError.bare, Spanned.detached]
      | enum name | message name => rfl

theorem checkType_bare (field : Field) :
    checkType index field.bare = (checkType index field).map CheckError.bare := by
  unfold checkType
  dsimp only [Field.bare, Spanned.detached]
  cases field.type.node with
  | named name => exact errorsOf_resolve_bare name _
  | map key value =>
      rw [List.map_append]
      exact congrArg₂ _ (checkMapKey_bare key) (errorsOf_resolve_bare _ _)

theorem checkPacked_bare (message : String) (field : Field) :
    checkPacked index message field.bare =
      (checkPacked index message field).map CheckError.bare := by
  unfold checkPacked
  dsimp only [Field.bare, Spanned.detached]
  rcases field.packed with _ | ⟨_ | _, span⟩
  · rfl
  · rfl
  · cases field.type.node with
    | map key value => rfl
    | named name =>
        by_cases hrepeated : field.cardinality = .repeated
        · cases hfind : index.find? name with
          | none => simp [FieldType.bare, hrepeated, hfind]
          | some type =>
              cases hpackable : type.packable <;>
                simp [FieldType.bare, hrepeated, hfind, hpackable, CheckError.bare]
        · simp [FieldType.bare, hrepeated, CheckError.bare]

theorem checkField_bare (message : String) (field : Field) :
    checkField index message field.bare = (checkField index message field).map CheckError.bare := by
  rw [checkField, checkField, List.map_append, checkType_bare, checkPacked_bare]

theorem checkEntryNames_bare (taken : TakenNames) (fields : List (String × Spanned String)) :
    checkEntryNames (taken.map fun name => (name.1, .detached))
        (fields.map fun field => (field.1, .detached field.2.node)) =
      (checkEntryNames taken fields).map CheckError.bare := by
  induction fields generalizing taken with
  | nil => rfl
  | cons field rest ih =>
      obtain ⟨message, field⟩ := field
      simp only [List.map_cons, checkEntryNames, List.find?_map, Function.comp_def]
      dsimp only [Spanned.detached]
      cases taken.find? (·.1 == flatName (entryName message field.node)) with
      | none =>
          have hrest := ih (taken ++ [(flatName (entryName message field.node), field.span)])
          rw [List.map_append] at hrest
          exact hrest
      | some name => exact congrArg (List.cons _) (ih taken)

end Check

theorem Schema.ofSchema_bare (schema : Schema) :
    TypeIndex.ofSchema schema.bare = .ofSchema schema := by
  simp [TypeIndex.ofSchema, bare, Function.comp_def, Spanned.detached, MessageDecl.bare,
    EnumDecl.bare]

theorem Field.isMap_bare (field : Field) : field.bare.isMap = field.isMap := by
  unfold isMap
  dsimp only [bare, Spanned.detached]
  cases field.type.node <;> rfl

theorem Schema.declaredNames_bare (schema : Schema) :
    schema.bare.declaredNames = schema.declaredNames.map fun name => (name.1, .detached) := by
  simp [declaredNames, bare, Function.comp_def, Spanned.detached, MessageDecl.bare, EnumDecl.bare]

theorem Schema.mapFields_bare (schema : Schema) : schema.bare.mapFields =
    schema.mapFields.map fun field => (field.1, .detached field.2.node) := by
  have hname : ∀ field : Field, field.bare.name = .detached field.name.node := fun _ => rfl
  simp [mapFields, bare, List.flatMap_map, List.map_flatMap, List.filter_map, Function.comp_def,
    Spanned.detached, MessageDecl.bare, Field.isMap_bare, hname]

/-- The check finds the same faults with a schema wherever its parts stand. -/
theorem Schema.check_bare (schema : Schema) :
    schema.bare.check = schema.check.map CheckError.bare := by
  unfold check
  rw [ofSchema_bare, declaredNames_bare, mapFields_bare, List.map_append, checkEntryNames_bare]
  refine congrArg (· ++ _) ?_
  simp only [bare, List.flatMap_map, List.map_flatMap, Spanned.detached, MessageDecl.bare,
    checkField_bare]

/-- The check accepts a schema wherever its parts stand. -/
theorem Schema.check_eq_nil_of_bare {schema schema' : Schema} (h : schema'.bare = schema.bare)
    (hcheck : schema.check = []) : schema'.check = [] := by
  have hmap : schema'.check.map CheckError.bare = [] := by
    rw [← check_bare, h, check_bare, hcheck, List.map_nil]
  exact List.map_eq_nil_iff.mp hmap

end WireCodec
