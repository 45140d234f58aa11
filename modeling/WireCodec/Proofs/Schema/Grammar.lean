import WireCodec.Proofs.Lists
import WireCodec.Schema.Parser

/-! # The grammar of schemas

A schema is spelled by the tokens of its declarations, one declaration after
another. Each production relates tokens to the part of a schema that they
spell, with the spans of both.
-/

namespace WireCodec

/-! ## Productions -/

/-- Parts of a schema that are spelled one after another. -/
def InSequence {α : Type} (Spells : List (Spanned Token) → α → Prop) (tokens : List (Spanned Token))
    (nodes : List α) : Prop :=
  ∃ parts, parts.flatten = tokens ∧ List.Forall₂ Spells parts nodes

/-- Names with dots between them. -/
inductive DottedName : List (Spanned Token) → Spanned String → Prop
  | one {part : String} {here : Span} : DottedName [⟨.ident part, here⟩] ⟨part, here⟩
  | more {tokens : List (Spanned Token)} {name : Spanned String} {part : String} {dot here : Span}
      (hname : DottedName tokens name) :
      DottedName (tokens ++ [⟨.mark .dot, dot⟩, ⟨.ident part, here⟩])
        ⟨name.node ++ "." ++ part, name.span.to here⟩

/-- A number that may have a minus sign. -/
inductive SignedNumber : List (Spanned Token) → Spanned Int → Prop
  | plain {n : UInt32} {here : Span} : SignedNumber [⟨.int n, here⟩] ⟨n.toNat, here⟩
  | negative {n : UInt32} {minus here : Span} :
      SignedNumber [⟨.mark .minus, minus⟩, ⟨.int n, here⟩] ⟨-n.toNat, minus.to here⟩

/-- A value of an enum: its name, an equals sign and a number of 32 bits. -/
inductive EnumValue.Spells : List (Spanned Token) → Spanned EnumValue → Prop
  | value {name : String} {number : Int32} {tokens : List (Spanned Token)}
      {here equals there stop : Span} (hnumber : SignedNumber tokens ⟨number.toInt, there⟩) :
      Spells (⟨.ident name, here⟩ :: ⟨.mark .equals, equals⟩ ::
          (tokens ++ [⟨.mark .semicolon, stop⟩]))
        ⟨⟨⟨name, here⟩, ⟨number, there⟩⟩, here.to stop⟩

/-- The label of a field. -/
def Cardinality.keyword : Cardinality → Keyword
  | required => .required
  | optional => .optional
  | repeated => .repeated

/-- What stands before the name of a field. A field without a label is
optional, and a map is repeated. -/
inductive FieldHead.Spells : List (Spanned Token) → FieldHead → Prop
  | unlabelled {type : String} {here : Span} :
      Spells [⟨.ident type, here⟩] ⟨here, .optional, ⟨.named type, here⟩⟩
  | labelled {cardinality : Cardinality} {type : String} {start here : Span} :
      Spells [⟨.keyword cardinality.keyword, start⟩, ⟨.ident type, here⟩]
        ⟨start, cardinality, ⟨.named type, here⟩⟩
  | map {key value : String} {start left here comma there right : Span} :
      Spells [⟨.keyword .map, start⟩, ⟨.mark .openAngle, left⟩, ⟨.ident key, here⟩,
          ⟨.mark .comma, comma⟩, ⟨.ident value, there⟩, ⟨.mark .closeAngle, right⟩]
        ⟨start, .repeated, ⟨.map ⟨key, here⟩ ⟨value, there⟩, start.to right⟩⟩

/-- A field from its head to its number, which is one of 29 bits and not zero. -/
inductive NumberedField : List (Spanned Token) → Span → Field → Prop
  | number {tokens : List (Spanned Token)} {head : FieldHead} {name : String} {number : UInt32}
      {here equals there : Span} (hhead : head.Spells tokens) (hpositive : 1 ≤ number.toNat)
      (hlast : number.toNat ≤ maxFieldNumber) :
      NumberedField (tokens ++ [⟨.ident name, here⟩, ⟨.mark .equals, equals⟩, ⟨.int number, there⟩])
        head.start ⟨⟨name, here⟩, head.type, ⟨number, there⟩, head.cardinality, none⟩

/-- The option that says whether a field is packed. -/
inductive PackedOption : List (Spanned Token) → Option (Spanned Bool) → Prop
  | absent : PackedOption [] none
  | present {flag : Bool} {left name equals here right : Span} :
      PackedOption [⟨.mark .openBracket, left⟩, ⟨.ident "packed", name⟩, ⟨.mark .equals, equals⟩,
        ⟨.ident (toString flag), here⟩, ⟨.mark .closeBracket, right⟩] (some ⟨flag, here⟩)

inductive Field.Spells : List (Spanned Token) → Spanned Field → Prop
  | field {tokens option : List (Spanned Token)} {start stop : Span} {field : Field}
      {packed : Option (Spanned Bool)} (hfield : NumberedField tokens start field)
      (hoption : PackedOption option packed) :
      Spells (tokens ++ (option ++ [⟨.mark .semicolon, stop⟩]))
        ⟨{ field with packed }, start.to stop⟩

/-- An enum up to some value. -/
inductive EnumDraft.Spells : List (Spanned Token) → EnumDraft → Prop
  | values {tokens : List (Spanned Token)} {values : List (Spanned EnumValue)} {name : String}
      {start here left : Span} (hvalues : InSequence EnumValue.Spells tokens values) :
      Spells (⟨.keyword .enum, start⟩ :: ⟨.ident name, here⟩ :: ⟨.mark .openBrace, left⟩ :: tokens)
        ⟨start, ⟨name, here⟩, values⟩

/-- A message up to some field. -/
inductive MessageDraft.Spells : List (Spanned Token) → MessageDraft → Prop
  | fields {tokens : List (Spanned Token)} {fields : List (Spanned Field)} {name : String}
      {start here left : Span} (hfields : InSequence Field.Spells tokens fields) :
      Spells (⟨.keyword .message, start⟩ :: ⟨.ident name, here⟩ :: ⟨.mark .openBrace, left⟩ ::
          tokens)
        ⟨start, ⟨name, here⟩, fields⟩

/-- A declaration of a schema. -/
inductive SchemaItem where
  | version
  | package (name : Spanned String)
  | enum (decl : Spanned EnumDecl)
  | message (decl : Spanned MessageDecl)

inductive SchemaItem.Spells : List (Spanned Token) → SchemaItem → Prop
  | version {text : String} {start equals here stop : Span}
      (htext : text = "proto2" ∨ text = "proto3") :
      Spells [⟨.keyword .version, start⟩, ⟨.mark .equals, equals⟩, ⟨.text text, here⟩,
        ⟨.mark .semicolon, stop⟩] .version
  | package {tokens : List (Spanned Token)} {name : Spanned String} {start stop : Span}
      (hname : DottedName tokens name) :
      Spells (⟨.keyword .package, start⟩ :: (tokens ++ [⟨.mark .semicolon, stop⟩])) (.package name)
  | enum {tokens : List (Spanned Token)} {draft : EnumDraft} {stop : Span}
      (hdraft : draft.Spells tokens) :
      Spells (tokens ++ [⟨.mark .closeBrace, stop⟩])
        (.enum ⟨⟨draft.name, draft.values⟩, draft.start.to stop⟩)
  | message {tokens : List (Spanned Token)} {draft : MessageDraft} {stop : Span}
      (hdraft : draft.Spells tokens) :
      Spells (tokens ++ [⟨.mark .closeBrace, stop⟩])
        (.message ⟨⟨draft.name, draft.fields⟩, draft.start.to stop⟩)

namespace SchemaItem

def package? : SchemaItem → Option (Spanned String)
  | package name => some name
  | version | enum _ | message _ => none

def enum? : SchemaItem → Option (Spanned EnumDecl)
  | enum decl => some decl
  | version | package _ | message _ => none

def message? : SchemaItem → Option (Spanned MessageDecl)
  | message decl => some decl
  | version | package _ | enum _ => none

end SchemaItem

namespace Schema

/-- The schema of some declarations. It has the package that is named last. -/
def ofItems (items : List SchemaItem) : Schema :=
  ⟨(items.filterMap SchemaItem.package?).getLast?, items.filterMap SchemaItem.enum?,
    items.filterMap SchemaItem.message?⟩

/-- A schema with one more declaration. -/
def add (schema : Schema) : SchemaItem → Schema
  | .version => schema
  | .package name => { schema with package := some name }
  | .enum decl => { schema with enums := schema.enums ++ [decl] }
  | .message decl => { schema with messages := schema.messages ++ [decl] }

theorem ofItems_concat (items : List SchemaItem) (item : SchemaItem) :
    ofItems (items ++ [item]) = (ofItems items).add item := by
  cases item <;>
    simp [ofItems, add, SchemaItem.package?, SchemaItem.enum?, SchemaItem.message?]

/-- The tokens are those of the declarations of a schema. -/
def Spells (tokens : List (Spanned Token)) (schema : Schema) : Prop :=
  ∃ items, InSequence SchemaItem.Spells tokens items ∧ schema = ofItems items

end Schema

theorem NumberedField.packed_eq_none {tokens : List (Spanned Token)} {start : Span}
    {field : Field} (h : NumberedField tokens start field) : field.packed = none := by
  cases h
  rfl

theorem NumberedField.spells {tokens : List (Spanned Token)} {start stop : Span} {field : Field}
    (h : NumberedField tokens start field) :
    Field.Spells (tokens ++ [⟨.mark .semicolon, stop⟩]) ⟨field, start.to stop⟩ := by
  cases h with
  | number hhead hpositive hlast => exact .field (.number hhead hpositive hlast) .absent

/-! ## Sequences -/

namespace InSequence

variable {α : Type} {Spells : List (Spanned Token) → α → Prop} {tokens part : List (Spanned Token)}
  {nodes : List α} {node : α}

theorem nil : InSequence Spells [] [] := ⟨[], rfl, .nil⟩

theorem cons (hpart : Spells part node) (h : InSequence Spells tokens nodes) :
    InSequence Spells (part ++ tokens) (node :: nodes) := by
  obtain ⟨parts, rfl, hparts⟩ := h
  exact ⟨part :: parts, rfl, .cons hpart hparts⟩

theorem concat (h : InSequence Spells tokens nodes) (hpart : Spells part node) :
    InSequence Spells (tokens ++ part) (nodes ++ [node]) := by
  obtain ⟨parts, rfl, hparts⟩ := h
  refine ⟨parts ++ [part], by simp, ?_⟩
  exact List.rel_append hparts (.cons hpart .nil)

/-- Each part of a sequence is spelled by some of its tokens. -/
theorem exists_part (h : InSequence Spells tokens nodes) (hnode : node ∈ nodes) :
    ∃ part, Spells part node ∧ part.Sublist tokens := by
  obtain ⟨parts, rfl, hparts⟩ := h
  obtain ⟨part, hpart, hspells⟩ := exists_mem_of_forall₂ hparts hnode
  exact ⟨part, hspells, List.sublist_flatten_of_mem hpart⟩

end InSequence

end WireCodec
