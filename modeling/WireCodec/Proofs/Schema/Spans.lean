import WireCodec.Proofs.Schema.Parsing
import WireCodec.Proofs.Schema.TokenSpans

/-! # Spans of schemas

Every part of a schema that is parsed has a span of the source text, from the
first of the tokens that spell it to the last. A name marks itself, a
declaration contains its parts, and declarations stand one behind the other.
-/

namespace WireCodec

/-! ## Located parts -/

/-- The spans of the parts of a type. -/
def FieldType.parts : FieldType → List Span
  | named _ => []
  | map key value => [key.span, value.span]

/-- The spans of the parts of a field, those of its type included. -/
def Field.parts (field : Field) : List Span :=
  field.name.span :: field.number.span :: field.type.span ::
    (field.type.node.parts ++ field.packed.toList.map (·.span))

variable (source : String)

/-- A value contains its name and its number. -/
structure EnumValue.Located (value : Spanned EnumValue) : Prop where
  within : value.span.Within source
  name : value.node.name.span.Marks source value.node.name.node
  number : value.node.number.span.Within source
  parts : ∀ part ∈ [value.node.name.span, value.node.number.span], value.span.Contains part

/-- A plain type marks its name, and a map type has marks on its key and value. -/
inductive FieldType.Located : Spanned FieldType → Prop
  | named {name : String} {here : Span} (hname : here.Marks source name) :
      Located ⟨.named name, here⟩
  | map {key value : Spanned String} {here : Span} (hwithin : here.Within source)
      (hkey : key.span.Marks source key.node) (hvalue : value.span.Marks source value.node) :
      Located ⟨.map key value, here⟩

/-- A field contains all its parts, and its name and its numeral are marked. -/
structure Field.Located (field : Spanned Field) : Prop where
  within : field.span.Within source
  name : field.node.name.span.Marks source field.node.name.node
  type : FieldType.Located source field.node.type
  number : field.node.number.span.Marks source (toString field.node.number.node.toNat)
  packed : ∀ flag ∈ field.node.packed, flag.span.Marks source (toString flag.node)
  parts : ∀ part ∈ field.node.parts, field.span.Contains part

/-- A declaration contains its name and its members, which are one behind the
other. -/
structure Declared {α : Type} (Located : Spanned α → Prop) (name : Spanned String)
    (members : List (Spanned α)) (span : Span) : Prop where
  within : span.Within source
  named : name.span.Marks source name.node
  each : ∀ member ∈ members, Located member
  parts : ∀ part ∈ name.span :: members.map (·.span), span.Contains part
  ordered : members.Pairwise fun first second => first.span.Before second.span

def EnumDecl.Located (decl : Spanned EnumDecl) : Prop :=
  Declared source (EnumValue.Located source) decl.node.name decl.node.values decl.span

def MessageDecl.Located (decl : Spanned MessageDecl) : Prop :=
  Declared source (Field.Located source) decl.node.name decl.node.fields decl.span

/-- All spans of a schema are where its parts stand in a source text. Enums
follow one another, and messages do; an enum and a message are apart. -/
structure Schema.Located (schema : Schema) : Prop where
  package : ∀ name ∈ schema.package, name.span.Within source
  enums : ∀ decl ∈ schema.enums, EnumDecl.Located source decl
  messages : ∀ decl ∈ schema.messages, MessageDecl.Located source decl
  enumsOrdered : schema.enums.Pairwise fun first second => first.span.Before second.span
  messagesOrdered : schema.messages.Pairwise fun first second => first.span.Before second.span
  apart : ∀ enum ∈ schema.enums, ∀ message ∈ schema.messages,
    enum.span.Before message.span ∨ message.span.Before enum.span

variable {source}

/-! ## Spans of token lists -/

/-- A span begins where the first of some tokens does. -/
def Starts (tokens : List (Spanned Token)) (span : Span) : Prop :=
  ∃ first ∈ tokens.head?, span.start = first.span.start

/-- A span reaches from the first of some tokens to the last. -/
def Covers (tokens : List (Spanned Token)) (span : Span) : Prop :=
  ∃ first ∈ tokens.head?, ∃ last ∈ tokens.getLast?, span = first.span.to last.span

/-- A span reaches over some of the tokens. -/
def Covered (tokens : List (Spanned Token)) (span : Span) : Prop :=
  ∃ part, part.Sublist tokens ∧ Covers part span

section Covers

variable {tokens part part' : List (Spanned Token)} {whole span span' : Span}

theorem starts_cons (first : Spanned Token) (rest : List (Spanned Token)) :
    Starts (first :: rest) first.span :=
  ⟨first, rfl, rfl⟩

theorem Starts.append (h : Starts tokens span) (rest : List (Spanned Token)) :
    Starts (tokens ++ rest) span := by
  obtain ⟨first, hfirst, hspan⟩ := h
  exact ⟨first, by simp [List.head?_append, Option.mem_def.mp hfirst], hspan⟩

/-- The span up to the end of a token behind some more tokens. -/
theorem Starts.covers (h : Starts tokens span) (rest : List (Spanned Token))
    (last : Spanned Token) : Covers (tokens ++ (rest ++ [last])) (span.to last.span) := by
  obtain ⟨first, hfirst, hspan⟩ := h.append (rest ++ [last])
  refine ⟨first, hfirst, last, by simp, ?_⟩
  rw [Span.to, hspan]
  rfl

theorem Covers.starts (h : Covers tokens span) : Starts tokens span := by
  obtain ⟨first, hfirst, last, -, rfl⟩ := h
  exact ⟨first, hfirst, rfl⟩

theorem covers_singleton (token : Spanned Token) : Covers [token] token.span :=
  ⟨token, rfl, token, rfl, rfl⟩

theorem covered_of_mem {token : Spanned Token} (h : token ∈ tokens) : Covered tokens token.span :=
  ⟨[token], List.singleton_sublist.mpr h, covers_singleton token⟩

theorem Covers.covered (h : Covers part span) (hpart : part.Sublist tokens) :
    Covered tokens span :=
  ⟨part, hpart, h⟩

theorem Covered.sublist (h : Covered part span) (hpart : part.Sublist tokens) :
    Covered tokens span := by
  obtain ⟨some, hsome, hcovers⟩ := h
  exact ⟨some, hsome.trans hpart, hcovers⟩

theorem StandIn.contains_token (h : StandIn source tokens) (hwhole : Covers tokens whole)
    {token : Spanned Token} (htoken : token ∈ tokens) : whole.Contains token.span := by
  obtain ⟨first, hfirst, last, hlast, rfl⟩ := hwhole
  have hlt : token.span.start < token.span.stop := (h.marks token htoken).lt
  constructor
  · obtain ⟨rest, rfl⟩ := List.head?_eq_some_iff.mp hfirst
    rcases List.mem_cons.mp htoken with rfl | hrest
    · exact Nat.le_refl _
    · have hbefore : first.span.stop ≤ token.span.start := List.rel_of_pairwise_cons h.ordered hrest
      have hfirstLt := (h.marks first List.mem_cons_self).lt
      change first.span.start ≤ _
      omega
  · obtain ⟨init, rfl⟩ := List.getLast?_eq_some_iff.mp hlast
    rcases List.mem_append.mp htoken with hinit | hsame
    · have hbefore : token.span.stop ≤ last.span.start :=
        (List.pairwise_append.mp h.ordered).2.2 token hinit last List.mem_cons_self
      have hlastLt := (h.marks last (List.mem_append_right _ List.mem_cons_self)).lt
      change _ ≤ last.span.stop
      omega
    · obtain rfl := List.mem_singleton.mp hsame
      exact Nat.le_refl _

/-- The span of all tokens contains that of some of them. -/
theorem StandIn.contains (h : StandIn source tokens) (hwhole : Covers tokens whole)
    (hpart : Covered tokens span) : whole.Contains span := by
  obtain ⟨part, hsublist, first, hfirst, last, hlast, rfl⟩ := hpart
  exact ⟨(h.contains_token hwhole (hsublist.subset (List.mem_of_head? hfirst))).1,
    (h.contains_token hwhole (hsublist.subset (List.mem_of_getLast? hlast))).2⟩

theorem StandIn.within (h : StandIn source tokens) (hcovered : Covered tokens span) :
    span.Within source := by
  -- the ends of the span are ends of tokens, and the first token is not empty
  obtain ⟨part, hsublist, hcovers⟩ := hcovered
  have hpart := h.sublist hsublist
  obtain ⟨first, hfirst, last, hlast, rfl⟩ := hcovers
  have hfirstWithin := (hpart.marks first (List.mem_of_head? hfirst)).toWithin
  have hlastWithin := (hpart.marks last (List.mem_of_getLast? hlast)).toWithin
  have hcontains :=
    hpart.contains_token ⟨first, hfirst, last, hlast, rfl⟩ (List.mem_of_head? hfirst)
  exact ⟨Nat.lt_of_lt_of_le hfirstWithin.lt hcontains.2, hlastWithin.le, hfirstWithin.start,
    hlastWithin.stop⟩

theorem Covers.before (h : Covers part span) (h' : Covers part' span')
    (hbefore : ∀ first ∈ part, ∀ second ∈ part', first.span.Before second.span) :
    span.Before span' := by
  obtain ⟨-, -, last, hlast, rfl⟩ := h
  obtain ⟨first, hfirst, -, -, rfl⟩ := h'
  exact hbefore last (List.mem_of_getLast? hlast) first (List.mem_of_head? hfirst)

end Covers

/-! ## Sequences -/

namespace InSequence

variable {α : Type} {Spells : List (Spanned Token) → α → Prop} {tokens : List (Spanned Token)}
  {nodes : List α}

/-- What holds of parts whose tokens stand one behind the other holds of the
parts of a sequence in their order. -/
theorem pairwise {R : α → α → Prop} (h : InSequence Spells tokens nodes)
    (hordered : tokens.Pairwise fun first second => first.span.Before second.span)
    (hR : ∀ part part' a b, Spells part a → Spells part' b →
      (∀ first ∈ part, ∀ second ∈ part', first.span.Before second.span) → R a b) :
    nodes.Pairwise R := by
  obtain ⟨parts, rfl, hparts⟩ := h
  induction hparts with
  | nil => exact .nil
  | @cons part node parts nodes hnode hrest ih =>
      rw [List.flatten_cons] at hordered
      obtain ⟨-, hrestOrdered, hbefore⟩ := List.pairwise_append.mp hordered
      refine .cons (fun other hother => ?_) (ih hrestOrdered)
      obtain ⟨part', hpart', hother⟩ := exists_mem_of_forall₂ hrest hother
      exact hR part part' node other hnode hother fun first hfirst second hsecond =>
        hbefore first hfirst second (List.mem_flatten_of_mem hpart' hsecond)

end InSequence

/-! ## Productions -/

section Productions

variable {tokens : List (Spanned Token)}

theorem DottedName.covers {name : Spanned String} (h : DottedName tokens name) :
    Covers tokens name.span := by
  induction h with
  | one => exact covers_singleton _
  | more _ ih => exact ih.starts.covers [_] _

theorem SignedNumber.covers {number : Spanned Int} (h : SignedNumber tokens number) :
    Covers tokens number.span := by
  cases h with
  | plain => exact covers_singleton _
  | negative => exact (starts_cons _ []).covers [] _

theorem EnumValue.Spells.covers {value : Spanned EnumValue} (h : Spells tokens value) :
    Covers tokens value.span := by
  cases h with
  | value => exact (starts_cons _ []).covers (_ :: _) _

theorem EnumValue.Spells.located {value : Spanned EnumValue} (h : Spells tokens value)
    (hstand : StandIn source tokens) : Located source value := by
  have hcovers := h.covers
  cases h with
  | @value name number digits here equals there stop hnumber =>
      have hdigits : Covered (⟨.ident name, here⟩ :: ⟨.mark .equals, equals⟩ ::
          (digits ++ [⟨.mark .semicolon, stop⟩])) there :=
        hnumber.covers.covered (((List.sublist_append_left _ _).cons _).cons _)
      refine ⟨hstand.within (hcovers.covered (.refl _)), hstand.marks _ List.mem_cons_self,
        hstand.within hdigits, ?_⟩
      rintro part (_ | ⟨_, _ | ⟨_, ⟨⟩⟩⟩)
      · exact hstand.contains_token hcovers List.mem_cons_self
      · exact hstand.contains hcovers hdigits

/-! ### Fields -/

theorem FieldHead.Spells.starts {head : FieldHead} (h : head.Spells tokens) :
    Starts tokens head.start := by
  cases h <;> exact starts_cons _ _

/-- The parts of the type of a field are spelled by tokens of its head. -/
theorem FieldHead.Spells.covered {head : FieldHead} (h : head.Spells tokens) :
    ∀ part ∈ head.type.span :: head.type.node.parts, Covered tokens part := by
  cases h with
  | unlabelled =>
      rintro part (_ | ⟨_, ⟨⟩⟩)
      exact covered_of_mem List.mem_cons_self
  | labelled =>
      rintro part (_ | ⟨_, ⟨⟩⟩)
      exact covered_of_mem (.tail _ (.head _))
  | map =>
      rintro part (_ | ⟨_, _ | ⟨_, _ | ⟨_, ⟨⟩⟩⟩⟩)
      · exact ((starts_cons _ []).covers [_, _, _, _] _).covered (.refl _)
      · exact covered_of_mem (.tail _ (.tail _ (.head _)))
      · exact covered_of_mem (.tail _ (.tail _ (.tail _ (.tail _ (.head _)))))

theorem FieldHead.Spells.located {head : FieldHead} (h : head.Spells tokens)
    (hstand : StandIn source tokens) : FieldType.Located source head.type := by
  have hwithin := hstand.within (h.covered _ List.mem_cons_self)
  cases h with
  | @unlabelled type here => exact .named (hstand.marks ⟨.ident type, here⟩ (.head _))
  | @labelled _ type _ here => exact .named (hstand.marks ⟨.ident type, here⟩ (.tail _ (.head _)))
  | @map key value _ _ here _ there =>
      have hkey := hstand.marks ⟨.ident key, here⟩ (.tail _ (.tail _ (.head _)))
      have hvalue := hstand.marks ⟨.ident value, there⟩
        (.tail _ (.tail _ (.tail _ (.tail _ (.head _)))))
      exact .map hwithin hkey hvalue

theorem NumberedField.starts {start : Span} {field : Field} (h : NumberedField tokens start field) :
    Starts tokens start := by
  cases h with
  | number hhead => exact hhead.starts.append _

theorem NumberedField.covered {start : Span} {field : Field}
    (h : NumberedField tokens start field) : ∀ part ∈ field.parts, Covered tokens part := by
  cases h with
  | @number tokens head name number here equals there hhead =>
      have hlast : ∀ token ∈ [(⟨.ident name, here⟩ : Spanned Token), ⟨.mark .equals, equals⟩,
          ⟨.int number, there⟩], Covered (tokens ++ [⟨.ident name, here⟩,
            ⟨.mark .equals, equals⟩, ⟨.int number, there⟩]) token.span :=
        fun token htoken => covered_of_mem (List.mem_append_right _ htoken)
      have hname := hlast _ (.head _)
      have hnumber := hlast _ (.tail _ (.tail _ (.head _)))
      refine List.forall_mem_cons.mpr ⟨hname, List.forall_mem_cons.mpr ⟨hnumber, ?_⟩⟩
      intro part hpart
      rw [Option.toList_none, List.map_nil, List.append_nil] at hpart
      exact (hhead.covered part hpart).sublist (List.sublist_append_left _ _)

theorem NumberedField.located {start : Span} {field : Field} (h : NumberedField tokens start field)
    (hstand : StandIn source tokens) : field.name.span.Marks source field.name.node ∧
      FieldType.Located source field.type ∧
      field.number.span.Marks source (toString field.number.node.toNat) := by
  cases h with
  | @number tokens head name number here equals there hhead =>
      have hname := hstand.marks ⟨.ident name, here⟩ (List.mem_append_right _ (.head _))
      have hnumber := hstand.marks ⟨.int number, there⟩
        (List.mem_append_right _ (.tail _ (.tail _ (.head _))))
      exact ⟨hname, hhead.located (hstand.sublist (List.sublist_append_left _ _)), hnumber⟩

theorem PackedOption.covered {packed : Option (Spanned Bool)} (h : PackedOption tokens packed) :
    ∀ flag ∈ packed, Covered tokens flag.span := by
  cases h with
  | absent => exact fun _ hnone => nomatch hnone
  | present =>
      rintro flag ⟨⟩
      exact covered_of_mem (.tail _ (.tail _ (.tail _ (.head _))))

theorem PackedOption.located {packed : Option (Spanned Bool)} (h : PackedOption tokens packed)
    (hstand : StandIn source tokens) :
    ∀ flag ∈ packed, flag.span.Marks source (toString flag.node) := by
  cases h with
  | absent => exact fun _ hnone => nomatch hnone
  | @present flag _ _ _ here =>
      rintro flag ⟨⟩
      exact hstand.marks ⟨.ident (toString flag), here⟩ (.tail _ (.tail _ (.tail _ (.head _))))

theorem Field.Spells.covers {field : Spanned Field} (h : Spells tokens field) :
    Covers tokens field.span := by
  cases h with
  | field hfield => exact hfield.starts.covers _ _

theorem Field.Spells.located {field : Spanned Field} (h : Spells tokens field)
    (hstand : StandIn source tokens) : Located source field := by
  have hcovers := h.covers
  cases h with
  | @field tokens option start stop field packed hfield hoption =>
      have hleft : tokens.Sublist (tokens ++ (option ++ [⟨.mark .semicolon, stop⟩])) :=
        List.sublist_append_left _ _
      have hright : option.Sublist (tokens ++ (option ++ [⟨.mark .semicolon, stop⟩])) :=
        (List.sublist_append_left _ _).trans (List.sublist_append_right _ _)
      obtain ⟨hname, htype, hnumber⟩ := hfield.located (hstand.sublist hleft)
      have hparts : { field with packed }.parts = field.parts ++ packed.toList.map (·.span) := by
        simp [parts, hfield.packed_eq_none]
      refine ⟨hstand.within (hcovers.covered (.refl _)), hname, htype, hnumber,
        hoption.located (hstand.sublist hright), ?_⟩
      rw [hparts]
      intro part hpart
      rcases List.mem_append.mp hpart with hpart | hpart
      · exact hstand.contains hcovers ((hfield.covered part hpart).sublist hleft)
      · obtain ⟨flag, hflag, rfl⟩ := List.mem_map.mp hpart
        have hcovered := hoption.covered flag (Option.mem_toList.mp hflag)
        exact hstand.contains hcovers (hcovered.sublist hright)

/-! ### Declarations -/

/-- The members of a declaration stand between its braces. -/
theorem declared_of_sequence {α : Type} {Spells : List (Spanned Token) → Spanned α → Prop}
    {Located : Spanned α → Prop} {members : List (Spanned α)} {start name left stop : Spanned Token}
    {text : String}
    (hcovers : ∀ part member, Spells part member → Covers part member.span)
    (hlocated : ∀ part member, Spells part member → StandIn source part → Located member)
    (hmembers : InSequence Spells tokens members) (hname : name.node = .ident text)
    (hstand : StandIn source (start :: name :: left :: tokens ++ [stop])) :
    Declared source Located ⟨text, name.span⟩ members (start.span.to stop.span) := by
  have hwhole : Covers (start :: name :: left :: tokens ++ [stop]) (start.span.to stop.span) :=
    (starts_cons start (name :: left :: tokens)).covers [] stop
  have hrest : tokens.Sublist (start :: name :: left :: tokens ++ [stop]) :=
    (((List.sublist_append_left _ _).cons _).cons _).cons _
  have hmarks := hstand.marks name (.tail _ (.head _))
  rw [hname] at hmarks
  refine ⟨hstand.within (hwhole.covered (.refl _)), hmarks, ?_, ?_, ?_⟩
  · intro member hmember
    obtain ⟨part, hspells, hpart⟩ := hmembers.exists_part hmember
    exact hlocated part member hspells (hstand.sublist (hpart.trans hrest))
  · refine List.forall_mem_cons.mpr ⟨hstand.contains_token hwhole (.tail _ (.head _)), ?_⟩
    refine List.forall_mem_map.mpr fun member hmember => ?_
    obtain ⟨part, hspells, hpart⟩ := hmembers.exists_part hmember
    exact hstand.contains hwhole ((hcovers part member hspells).covered (hpart.trans hrest))
  · refine hmembers.pairwise (hstand.sublist hrest).ordered ?_
    exact fun part part' first second hfirst hsecond =>
      (hcovers part first hfirst).before (hcovers part' second hsecond)

theorem EnumDraft.Spells.starts {draft : EnumDraft} (h : draft.Spells tokens) :
    Starts tokens draft.start := by
  cases h with
  | values => exact starts_cons _ _

theorem EnumDraft.Spells.located {draft : EnumDraft} (h : draft.Spells tokens)
    {stop : Spanned Token} (hstand : StandIn source (tokens ++ [stop])) :
    EnumDecl.Located source ⟨⟨draft.name, draft.values⟩, draft.start.to stop.span⟩ := by
  cases h with
  | values hvalues =>
      exact declared_of_sequence (fun _ _ => EnumValue.Spells.covers)
        (fun _ _ => EnumValue.Spells.located) hvalues rfl hstand

theorem MessageDraft.Spells.starts {draft : MessageDraft} (h : draft.Spells tokens) :
    Starts tokens draft.start := by
  cases h with
  | fields => exact starts_cons _ _

theorem MessageDraft.Spells.located {draft : MessageDraft} (h : draft.Spells tokens)
    {stop : Spanned Token} (hstand : StandIn source (tokens ++ [stop])) :
    MessageDecl.Located source ⟨⟨draft.name, draft.fields⟩, draft.start.to stop.span⟩ := by
  cases h with
  | fields hfields =>
      exact declared_of_sequence (fun _ _ => Field.Spells.covers)
        (fun _ _ => Field.Spells.located) hfields rfl hstand

namespace SchemaItem

/-- The span of a declaration of a schema. -/
def span? : SchemaItem → Option Span
  | version | package _ => none
  | enum decl => some decl.span
  | message decl => some decl.span

/-- A declaration stands in front of another one. -/
def Before (item item' : SchemaItem) : Prop :=
  ∀ first ∈ item.span?, ∀ second ∈ item'.span?, first.Before second

variable {item item' : SchemaItem}

theorem Spells.covers (h : item.Spells tokens) : ∀ span ∈ item.span?, Covers tokens span := by
  cases h with
  | version | package => exact fun _ hnone => nomatch hnone
  | enum hdraft =>
      rintro _ ⟨⟩
      exact hdraft.starts.covers [] _
  | message hdraft =>
      rintro _ ⟨⟩
      exact hdraft.starts.covers [] _

theorem Spells.package_within (h : item.Spells tokens) (hstand : StandIn source tokens) :
    ∀ name ∈ item.package?, name.span.Within source := by
  cases h with
  | version | enum | message => exact fun _ hnone => nomatch hnone
  | package hname =>
      rintro _ ⟨⟩
      exact hstand.within (hname.covers.covered ((List.sublist_append_left _ _).cons _))

theorem Spells.enum_located (h : item.Spells tokens) (hstand : StandIn source tokens) :
    ∀ decl ∈ item.enum?, EnumDecl.Located source decl := by
  cases h with
  | version | package | message => exact fun _ hnone => nomatch hnone
  | enum hdraft =>
      rintro _ ⟨⟩
      exact hdraft.located hstand

theorem Spells.message_located (h : item.Spells tokens) (hstand : StandIn source tokens) :
    ∀ decl ∈ item.message?, MessageDecl.Located source decl := by
  cases h with
  | version | package | enum => exact fun _ hnone => nomatch hnone
  | message hdraft =>
      rintro _ ⟨⟩
      exact hdraft.located hstand

theorem span_mem_of_enum {decl : Spanned EnumDecl} (h : decl ∈ item.enum?) :
    decl.span ∈ item.span? := by
  cases item with
  | enum => cases h; rfl
  | version | package | message => cases h

theorem span_mem_of_message {decl : Spanned MessageDecl} (h : decl ∈ item.message?) :
    decl.span ∈ item.span? := by
  cases item with
  | message => cases h; rfl
  | version | package | enum => cases h

/-- Of an enum and a message, one is in front of the other. -/
theorem apart_of_ordered {items : List SchemaItem} (h : items.Pairwise Before)
    (hitem : item ∈ items) (hitem' : item' ∈ items) {enum : Spanned EnumDecl}
    {message : Spanned MessageDecl} (henum : enum ∈ item.enum?)
    (hmessage : message ∈ item'.message?) :
    enum.span.Before message.span ∨ message.span.Before enum.span := by
  have hspan := span_mem_of_enum henum
  have hspan' := span_mem_of_message hmessage
  have hne : item ≠ item' := by
    rintro rfl
    cases item with
    | enum => cases hmessage
    | version | package | message => cases henum
  -- the text may have an enum and a message in either order
  have hapart : ∀ item ∈ items, ∀ item' ∈ items, item ≠ item' →
      item.Before item' ∨ item'.Before item := by
    refine List.Pairwise.forall_of_forall_of_flip ?_ ?_ ?_
    · exact fun _ _ hself => absurd rfl hself
    · exact h.imp fun hbefore _ => .inl hbefore
    · exact h.imp fun hbefore _ => .inr hbefore
  exact (hapart item hitem item' hitem' hne).imp (· _ hspan _ hspan') (· _ hspan' _ hspan)

end SchemaItem

/-- Declarations stand where the tokens of a schema do. -/
theorem Schema.Spells.located {schema : Schema} (h : schema.Spells tokens)
    (hstand : StandIn source tokens) : schema.Located source := by
  obtain ⟨items, hitems, rfl⟩ := h
  have hordered : items.Pairwise SchemaItem.Before :=
    hitems.pairwise hstand.ordered fun _ _ _ _ hfirst hsecond hbefore first hspan second hspan' =>
      (hfirst.covers first hspan).before (hsecond.covers second hspan') hbefore
  have hpart : ∀ item ∈ items, ∃ part, item.Spells part ∧ StandIn source part := by
    intro item hitem
    obtain ⟨part, hspells, hsublist⟩ := hitems.exists_part hitem
    exact ⟨part, hspells, hstand.sublist hsublist⟩
  refine ⟨?_, ?_, ?_, ?_, ?_, ?_⟩
  · intro name hname
    obtain ⟨item, hitem, hpackage⟩ := List.mem_filterMap.mp (List.mem_of_getLast? hname)
    obtain ⟨part, hspells, hpartStand⟩ := hpart item hitem
    exact hspells.package_within hpartStand name hpackage
  · intro decl hdecl
    obtain ⟨item, hitem, henum⟩ := List.mem_filterMap.mp hdecl
    obtain ⟨part, hspells, hpartStand⟩ := hpart item hitem
    exact hspells.enum_located hpartStand decl henum
  · intro decl hdecl
    obtain ⟨item, hitem, hmessage⟩ := List.mem_filterMap.mp hdecl
    obtain ⟨part, hspells, hpartStand⟩ := hpart item hitem
    exact hspells.message_located hpartStand decl hmessage
  · refine List.pairwise_filterMap.mpr (hordered.imp ?_)
    exact fun hbefore first hfirst second hsecond =>
      hbefore _ (SchemaItem.span_mem_of_enum hfirst) _ (SchemaItem.span_mem_of_enum hsecond)
  · refine List.pairwise_filterMap.mpr (hordered.imp ?_)
    exact fun hbefore first hfirst second hsecond =>
      hbefore _ (SchemaItem.span_mem_of_message hfirst) _ (SchemaItem.span_mem_of_message hsecond)
  · intro enum henum message hmessage
    obtain ⟨item, hitem, henum⟩ := List.mem_filterMap.mp henum
    obtain ⟨item', hitem', hmessage⟩ := List.mem_filterMap.mp hmessage
    exact SchemaItem.apart_of_ordered hordered hitem hitem' henum hmessage

end Productions

/-! ## Parsed schemas -/

/-- All parts of a schema that is parsed have their places in the source text. -/
theorem located_of_parse {schema : Schema} (h : parse source = .ok schema) :
    schema.Located source := by
  obtain ⟨tokens, hlexes, hspells⟩ := exists_lexes_of_parse h
  exact hspells.located hlexes.standIn

/-! A quay, in a text that has more bytes than characters before its names. -/

def quaySource : String :=
  "// Größe\npackage port.quay; enum Side \x7b LEFT = - /* ← */ 1; \x7d " ++
    "message Quay \x7b map<string, Side> sides = 1; " ++
    "repeated int32 depths = 20 [packed = true]; \x7d"

theorem parse_quaySource : ∃ schema, parse quaySource = .ok schema ∧
    schema.enums.map (·.node.name) = [⟨"Side", 35, 39⟩] ∧
    schema.messages.map (·.node.name) = [⟨"Quay", 74, 78⟩] :=
  Except.exists_of_any (by decide +kernel)

theorem located_quay : ∃ schema, parse quaySource = .ok schema ∧
    schema.enums.map (·.node.name) = [⟨"Side", 35, 39⟩] ∧
    schema.messages.map (·.node.name) = [⟨"Quay", 74, 78⟩] ∧ schema.Located quaySource := by
  obtain ⟨schema, hparse, henums, hmessages⟩ := parse_quaySource
  exact ⟨schema, hparse, henums, hmessages, located_of_parse hparse⟩

end WireCodec
