import WireCodec.Proofs.Schema.Parsing
import WireCodec.Proofs.Schema.SourceText

/-! # Names in source texts

Whatever a source text declares has an identifier as its name. The lexer makes
names of identifiers only, and the productions take every name from a token.
-/

namespace WireCodec

/-- An enum and its values are named by identifiers. -/
structure EnumDecl.HasIdentifiers (decl : EnumDecl) : Prop where
  name : IsIdentifier decl.name.node.toList
  values : ∀ value ∈ decl.values, IsIdentifier value.node.name.node.toList

/-- A message and its fields are named by identifiers. -/
structure MessageDecl.HasIdentifiers (decl : MessageDecl) : Prop where
  name : IsIdentifier decl.name.node.toList
  fields : ∀ field ∈ decl.fields, IsIdentifier field.node.name.node.toList

theorem distinct_of_lexes {offset : Nat} {text : List Char} {tokens : List (Spanned Token)}
    (h : Lexes offset text tokens) : ∀ token ∈ tokens, token.node.Distinct := by
  induction h with
  | done | lastComment => simp
  | trivia _ _ ih => exact ih
  | token hdistinct _ _ ih => exact List.forall_mem_cons.mpr ⟨hdistinct, ih⟩

section Spelled

variable {tokens : List (Spanned Token)} (hdistinct : ∀ token ∈ tokens, token.node.Distinct)
include hdistinct

theorem EnumValue.Spells.name {value : Spanned EnumValue} (h : EnumValue.Spells tokens value) :
    IsIdentifier value.node.name.node.toList := by
  cases h with
  | value => exact (hdistinct _ List.mem_cons_self).1

theorem Field.Spells.name {field : Spanned Field} (h : Field.Spells tokens field) :
    IsIdentifier field.node.name.node.toList := by
  cases h with
  | field hfield =>
      cases hfield with
      | number =>
          exact (hdistinct _
            (List.mem_append_left _ (List.mem_append_right _ List.mem_cons_self))).1

theorem EnumDraft.Spells.hasIdentifiers {draft : EnumDraft} (h : draft.Spells tokens) :
    EnumDecl.HasIdentifiers ⟨draft.name, draft.values⟩ := by
  cases h with
  | values hvalues =>
      refine ⟨(hdistinct _ (List.mem_cons_of_mem _ List.mem_cons_self)).1, fun value hvalue => ?_⟩
      obtain ⟨part, hspells, hsub⟩ := hvalues.exists_part hvalue
      exact hspells.name fun token htoken => hdistinct token (by simp [hsub.subset htoken])

theorem MessageDraft.Spells.hasIdentifiers {draft : MessageDraft} (h : draft.Spells tokens) :
    MessageDecl.HasIdentifiers ⟨draft.name, draft.fields⟩ := by
  cases h with
  | fields hfields =>
      refine ⟨(hdistinct _ (List.mem_cons_of_mem _ List.mem_cons_self)).1, fun field hfield => ?_⟩
      obtain ⟨part, hspells, hsub⟩ := hfields.exists_part hfield
      exact hspells.name fun token htoken => hdistinct token (by simp [hsub.subset htoken])

end Spelled

/-- All names that a source text declares are identifiers. -/
theorem hasIdentifiers_of_parse {source : String} {schema : Schema}
    (h : parse source = .ok schema) : (∀ decl ∈ schema.enums, decl.node.HasIdentifiers) ∧
      ∀ decl ∈ schema.messages, decl.node.HasIdentifiers := by
  obtain ⟨tokens, hlexes, items, hitems, rfl⟩ := exists_lexes_of_parse h
  have hdistinct := distinct_of_lexes hlexes
  constructor
  · intro decl hdecl
    obtain ⟨item, hitem, hkind⟩ := List.mem_filterMap.mp hdecl
    obtain ⟨part, hspells, hsub⟩ := hitems.exists_part hitem
    cases hspells with
    | enum hdraft =>
        cases hkind
        exact hdraft.hasIdentifiers fun token htoken =>
          hdistinct token (hsub.subset (List.mem_append_left _ htoken))
    | version | package | message => cases hkind
  · intro decl hdecl
    obtain ⟨item, hitem, hkind⟩ := List.mem_filterMap.mp hdecl
    obtain ⟨part, hspells, hsub⟩ := hitems.exists_part hitem
    cases hspells with
    | message hdraft =>
        cases hkind
        exact hdraft.hasIdentifiers fun token htoken =>
          hdistinct token (hsub.subset (List.mem_append_left _ htoken))
    | version | package | enum => cases hkind

namespace Schema

variable {schema : Schema}

/-- A schema that can be spelled has words for the names of everything it declares. -/
structure HasWords (schema : Schema) : Prop where
  messages : ∀ decl ∈ schema.messages, IsWord decl.node.name.node
  fields : ∀ decl ∈ schema.messages, ∀ field ∈ decl.node.fields, IsWord field.node.name.node
  enums : ∀ decl ∈ schema.enums, IsWord decl.node.name.node
  values : ∀ decl ∈ schema.enums, ∀ value ∈ decl.node.values, IsWord value.node.name.node

theorem hasWords_of_compile {source : String} (h : compile source = .ok schema) :
    schema.HasWords := by
  obtain ⟨hparse, -⟩ := compile_eq_ok.mp h
  obtain ⟨henums, hmessages⟩ := hasIdentifiers_of_parse hparse
  exact ⟨fun decl hdecl => (hmessages decl hdecl).name.parts,
    fun decl hdecl field hfield => ((hmessages decl hdecl).fields field hfield).parts,
    fun decl hdecl => (henums decl hdecl).name.parts,
    fun decl hdecl value hvalue => ((henums decl hdecl).values value hvalue).parts⟩

end Schema

end WireCodec
