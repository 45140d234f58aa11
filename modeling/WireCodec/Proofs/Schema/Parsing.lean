import WireCodec.Proofs.Outcome
import WireCodec.Proofs.Schema.Grammar
import WireCodec.Proofs.Schema.Lexical

/-! # Parsing source texts

At each position the parser has read the first tokens of some production. It
comes to the end of all tokens between two declarations if and only if they
spell a schema, and then it has read that schema.
-/

namespace WireCodec

/-- The tokens of a declaration up to a position. -/
inductive ParsePosition.Spells : List (Spanned Token) → ParsePosition → Prop
  | item : Spells [] .item
  | versionEquals {start : Span} : Spells [⟨.keyword .version, start⟩] (.versionEquals start)
  | versionText {start equals : Span} :
      Spells [⟨.keyword .version, start⟩, ⟨.mark .equals, equals⟩] (.versionText start)
  | versionEnd {text : String} {start equals here : Span}
      (htext : text = "proto2" ∨ text = "proto3") :
      Spells [⟨.keyword .version, start⟩, ⟨.mark .equals, equals⟩, ⟨.text text, here⟩] .versionEnd
  | packageFirst {start : Span} : Spells [⟨.keyword .package, start⟩] (.packagePart none)
  | packagePart {tokens : List (Spanned Token)} {name : Spanned String} {start dot : Span}
      (hname : DottedName tokens name) :
      Spells (⟨.keyword .package, start⟩ :: (tokens ++ [⟨.mark .dot, dot⟩]))
        (.packagePart (some name))
  | packageNext {tokens : List (Spanned Token)} {name : Spanned String} {start : Span}
      (hname : DottedName tokens name) :
      Spells (⟨.keyword .package, start⟩ :: tokens) (.packageNext name)
  | enumName {start : Span} : Spells [⟨.keyword .enum, start⟩] (.enumName start)
  | enumOpen {name : String} {start here : Span} :
      Spells [⟨.keyword .enum, start⟩, ⟨.ident name, here⟩] (.enumOpen start ⟨name, here⟩)
  | enumBody {tokens : List (Spanned Token)} {draft : EnumDraft} (hdraft : draft.Spells tokens) :
      Spells tokens (.enumBody draft)
  | valueEquals {tokens : List (Spanned Token)} {draft : EnumDraft} {name : String} {here : Span}
      (hdraft : draft.Spells tokens) :
      Spells (tokens ++ [⟨.ident name, here⟩]) (.valueEquals draft ⟨name, here⟩)
  | valueNumber {tokens : List (Spanned Token)} {draft : EnumDraft} {name : String}
      {here equals : Span} (hdraft : draft.Spells tokens) :
      Spells (tokens ++ [⟨.ident name, here⟩, ⟨.mark .equals, equals⟩])
        (.valueNumber draft ⟨name, here⟩)
  | valueNegative {tokens : List (Spanned Token)} {draft : EnumDraft} {name : String}
      {here equals minus : Span} (hdraft : draft.Spells tokens) :
      Spells (tokens ++ [⟨.ident name, here⟩, ⟨.mark .equals, equals⟩, ⟨.mark .minus, minus⟩])
        (.valueNegative draft ⟨name, here⟩ minus)
  | valueEnd {tokens numberTokens : List (Spanned Token)} {draft : EnumDraft} {name : String}
      {number : Int32} {here equals there : Span} (hdraft : draft.Spells tokens)
      (hnumber : SignedNumber numberTokens ⟨number.toInt, there⟩) :
      Spells (tokens ++ ⟨.ident name, here⟩ :: ⟨.mark .equals, equals⟩ :: numberTokens)
        (.valueEnd draft ⟨⟨name, here⟩, ⟨number, there⟩⟩)
  | messageName {start : Span} : Spells [⟨.keyword .message, start⟩] (.messageName start)
  | messageOpen {name : String} {start here : Span} :
      Spells [⟨.keyword .message, start⟩, ⟨.ident name, here⟩] (.messageOpen start ⟨name, here⟩)
  | messageBody {tokens : List (Spanned Token)} {draft : MessageDraft}
      (hdraft : draft.Spells tokens) : Spells tokens (.messageBody draft)
  | mapOpen {tokens : List (Spanned Token)} {draft : MessageDraft} {start : Span}
      (hdraft : draft.Spells tokens) :
      Spells (tokens ++ [⟨.keyword .map, start⟩]) (.mapOpen draft start)
  | mapKey {tokens : List (Spanned Token)} {draft : MessageDraft} {start left : Span}
      (hdraft : draft.Spells tokens) :
      Spells (tokens ++ [⟨.keyword .map, start⟩, ⟨.mark .openAngle, left⟩]) (.mapKey draft start)
  | mapComma {tokens : List (Spanned Token)} {draft : MessageDraft} {key : String}
      {start left here : Span} (hdraft : draft.Spells tokens) :
      Spells (tokens ++ [⟨.keyword .map, start⟩, ⟨.mark .openAngle, left⟩, ⟨.ident key, here⟩])
        (.mapComma draft start ⟨key, here⟩)
  | mapValue {tokens : List (Spanned Token)} {draft : MessageDraft} {key : String}
      {start left here comma : Span} (hdraft : draft.Spells tokens) :
      Spells (tokens ++ [⟨.keyword .map, start⟩, ⟨.mark .openAngle, left⟩, ⟨.ident key, here⟩,
        ⟨.mark .comma, comma⟩]) (.mapValue draft start ⟨key, here⟩)
  | mapClose {tokens : List (Spanned Token)} {draft : MessageDraft} {key value : String}
      {start left here comma there : Span} (hdraft : draft.Spells tokens) :
      Spells (tokens ++ [⟨.keyword .map, start⟩, ⟨.mark .openAngle, left⟩, ⟨.ident key, here⟩,
        ⟨.mark .comma, comma⟩, ⟨.ident value, there⟩])
        (.mapClose draft start ⟨key, here⟩ ⟨value, there⟩)
  | fieldType {tokens : List (Spanned Token)} {draft : MessageDraft} {start : Span}
      (cardinality : Cardinality) (hdraft : draft.Spells tokens) :
      Spells (tokens ++ [⟨.keyword cardinality.keyword, start⟩])
        (.fieldType draft start cardinality)
  | fieldName {tokens headTokens : List (Spanned Token)} {draft : MessageDraft} {head : FieldHead}
      (hdraft : draft.Spells tokens) (hhead : head.Spells headTokens) :
      Spells (tokens ++ headTokens) (.fieldName draft head)
  | fieldEquals {tokens headTokens : List (Spanned Token)} {draft : MessageDraft} {head : FieldHead}
      {name : String} {here : Span} (hdraft : draft.Spells tokens)
      (hhead : head.Spells headTokens) :
      Spells (tokens ++ (headTokens ++ [⟨.ident name, here⟩]))
        (.fieldEquals draft head ⟨name, here⟩)
  | fieldNumber {tokens headTokens : List (Spanned Token)} {draft : MessageDraft} {head : FieldHead}
      {name : String} {here equals : Span} (hdraft : draft.Spells tokens)
      (hhead : head.Spells headTokens) :
      Spells (tokens ++ (headTokens ++ [⟨.ident name, here⟩, ⟨.mark .equals, equals⟩]))
        (.fieldNumber draft head ⟨name, here⟩)
  | fieldOptions {tokens fieldTokens : List (Spanned Token)} {draft : MessageDraft} {start : Span}
      {field : Field} (hdraft : draft.Spells tokens)
      (hfield : NumberedField fieldTokens start field) :
      Spells (tokens ++ fieldTokens) (.fieldOptions draft start field)
  | optionName {tokens fieldTokens : List (Spanned Token)} {draft : MessageDraft}
      {start left : Span} {field : Field} (hdraft : draft.Spells tokens)
      (hfield : NumberedField fieldTokens start field) :
      Spells (tokens ++ (fieldTokens ++ [⟨.mark .openBracket, left⟩]))
        (.optionName draft start field)
  | optionEquals {tokens fieldTokens : List (Spanned Token)} {draft : MessageDraft}
      {start left here : Span} {field : Field} (hdraft : draft.Spells tokens)
      (hfield : NumberedField fieldTokens start field) :
      Spells (tokens ++ (fieldTokens ++ [⟨.mark .openBracket, left⟩, ⟨.ident "packed", here⟩]))
        (.optionEquals draft start field)
  | optionValue {tokens fieldTokens : List (Spanned Token)} {draft : MessageDraft}
      {start left here equals : Span} {field : Field} (hdraft : draft.Spells tokens)
      (hfield : NumberedField fieldTokens start field) :
      Spells (tokens ++ (fieldTokens ++ [⟨.mark .openBracket, left⟩, ⟨.ident "packed", here⟩,
        ⟨.mark .equals, equals⟩])) (.optionValue draft start field)
  | optionClose {tokens fieldTokens : List (Spanned Token)} {draft : MessageDraft}
      {start left here equals there : Span} {field : Field} (flag : Bool)
      (hdraft : draft.Spells tokens) (hfield : NumberedField fieldTokens start field) :
      Spells (tokens ++ (fieldTokens ++ [⟨.mark .openBracket, left⟩, ⟨.ident "packed", here⟩,
          ⟨.mark .equals, equals⟩, ⟨.ident (toString flag), there⟩]))
        (.optionClose draft start { field with packed := some ⟨flag, there⟩ })
  | fieldEnd {tokens fieldTokens option : List (Spanned Token)} {draft : MessageDraft}
      {start : Span} {field : Field} {flag : Spanned Bool} (hdraft : draft.Spells tokens)
      (hfield : NumberedField fieldTokens start field) (hoption : PackedOption option (some flag)) :
      Spells (tokens ++ (fieldTokens ++ option))
        (.fieldEnd draft start { field with packed := some flag })

namespace Parser

variable {tokens : List (Spanned Token)} {schema : Schema} {parser next : Parser}

theorem enumNumber_eq_ok {number : Int} {here : Span} {read : Spanned Int32} :
    enumNumber number here = .ok read ↔ read.node.toInt = number ∧ read.span = here := by
  unfold enumNumber
  cases hnumber : int32? number with
  | some n =>
      obtain rfl := int32?_eq_some.mp hnumber
      obtain ⟨node, span⟩ := read
      simp [Int32.toInt_inj, eq_comm]
  | none =>
      simp only [reduceCtorEq, false_iff]
      rintro ⟨heq, -⟩
      rw [int32?_eq_some.mpr heq] at hnumber
      cases hnumber

theorem numberedField_eq_ok {head : FieldHead} {name : Spanned String} {number : UInt32}
    {here : Span} {field : Field} : numberedField head name number here = .ok field ↔
      (1 ≤ number.toNat ∧ number.toNat ≤ maxFieldNumber) ∧
        field = ⟨name, head.type, ⟨number, here⟩, head.cardinality, none⟩ := by
  unfold numberedField
  split
  next h => simp [h, eq_comm]
  next h => simp [h]

/-- A token that is not refused leads to a position where it has been read, or
it completes a declaration. -/
theorem spells_step {token : Spanned Token} (h : parser.position.Spells tokens)
    (hstep : step parser token = .ok next) :
    (next.schema = parser.schema ∧ next.position.Spells (tokens ++ [token])) ∨
      ∃ item, SchemaItem.Spells (tokens ++ [token]) item ∧
        next = ⟨parser.schema.add item, .item⟩ := by
  obtain ⟨node, here⟩ := token
  unfold step at hstep
  split at hstep
  all_goals first
    | rename_i hat hnode
      cases hnode
      rw [hat] at h
      cases h
      try simp only [List.append_assoc, List.cons_append]
    | cases hstep
  -- most tokens are one more token of a production that goes on
  all_goals first
    | cases hstep
      refine .inl ⟨rfl, ?_⟩
      constructor <;> assumption
    | skip
  next =>
    split at hstep
    next htext =>
      cases hstep
      exact .inl ⟨rfl, .versionEnd htext⟩
    next => cases hstep
  next htext =>
    cases hstep
    exact .inr ⟨.version, .version htext, rfl⟩
  next =>
    cases hstep
    exact .inl ⟨rfl, .packageNext .one⟩
  next hname =>
    cases hstep
    exact .inl ⟨rfl, .packageNext (.more hname)⟩
  next hname =>
    cases hstep
    exact .inr ⟨.package _, .package hname, rfl⟩
  next =>
    -- a body starts without members
    cases hstep
    exact .inl ⟨rfl, .enumBody (.values .nil)⟩
  next hdraft =>
    cases hstep
    exact .inr ⟨.enum _, .enum hdraft, rfl⟩
  next hdraft =>
    -- the number of an enum value is checked when it is read
    obtain ⟨⟨number, there⟩, hread, hnext⟩ := Except.bind_eq_ok.mp hstep
    obtain ⟨hnumber, rfl⟩ := enumNumber_eq_ok.mp hread
    cases hnext
    exact .inl ⟨rfl, .valueEnd hdraft (hnumber ▸ .plain)⟩
  next hdraft =>
    obtain ⟨⟨number, there⟩, hread, hnext⟩ := Except.bind_eq_ok.mp hstep
    obtain ⟨hnumber, rfl⟩ := enumNumber_eq_ok.mp hread
    cases hnext
    exact .inl ⟨rfl, .valueEnd hdraft (hnumber ▸ .negative)⟩
  next hnumber hdraft =>
    cases hstep
    cases hdraft with
    | values hvalues =>
        exact .inl ⟨rfl, .enumBody (.values (hvalues.concat (.value hnumber)))⟩
  next =>
    cases hstep
    exact .inl ⟨rfl, .messageBody (.fields .nil)⟩
  next hdraft =>
    -- the three labels
    cases hstep
    exact .inl ⟨rfl, .fieldType .required hdraft⟩
  next hdraft =>
    cases hstep
    exact .inl ⟨rfl, .fieldType .optional hdraft⟩
  next hdraft =>
    cases hstep
    exact .inl ⟨rfl, .fieldType .repeated hdraft⟩
  next hdraft =>
    cases hstep
    exact .inl ⟨rfl, .fieldName hdraft .unlabelled⟩
  next hdraft =>
    cases hstep
    exact .inr ⟨.message _, .message hdraft, rfl⟩
  next hdraft =>
    cases hstep
    exact .inl ⟨rfl, .fieldName hdraft .map⟩
  next hdraft =>
    cases hstep
    exact .inl ⟨rfl, .fieldName hdraft .labelled⟩
  next hdraft hhead =>
    -- the number of a field is checked when it is read
    obtain ⟨field, hfield, hnext⟩ := Except.bind_eq_ok.mp hstep
    obtain ⟨⟨hpositive, hlast⟩, rfl⟩ := numberedField_eq_ok.mp hfield
    cases hnext
    exact .inl ⟨rfl, .fieldOptions hdraft (.number hhead hpositive hlast)⟩
  next hdraft hfield =>
    cases hstep
    cases hdraft with
    | fields hfields =>
        exact .inl ⟨rfl, .messageBody (.fields (hfields.concat hfield.spells))⟩
  next hoption hdraft hfield =>
    cases hstep
    cases hdraft with
    | fields hfields =>
        exact .inl ⟨rfl, .messageBody (.fields (hfields.concat (.field hfield hoption)))⟩
  next hdraft hfield =>
    split at hstep
    next hoption =>
      cases hstep
      exact .inl ⟨rfl, hoption ▸ .optionEquals hdraft hfield⟩
    next => cases hstep
  next hdraft hfield =>
    split at hstep
    next hvalue =>
      cases hstep
      exact .inl ⟨rfl, hvalue ▸ .optionClose true hdraft hfield⟩
    split at hstep
    next hvalue =>
      cases hstep
      exact .inl ⟨rfl, hvalue ▸ .optionClose false hdraft hfield⟩
    next => cases hstep
  next hdraft hfield =>
    cases hstep
    exact .inl ⟨rfl, .fieldEnd hdraft hfield .present⟩

/-- Tokens that are not refused spell a schema. -/
theorem spells_of_foldlM {done pending : List (Spanned Token)} {items : List SchemaItem}
    {position : ParsePosition} (hdone : InSequence SchemaItem.Spells done items)
    (hpending : position.Spells pending)
    (h : tokens.foldlM step ⟨.ofItems items, position⟩ = .ok ⟨schema, .item⟩) :
    schema.Spells (done ++ pending ++ tokens) := by
  induction tokens generalizing done pending items position with
  | nil =>
      cases h
      cases hpending
      exact ⟨items, by simpa using hdone, rfl⟩
  | cons token tokens ih =>
      rw [List.foldlM_cons] at h
      obtain ⟨next, hstep, h⟩ := Except.bind_eq_ok.mp h
      rw [← List.singleton_append, ← List.append_assoc]
      rcases spells_step hpending hstep with ⟨hschema, hposition⟩ | ⟨item, hitem, rfl⟩
      · obtain ⟨nextSchema, nextPosition⟩ := next
        obtain rfl : nextSchema = _ := hschema
        rw [List.append_assoc done]
        exact ih hdone hposition h
      · dsimp only at h
        rw [← Schema.ofItems_concat] at h
        have hmore := ih (hdone.concat hitem) .item h
        rwa [List.append_nil, ← List.append_assoc] at hmore

/-! ## What the parser accepts -/

section Complete

theorem foldlM_cons_of_step {token : Spanned Token} (h : step parser token = .ok next) :
    (token :: tokens).foldlM step parser = tokens.foldlM step next := by
  rw [List.foldlM_cons, h, Except.ok_bind]

theorem foldlM_dottedName {name : Spanned String} (h : DottedName tokens name) :
    tokens.foldlM step ⟨schema, .packagePart none⟩ = .ok ⟨schema, .packageNext name⟩ := by
  induction h with
  | one => rfl
  | more _ ih =>
      rw [List.foldlM_append, ih]
      rfl

theorem foldlM_number {draft : EnumDraft} {name : Spanned String} {number : Int32} {there : Span}
    (h : SignedNumber tokens ⟨number.toInt, there⟩) :
    tokens.foldlM step ⟨schema, .valueNumber draft name⟩ =
      .ok ⟨schema, .valueEnd draft ⟨name, ⟨number, there⟩⟩⟩ := by
  have hread : enumNumber number.toInt there = .ok ⟨number, there⟩ :=
    enumNumber_eq_ok.mpr ⟨rfl, rfl⟩
  generalize hsigned : (⟨number.toInt, there⟩ : Spanned Int) = signed at h
  cases h with
  | plain =>
      obtain ⟨hnumber, rfl⟩ := Spanned.mk.inj hsigned
      rw [hnumber] at hread
      exact foldlM_cons_of_step (congrArg (· >>= _) hread)
  | negative =>
      obtain ⟨hnumber, rfl⟩ := Spanned.mk.inj hsigned
      rw [hnumber] at hread
      refine (foldlM_cons_of_step (by rfl)).trans ?_
      exact foldlM_cons_of_step (congrArg (· >>= _) hread)

theorem foldlM_value {draft : EnumDraft} {value : Spanned EnumValue}
    (h : EnumValue.Spells tokens value) :
    tokens.foldlM step ⟨schema, .enumBody draft⟩ =
      .ok ⟨schema, .enumBody { draft with values := draft.values ++ [value] }⟩ := by
  cases h with
  | value hnumber =>
      refine (foldlM_cons_of_step (by rfl)).trans ?_
      refine (foldlM_cons_of_step (by rfl)).trans ?_
      rw [List.foldlM_append, foldlM_number hnumber]
      rfl

theorem foldlM_head {draft : MessageDraft} {head : FieldHead} (h : head.Spells tokens) :
    tokens.foldlM step ⟨schema, .messageBody draft⟩ = .ok ⟨schema, .fieldName draft head⟩ := by
  cases h with
  | unlabelled => rfl
  | @labelled cardinality => cases cardinality <;> rfl
  | map => rfl

theorem foldlM_numberedField {draft : MessageDraft} {start : Span} {field : Field}
    (h : NumberedField tokens start field) :
    tokens.foldlM step ⟨schema, .messageBody draft⟩ =
      .ok ⟨schema, .fieldOptions draft start field⟩ := by
  cases h with
  | @number _ head name number here _ there hhead hpositive hlast =>
      have hfield : numberedField head ⟨name, here⟩ number there =
          .ok ⟨⟨name, here⟩, head.type, ⟨number, there⟩, head.cardinality, none⟩ :=
        numberedField_eq_ok.mpr ⟨⟨hpositive, hlast⟩, rfl⟩
      rw [List.foldlM_append, foldlM_head hhead, Except.ok_bind]
      refine (foldlM_cons_of_step (by rfl)).trans ?_
      refine (foldlM_cons_of_step (by rfl)).trans ?_
      exact foldlM_cons_of_step (congrArg (· >>= _) hfield)

theorem foldlM_option {draft : MessageDraft} {start stop : Span} {field : Field}
    {packed : Option (Spanned Bool)} (hfield : field.packed = none)
    (h : PackedOption tokens packed) :
    List.foldlM step ⟨schema, .fieldOptions draft start field⟩
        (tokens ++ [⟨.mark .semicolon, stop⟩]) =
      .ok ⟨schema, .messageBody (closeField draft start { field with packed } stop)⟩ := by
  cases h with
  | absent =>
      rw [← hfield]
      rfl
  | @present flag => cases flag <;> rfl

theorem foldlM_field {draft : MessageDraft} {field : Spanned Field}
    (h : Field.Spells tokens field) :
    tokens.foldlM step ⟨schema, .messageBody draft⟩ =
      .ok ⟨schema, .messageBody { draft with fields := draft.fields ++ [field] }⟩ := by
  cases h with
  | field hfield hoption =>
      rw [List.foldlM_append, foldlM_numberedField hfield, Except.ok_bind,
        foldlM_option hfield.packed_eq_none hoption]
      rfl

/-- Parts that are read one after another. -/
theorem foldlM_inSequence {α : Type} {Spells : List (Spanned Token) → α → Prop}
    (state : List α → Parser)
    (hpart : ∀ tokens node nodes, Spells tokens node →
      tokens.foldlM step (state nodes) = .ok (state (nodes ++ [node])))
    {nodes : List α} (h : InSequence Spells tokens nodes) (before : List α) :
    tokens.foldlM step (state before) = .ok (state (before ++ nodes)) := by
  obtain ⟨parts, rfl, hparts⟩ := h
  induction hparts generalizing before with
  | nil => rw [List.append_nil]; rfl
  | cons hnode _ ih =>
      rw [List.flatten_cons, List.foldlM_append, hpart _ _ _ hnode, Except.ok_bind, ih,
        List.append_assoc, List.singleton_append]

theorem foldlM_enumDraft {draft : EnumDraft} (h : draft.Spells tokens) :
    tokens.foldlM step ⟨schema, .item⟩ = .ok ⟨schema, .enumBody draft⟩ := by
  cases h with
  | @values _ values name start here _ hvalues =>
      refine (foldlM_cons_of_step (by rfl)).trans ?_
      refine (foldlM_cons_of_step (by rfl)).trans ?_
      refine (foldlM_cons_of_step (by rfl)).trans ?_
      exact foldlM_inSequence (fun values =>
        ⟨schema, .enumBody ⟨start, ⟨name, here⟩, values⟩⟩) (fun _ _ _ => foldlM_value) hvalues []

theorem foldlM_messageDraft {draft : MessageDraft} (h : draft.Spells tokens) :
    tokens.foldlM step ⟨schema, .item⟩ = .ok ⟨schema, .messageBody draft⟩ := by
  cases h with
  | @fields _ fields name start here _ hfields =>
      refine (foldlM_cons_of_step (by rfl)).trans ?_
      refine (foldlM_cons_of_step (by rfl)).trans ?_
      refine (foldlM_cons_of_step (by rfl)).trans ?_
      exact foldlM_inSequence (fun fields =>
        ⟨schema, .messageBody ⟨start, ⟨name, here⟩, fields⟩⟩) (fun _ _ _ => foldlM_field) hfields []

theorem foldlM_item {item : SchemaItem} (h : item.Spells tokens) :
    tokens.foldlM step ⟨schema, .item⟩ = .ok ⟨schema.add item, .item⟩ := by
  cases h with
  | version htext => rcases htext with rfl | rfl <;> rfl
  | package hname =>
      refine (foldlM_cons_of_step (by rfl)).trans ?_
      rw [List.foldlM_append, foldlM_dottedName hname]
      rfl
  | enum hdraft =>
      rw [List.foldlM_append, foldlM_enumDraft hdraft]
      rfl
  | message hdraft =>
      rw [List.foldlM_append, foldlM_messageDraft hdraft]
      rfl

end Complete

end Parser

/-- The parser reads the schema that a list of tokens spells, and refuses tokens
that spell none. -/
theorem parseTokens_eq_ok {tokens : List (Spanned Token)} {length : Nat} {schema : Schema} :
    parseTokens tokens length = .ok schema ↔ schema.Spells tokens := by
  constructor
  · intro h
    obtain ⟨parser, hfold, hfinish⟩ := Except.bind_eq_ok.mp h
    obtain ⟨read, position⟩ := parser
    have hend : position = .item ∧ read = schema := by
      unfold Parser.finish at hfinish
      split at hfinish
      next hat =>
        cases hfinish
        exact ⟨hat, rfl⟩
      next => cases hfinish
    obtain ⟨rfl, rfl⟩ := hend
    exact Parser.spells_of_foldlM .nil .item hfold
  · rintro ⟨items, hitems, rfl⟩
    have hfold := Parser.foldlM_inSequence (fun items => ⟨.ofItems items, .item⟩)
      (fun _ item items hitem => by
        rw [Schema.ofItems_concat]
        exact Parser.foldlM_item hitem) hitems []
    have hstart : Parser.start = ⟨.ofItems [], .item⟩ := rfl
    rw [parseTokens, hstart, hfold]
    rfl

/-- A text that is parsed has tokens that spell the schema. -/
theorem exists_lexes_of_parse {source : String} {schema : Schema}
    (h : parse source = .ok schema) :
    ∃ tokens, Lexes 0 source.toList tokens ∧ schema.Spells tokens := by
  obtain ⟨tokens, htokens, hparse⟩ := Except.bind_eq_ok.mp h
  exact ⟨tokens.toList, (tokenize_eq_ok.mp htokens).1, parseTokens_eq_ok.mp hparse⟩

/-- A source text is parsed if and only if it consists of tokens that spell a
schema, with trivia around them, and it is parsed as that schema. Of the texts
without tokens, it is the empty one that is parsed. -/
theorem parse_eq_ok {source : String} {schema : Schema} :
    parse source = .ok schema ↔ ∃ tokens, Lexes 0 source.toList tokens ∧
      (source = "" ∨ tokens ≠ []) ∧ schema.Spells tokens := by
  constructor
  · intro h
    obtain ⟨tokens, htokens, hparse⟩ := Except.bind_eq_ok.mp h
    obtain ⟨hlexes, hempty⟩ := tokenize_eq_ok.mp htokens
    exact ⟨tokens.toList, hlexes, hempty, parseTokens_eq_ok.mp hparse⟩
  · rintro ⟨tokens, hlexes, hempty, hspells⟩
    have htokens : tokenize source = .ok tokens.toArray := tokenize_eq_ok.mpr ⟨hlexes, hempty⟩
    rw [parse, htokens]
    exact parseTokens_eq_ok.mpr hspells

end WireCodec
