import WireCodec.Proofs.Outcome
import WireCodec.Schema.Compile

/-! # What source texts can declare

A schema that is parsed from a source text has words as the names of its
messages and field numbers of at most 29 bits, and a compiled one passes the
check as well.
-/

namespace WireCodec

/-- A name that consists of the characters of words. -/
def IsWord (name : String) : Prop := ∀ c ∈ name.toList, isWordPart c = true

/-- If a token is a name, it is a word. -/
def Token.Sound (token : Token) : Prop := ∀ name, token = .ident name → IsWord name

namespace Lexer

/-- All tokens are sound, and so is a word that is being read. -/
structure Sound (lexer : Lexer) : Prop where
  tokens : ∀ token ∈ lexer.tokens, token.node.Sound
  letters : ∀ start letters, lexer.state = .word start letters → IsWord letters

theorem sound_ofWord {letters : String} (h : IsWord letters) : (Token.ofWord letters).Sound := by
  unfold Token.ofWord
  split
  · simp [Token.Sound]
  · rintro name ⟨⟩
    exact h

theorem isWordPart_of_isWordStart {c : Char} (h : isWordStart c = true) : isWordPart c = true := by
  simp only [isWordStart, isWordPart, Char.isAlphanum, Bool.or_eq_true] at h ⊢
  exact h.imp_left Or.inl

theorem Sound.emit {lexer : Lexer} (h : lexer.Sound) {token : Token} (htoken : token.Sound)
    (start stop : Nat) : (lexer.emit token start stop).Sound := by
  refine ⟨?_, by simp [Lexer.emit]⟩
  intro other hother
  rcases Array.mem_push.mp hother with hmem | rfl
  · exact h.tokens other hmem
  · exact htoken

theorem Sound.advance {lexer : Lexer} (h : lexer.Sound) (c : Char) {state : LexState}
    (hstate : ∀ start letters, state = .word start letters → IsWord letters) :
    (lexer.advance c state).Sound :=
  ⟨h.tokens, hstate⟩

theorem Sound.begin {lexer next : Lexer} (h : lexer.Sound) {c : Char}
    (hnext : lexer.begin c = .ok next) : next.Sound := by
  unfold Lexer.begin at hnext
  split at hnext
  · cases hnext
    exact h.advance c (by simp)
  split at hnext
  next hword =>
    cases hnext
    refine h.advance c ?_
    intro start letters heq
    cases heq
    intro d hd
    have hd : d = c := by simpa using hd
    exact hd ▸ isWordPart_of_isWordStart hword
  split at hnext
  · cases hnext
    exact h.advance c (by simp)
  split at hnext
  · cases hnext
    exact h.advance c (by simp)
  split at hnext
  · cases hnext
    exact h.advance c (by simp)
  split at hnext
  · cases hnext
    exact (h.advance c (by simp)).emit (by simp [Token.Sound]) _ _
  · cases hnext

theorem Sound.endNumber {lexer next : Lexer} (h : lexer.Sound) {start : Nat} {digits : String}
    {fault : Span} (hnext : lexer.endNumber start digits fault = .ok next) : next.Sound := by
  unfold Lexer.endNumber at hnext
  split at hnext
  · cases hnext
    exact h.emit (by simp [Token.Sound]) _ _
  · cases hnext

theorem Sound.step {lexer next : Lexer} (h : lexer.Sound) {c : Char}
    (hnext : lexer.step c = .ok next) : next.Sound := by
  unfold Lexer.step at hnext
  split at hnext
  · exact h.begin hnext
  · exact h.begin hnext
  next start letters hstate =>
    -- a word goes on by one more of its characters, or is a token
    have hletters := h.letters _ _ hstate
    split at hnext
    next hpart =>
      cases hnext
      refine h.advance c ?_
      intro start letters heq
      cases heq
      intro d hd
      have hd : d ∈ letters.toList ∨ d = c := by simpa using hd
      rcases hd with hmem | rfl
      · exact hletters d hmem
      · exact hpart
    next => exact (h.emit (sound_ofWord hletters) _ _).begin hnext
  next start digits fault _ =>
    -- all other states hold no word
    split at hnext
    · cases hnext
      exact h.advance c (by simp)
    split at hnext
    · cases hnext
    · obtain ⟨middle, hmiddle, hnext⟩ := Except.bind_eq_ok.mp hnext
      exact (h.endNumber hmiddle).begin hnext
  next start content _ =>
    split at hnext
    · cases hnext
      exact (h.advance c (by simp)).emit (by simp [Token.Sound]) _ _
    · cases hnext
      exact h.advance c (by simp)
  next start _ =>
    split at hnext
    · cases hnext
      exact h.advance c (by simp)
    split at hnext
    · cases hnext
      exact h.advance c (by simp)
    · cases hnext
  next =>
    cases hnext
    exact h.advance c (by split <;> simp)
  next =>
    cases hnext
    exact h.advance c (by split <;> simp)
  next =>
    cases hnext
    refine h.advance c ?_
    split
    · simp
    · split <;> simp

theorem Sound.finish {lexer : Lexer} (h : lexer.Sound) {tokens : Array (Spanned Token)}
    (hfinish : lexer.finish = .ok tokens) : ∀ token ∈ tokens, token.node.Sound := by
  have hbetween : lexer.endBetween = .ok tokens → ∀ token ∈ tokens, token.node.Sound := by
    intro hend
    unfold Lexer.endBetween at hend
    split at hend
    · cases hend
    · cases hend
      exact h.tokens
  unfold Lexer.finish at hfinish
  split at hfinish
  · exact hbetween hfinish
  · exact hbetween hfinish
  · exact hbetween hfinish
  next start letters hstate =>
    cases hfinish
    exact (h.emit (sound_ofWord (h.letters _ _ hstate)) _ _).tokens
  next =>
    obtain ⟨last, hlast, hfinish⟩ := Except.bind_eq_ok.mp hfinish
    cases hfinish
    exact (h.endNumber hlast).tokens
  all_goals cases hfinish

end Lexer

theorem sound_of_tokenize {source : String} {tokens : Array (Spanned Token)}
    (h : tokenize source = .ok tokens) : ∀ token ∈ tokens, token.node.Sound := by
  obtain ⟨lexer, hscan, hfinish⟩ := Except.bind_eq_ok.mp h
  have hstart : Lexer.Sound Lexer.start := ⟨by simp [Lexer.start], by simp [Lexer.start]⟩
  have hlexer : lexer.Sound := Except.foldlM_invariant
    (fun _ _ _ hstate _ hstep => Lexer.Sound.step hstate hstep) hstart hscan
  exact hlexer.finish hfinish

/-- The number of a field is in the range that keys have room for. -/
def Field.Numbered (field : Field) : Prop :=
  1 ≤ field.number.node.toNat ∧ field.number.node.toNat ≤ maxFieldNumber

/-- A message that source text can declare: its name is a word, and all of its
fields are numbered. -/
structure MessageDecl.Sound (decl : MessageDecl) : Prop where
  name : IsWord decl.name.node
  fields : ∀ field ∈ decl.fields, field.node.Numbered

/-- What is read of a message so far can be declared. -/
structure MessageDraft.Sound (draft : MessageDraft) : Prop where
  name : IsWord draft.name.node
  fields : ∀ field ∈ draft.fields, field.node.Numbered

/-- The parts of messages that a position holds can be declared. -/
def ParsePosition.Sound : ParsePosition → Prop
  | messageOpen _ name => IsWord name.node
  | messageBody draft | mapOpen draft _ | mapKey draft _ | mapComma draft _ _
  | mapValue draft _ _ | mapClose draft _ _ _ | fieldType draft _ _ | fieldName draft _
  | fieldEquals draft _ _ | fieldNumber draft _ _ => draft.Sound
  | fieldOptions draft _ field | optionName draft _ field | optionEquals draft _ field
  | optionValue draft _ field | optionClose draft _ field | fieldEnd draft _ field =>
    draft.Sound ∧ field.Numbered
  | _ => True

namespace Parser

structure Sound (parser : Parser) : Prop where
  messages : ∀ message ∈ parser.schema.messages, message.node.Sound
  position : parser.position.Sound

theorem numbered_of_numberedField {head : FieldHead} {name : Spanned String} {number : UInt32}
    {span : Span} {field : Field} (h : numberedField head name number span = .ok field) :
    field.Numbered := by
  unfold numberedField at h
  split at h
  next hrange =>
    cases h
    exact hrange
  next => cases h

theorem sound_closeField {draft : MessageDraft} {field : Field} (hdraft : draft.Sound)
    (hfield : field.Numbered) (start stop : Span) : (closeField draft start field stop).Sound := by
  refine ⟨hdraft.name, ?_⟩
  intro other hother
  rcases List.mem_append.mp hother with hmem | hlast
  · exact hdraft.fields other hmem
  · obtain rfl := List.mem_singleton.mp hlast
    exact hfield

theorem Sound.step {parser next : Parser} (h : parser.Sound) {token : Spanned Token}
    (htoken : token.node.Sound) (hstep : parser.step token = .ok next) : next.Sound := by
  have hposition := h.position
  unfold Parser.step at hstep
  split at hstep
  -- most tokens lead to a position that holds the same parts, or no parts of a message
  all_goals first
    | next hat _ =>
      cases hstep
      rw [hat] at hposition
      exact ⟨h.messages, hposition⟩
    | skip
  next version _ _ =>
    split at hstep
    · cases hstep
      exact ⟨h.messages, trivial⟩
    · cases hstep
  next =>
    obtain ⟨number, _, hnext⟩ := Except.bind_eq_ok.mp hstep
    cases hnext
    exact ⟨h.messages, trivial⟩
  next =>
    obtain ⟨number, _, hnext⟩ := Except.bind_eq_ok.mp hstep
    cases hnext
    exact ⟨h.messages, trivial⟩
  next hnode =>
    -- the name of a message is a token
    cases hstep
    exact ⟨h.messages, htoken _ hnode⟩
  next hat _ =>
    cases hstep
    -- a body starts without fields
    rw [hat] at hposition
    exact ⟨h.messages, hposition, by simp⟩
  next hat _ =>
    cases hstep
    -- the end of a body adds its message to the schema
    rw [hat] at hposition
    refine ⟨?_, trivial⟩
    intro message hmessage
    rcases List.mem_append.mp hmessage with hmem | hlast
    · exact h.messages message hmem
    · obtain rfl := List.mem_singleton.mp hlast
      exact ⟨hposition.name, hposition.fields⟩
  next hat _ =>
    -- the number of a field is checked when it is read
    obtain ⟨field, hfield, hnext⟩ := Except.bind_eq_ok.mp hstep
    cases hnext
    rw [hat] at hposition
    exact ⟨h.messages, hposition, numbered_of_numberedField hfield⟩
  next hat _ =>
    cases hstep
    rw [hat] at hposition
    exact ⟨h.messages, sound_closeField hposition.1 hposition.2 _ _⟩
  next hat _ =>
    cases hstep
    rw [hat] at hposition
    exact ⟨h.messages, sound_closeField hposition.1 hposition.2 _ _⟩
  next hat _ =>
    rw [hat] at hposition
    split at hstep
    · cases hstep
      exact ⟨h.messages, hposition⟩
    · cases hstep
  next hat _ =>
    rw [hat] at hposition
    split at hstep
    · cases hstep
      exact ⟨h.messages, hposition⟩
    split at hstep
    · cases hstep
      exact ⟨h.messages, hposition⟩
    · cases hstep
  next => cases hstep

end Parser

theorem sound_of_parse {source : String} {schema : Schema} (h : parse source = .ok schema) :
    ∀ message ∈ schema.messages, message.node.Sound := by
  obtain ⟨tokens, htokens, h⟩ := Except.bind_eq_ok.mp h
  obtain ⟨parser, hparser, hfinish⟩ := Except.bind_eq_ok.mp h
  have hstart : Parser.Sound Parser.start := ⟨by simp [Parser.start, Schema.empty], trivial⟩
  have hsound : parser.Sound := Except.foldlM_invariant
    (fun _ token _ hstate hmem hstep => Parser.Sound.step hstate
      (sound_of_tokenize htokens token (by simpa using hmem)) hstep) hstart hparser
  unfold Parser.finish at hfinish
  split at hfinish
  · cases hfinish
    exact hsound.messages
  · cases hfinish

/-- A text compiles if it can be parsed and the check finds nothing wrong. -/
theorem compile_eq_ok {source : String} {schema : Schema} :
    compile source = .ok schema ↔ parse source = .ok schema ∧ schema.check = [] := by
  unfold compile
  cases hparse : parse source with
  | error e => simp
  | ok parsed =>
      cases hcheck : parsed.check with
      | nil =>
          simp only [hcheck, Except.ok.injEq]
          constructor
          · rintro rfl
            exact ⟨rfl, hcheck⟩
          · exact And.left
      | cons error rest =>
          simp only [hcheck, Except.ok.injEq, reduceCtorEq, false_iff]
          rintro ⟨rfl, hnil⟩
          rw [hcheck] at hnil
          cases hnil

/-- A compiled schema passes the check, and its messages are ones that source
text can declare. -/
theorem sound_of_compile {source : String} {schema : Schema} (h : compile source = .ok schema) :
    schema.check = [] ∧ ∀ message ∈ schema.messages, message.node.Sound := by
  obtain ⟨hparse, hcheck⟩ := compile_eq_ok.mp h
  exact ⟨hcheck, sound_of_parse hparse⟩

end WireCodec
