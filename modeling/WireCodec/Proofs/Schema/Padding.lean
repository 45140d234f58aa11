import WireCodec.Proofs.Schema.Bare
import WireCodec.Proofs.Schema.Parsing
import WireCodec.Proofs.Schema.SourceText
import WireCodec.Proofs.Schema.TokenSpans

/-! # Padding

White space and comments may stand before and behind every token. A text with
more of them there has the same tokens at other places, so it compiles to the
same schema with other spans.
-/

namespace WireCodec

/-! ## Padded texts -/

/-- White space and closed comments, in any mixture. -/
inductive Padding : List Char → Prop
  | nil : Padding []
  | cons {part rest : List Char} (hpart : Trivia part) (hrest : Padding rest) :
      Padding (part ++ rest)

/-- The characters of a text from a byte offset on, with what fills each place
between them. -/
def padFrom (fill : Nat → List Char) : Nat → List Char → List Char
  | offset, [] => fill offset
  | offset, c :: rest => fill offset ++ c :: padFrom fill (offset + c.utf8Size) rest

/-- A source text with more text inserted at byte offsets. -/
def padded (fill : Nat → List Char) (source : String) : String :=
  .ofList (padFrom fill 0 source.toList)

/-- Only padding is inserted, and only directly before or behind a token. -/
structure PadsTokens (fill : Nat → List Char) (tokens : List (Spanned Token)) : Prop where
  padding : ∀ offset, Padding (fill offset)
  edges : ∀ offset, fill offset ≠ [] →
    ∃ token ∈ tokens, offset = token.span.start ∨ offset = token.span.stop

section Padding

variable {fill : Nat → List Char} {offset : Nat} {chars rest part : List Char}
  {tokens : List (Spanned Token)}

theorem Padding.exists_lexes (h : Padding part)
    (hrest : ∀ offset, ∃ tokens', Lexes offset rest tokens' ∧ SameTokens tokens tokens')
    (offset : Nat) :
    ∃ tokens', Lexes offset (part ++ rest) tokens' ∧ SameTokens tokens tokens' := by
  induction h generalizing offset with
  | nil => exact hrest offset
  | @cons part _ hpart _ ih =>
      obtain ⟨tokens', hlexes, hsame⟩ := ih (offset + String.utf8Len part)
      rw [List.append_assoc]
      exact ⟨tokens', .trivia hpart hlexes, hsame⟩

/-- No letter or digit is padding. -/
theorem Padding.isWordPart_eq_false (h : Padding part) {c : Char} (hc : c ∈ part.head?) :
    isWordPart c = false := by
  cases h with
  | nil => cases hc
  | cons hpart =>
      cases hpart with
      | blank hblank =>
          cases hc
          refine Bool.eq_false_iff.mpr fun hword => ?_
          rw [isBlank_of_isWordPart hword] at hblank
          cases hblank
      | lineComment | blockComment =>
          cases hc
          decide

/-- Where nothing fills the inside of some text, it stays in one piece. -/
theorem padFrom_append (hpart : part ≠ [])
    (hinside : ∀ place, offset < place → place < offset + String.utf8Len part → fill place = []) :
    padFrom fill offset (part ++ rest) =
      fill offset ++ (part ++ padFrom fill (offset + String.utf8Len part) rest) := by
  induction part generalizing offset with
  | nil => exact absurd rfl hpart
  | cons c part ih =>
      have hstop : offset + String.utf8Len (c :: part) =
          offset + c.utf8Size + String.utf8Len part := by
        rw [String.utf8Len_cons]
        omega
      rw [hstop] at hinside ⊢
      rw [List.cons_append, padFrom, List.cons_append]
      cases part with
      | nil => rfl
      | cons d part =>
          have hc := c.utf8Size_pos
          have hd : 0 < String.utf8Len (d :: part) := Nat.add_pos_right _ d.utf8Size_pos
          have hempty : fill (offset + c.utf8Size) = [] := hinside _ (by omega) (by omega)
          have hrest := ih (List.cons_ne_nil d part) fun place hlt hle =>
            hinside place (by omega) hle
          rw [hrest, hempty, List.nil_append]

theorem head?_padFrom :
    (padFrom fill offset chars).head? = (fill offset).head?.or chars.head? := by
  cases chars <;> simp [padFrom, List.head?_append]

/-- Padding does not let a token go on. -/
theorem Token.endsBefore_padFrom {token : Token} (h : token.EndsBefore rest)
    (hfill : Padding (fill offset)) : token.EndsBefore (padFrom fill offset rest) := by
  have hhead (hrest : ∀ c ∈ rest.head?, isWordPart c = false) :
      ∀ c ∈ (padFrom fill offset rest).head?, isWordPart c = false := by
    intro c hc
    rw [head?_padFrom, Option.mem_def, Option.or_eq_some_iff] at hc
    rcases hc with hc | ⟨-, hc⟩
    · exact hfill.isWordPart_eq_false hc
    · exact hrest c hc
  cases token with
  | keyword | ident | int => exact hhead h
  | text | mark => trivial

/-- A text that is padded around its tokens has the same tokens. -/
theorem Lexes.exists_padFrom (h : Lexes offset chars tokens)
    (hpadding : ∀ place, Padding (fill place))
    (hclear : ∀ place, offset < place →
      (∀ token ∈ tokens, place ≠ token.span.start ∧ place ≠ token.span.stop) → fill place = [])
    (offset' : Nat) : ∃ tokens', Lexes offset' (padFrom fill offset chars) tokens' ∧
      SameTokens tokens tokens' := by
  -- what fills the first place stands in front of the text, so only the places
  -- behind it have to be clear
  induction h generalizing offset' with
  | @done offset =>
      have hpart := (hpadding offset).exists_lexes fun _ => ⟨[], Lexes.done, .nil⟩
      rw [List.append_nil] at hpart
      exact hpart offset'
  | @lastComment offset body hbody =>
      have hempty : ∀ place, offset < place → fill place = [] := fun place hlt =>
        hclear place hlt fun _ hnone => nomatch hnone
      have hlen : 0 < String.utf8Len ('/' :: '/' :: body) := Nat.add_pos_right _ Nat.one_pos
      have hpiece : padFrom fill offset ('/' :: '/' :: body ++ []) =
          fill offset ++ ('/' :: '/' :: body ++ []) := by
        rw [padFrom_append (List.cons_ne_nil _ _) fun place hlt _ => hempty place hlt, padFrom,
          hempty _ (Nat.lt_add_of_pos_right hlen)]
      rw [List.append_nil] at hpiece
      rw [hpiece]
      exact (hpadding offset).exists_lexes (fun place => ⟨[], .lastComment hbody, .nil⟩) offset'
  | @trivia offset part rest tokens hpart hrest ih =>
      -- every token stands behind the trivia, so none has an edge inside
      have hinside : ∀ place, offset < place → place < offset + String.utf8Len part →
          fill place = [] := by
        refine fun place hlt hle => hclear place hlt fun token htoken => ?_
        obtain ⟨hstart, hstop⟩ := hrest.offset_le token htoken
        omega
      rw [padFrom_append (List.ne_nil_of_length_pos hpart.length_pos) hinside]
      refine (hpadding offset).exists_lexes (fun place => ?_) offset'
      obtain ⟨tokens', hlexes, hsame⟩ := ih (fun place hlt => hclear place (by omega))
        (place + String.utf8Len part)
      exact ⟨tokens', .trivia hpart hlexes, hsame⟩
  | @token offset token rest tokens hdistinct hends hrest ih =>
      have hinside : ∀ place, offset < place →
          place < offset + String.utf8Len token.spelling.toList → fill place = [] := by
        rw [String.utf8Len_toList]
        refine fun place hlt hle => hclear place hlt (List.forall_mem_cons.mpr ⟨?_, ?_⟩)
        · dsimp only
          omega
        · intro other hother
          obtain ⟨hstart, hstop⟩ := hrest.offset_le other hother
          omega
      have hbehind : ∀ place, offset + token.spelling.utf8ByteSize < place →
          (∀ token ∈ tokens, place ≠ token.span.start ∧ place ≠ token.span.stop) →
            fill place = [] := by
        refine fun place hlt hother =>
          hclear place (by omega) (List.forall_mem_cons.mpr ⟨?_, hother⟩)
        dsimp only
        omega
      rw [padFrom_append (List.ne_nil_of_length_pos hdistinct.length_pos) hinside,
        String.utf8Len_toList]
      refine (hpadding offset).exists_lexes (fun place => ?_) offset'
      obtain ⟨tokens', hlexes, hsame⟩ := ih hbehind (place + token.spelling.utf8ByteSize)
      exact ⟨_, .token hdistinct (Token.endsBefore_padFrom hends (hpadding _)) hlexes, .cons hsame⟩

theorem tokenize_padded {source : String} {tokens : Array (Spanned Token)}
    (htokens : tokenize source = .ok tokens) (hne : tokens.toList ≠ [])
    (hpads : PadsTokens fill tokens.toList) :
    ∃ tokens', tokenize (padded fill source) = .ok tokens' ∧
      SameTokens tokens.toList tokens'.toList := by
  have hlexes := (tokenize_eq_ok.mp htokens).1
  have hclear : ∀ place, 0 < place →
      (∀ token ∈ tokens.toList, place ≠ token.span.start ∧ place ≠ token.span.stop) →
        fill place = [] := by
    intro place _ hother
    by_contra hfill
    obtain ⟨token, htoken, hplace⟩ := hpads.edges place hfill
    exact hplace.elim (hother token htoken).1 (hother token htoken).2
  obtain ⟨tokens', hlexes, hsame⟩ := hlexes.exists_padFrom hpads.padding hclear 0
  refine ⟨tokens'.toArray, tokenize_eq_ok.mpr ⟨?_, .inr (hsame.ne_nil hne)⟩, hsame⟩
  rwa [padded, String.toList_ofList]

end Padding

/-! ## Compiling padded texts -/

theorem compile_eq_ok_of_tokenize {source : String} {tokens : Array (Spanned Token)}
    {schema : Schema} (htokens : tokenize source = .ok tokens) :
    compile source = .ok schema ↔ schema.Spells tokens.toList ∧ schema.check = [] := by
  rw [compile_eq_ok, parse, htokens, Except.ok_bind, parseTokens_eq_ok]

/-- Texts with the same tokens compile to the same schema, up to its spans. -/
theorem exists_compile_of_sameTokens {source source' : String}
    {tokens tokens' : Array (Spanned Token)} {schema : Schema}
    (htokens : tokenize source = .ok tokens) (htokens' : tokenize source' = .ok tokens')
    (hsame : SameTokens tokens.toList tokens'.toList) (h : compile source = .ok schema) :
    ∃ schema', compile source' = .ok schema' ∧ schema'.bare = schema.bare := by
  obtain ⟨hspells, hcheck⟩ := (compile_eq_ok_of_tokenize htokens).mp h
  obtain ⟨schema', hspells', hbare⟩ := hspells.respan hsame
  have hcheck' := Schema.check_eq_nil_of_bare hbare hcheck
  exact ⟨schema', (compile_eq_ok_of_tokenize htokens').mpr ⟨hspells', hcheck'⟩, hbare⟩

/-- White space and comments around its tokens do not change what a text
compiles to, except for spans. -/
theorem compile_padded {source : String} {tokens : Array (Spanned Token)}
    {fill : Nat → List Char} (htokens : tokenize source = .ok tokens) (hne : tokens.toList ≠ [])
    (hpads : PadsTokens fill tokens.toList) :
    ((∃ schema, compile (padded fill source) = .ok schema) ↔
        ∃ schema, compile source = .ok schema) ∧
      ∀ schema schema', compile source = .ok schema → compile (padded fill source) = .ok schema' →
        schema'.bare = schema.bare := by
  obtain ⟨tokens', htokens', hsame⟩ := tokenize_padded htokens hne hpads
  refine ⟨⟨?_, ?_⟩, ?_⟩
  · rintro ⟨schema', h⟩
    obtain ⟨schema, hcompile, -⟩ := exists_compile_of_sameTokens htokens' htokens hsame.symm h
    exact ⟨schema, hcompile⟩
  · rintro ⟨schema, h⟩
    obtain ⟨schema', hcompile, -⟩ := exists_compile_of_sameTokens htokens htokens' hsame h
    exact ⟨schema', hcompile⟩
  · intro schema schema' h h'
    obtain ⟨found, hfound, hbare⟩ := exists_compile_of_sameTokens htokens htokens' hsame h
    obtain rfl := Except.ok.inj (hfound.symm.trans h')
    exact hbare

/-! An enum of one value, with comments in which there are other comments, a
quotation mark and braces. -/

def hueSource : String := "enum Hue\x7bRED=0;\x7d"

def hueTokens : List (Spanned Token) :=
  [⟨.keyword .enum, 0, 4⟩, ⟨.ident "Hue", 5, 8⟩, ⟨.mark .openBrace, 8, 9⟩, ⟨.ident "RED", 9, 12⟩,
    ⟨.mark .equals, 12, 13⟩, ⟨.int 0, 13, 14⟩, ⟨.mark .semicolon, 14, 15⟩,
    ⟨.mark .closeBrace, 15, 16⟩]

def hueFill : Nat → List Char
  | 0 => ['\u3000', '/', '*', '"', '/', '/', '*', '/']
  | 9 => ['/', '/', '*', '\x7d', '\n']
  | 12 => ['\t']
  | 16 => ['/', '/', '\x7b', '\n']
  | _ => []

theorem padsTokens_hueFill : PadsTokens hueFill hueTokens := by
  refine ⟨fun offset => ?_, fun offset hfill => ?_⟩
  · unfold hueFill
    split
    · exact @Padding.cons ['\u3000'] _ (.blank (by decide))
        (@Padding.cons _ [] (@Trivia.blockComment ['"', '/', '/'] (by decide)) .nil)
    · exact @Padding.cons _ [] (@Trivia.lineComment ['*', '\x7d'] (by decide)) .nil
    · exact @Padding.cons ['\t'] [] (.blank (by decide)) .nil
    · exact @Padding.cons _ [] (@Trivia.lineComment ['\x7b'] (by decide)) .nil
    · exact .nil
  · unfold hueFill at hfill
    split at hfill
    · decide
    · decide
    · decide
    · decide
    · exact absurd rfl hfill

theorem tokenize_hueSource : ∃ tokens, tokenize hueSource = .ok tokens ∧
    tokens.toList = hueTokens :=
  Except.exists_of_any (by decide +kernel)

theorem compile_hueSource : ∃ schema, compile hueSource = .ok schema ∧ schema.enums ≠ [] :=
  Except.exists_of_any (by decide +kernel)

theorem compile_padded_hue : ∃ tokens, tokenize hueSource = .ok tokens ∧ tokens.toList ≠ [] ∧
    PadsTokens hueFill tokens.toList ∧
    padded hueFill hueSource = "\u3000/*\"//*/enum Hue\x7b//*\x7d\nRED\t=0;\x7d//\x7b\n" ∧
    ∃ schema, compile hueSource = .ok schema ∧
      ∃ schema', compile (padded hueFill hueSource) = .ok schema' ∧
        schema'.bare = schema.bare := by
  obtain ⟨tokens, htokens, heq⟩ := tokenize_hueSource
  obtain ⟨schema, hcompile, -⟩ := compile_hueSource
  have hne : tokens.toList ≠ [] := by
    rw [heq]
    exact List.cons_ne_nil _ _
  have hpads : PadsTokens hueFill tokens.toList := by
    rw [heq]
    exact padsTokens_hueFill
  obtain ⟨hiff, hbare⟩ := compile_padded htokens hne hpads
  obtain ⟨schema', hcompile'⟩ := hiff.mpr ⟨schema, hcompile⟩
  exact ⟨tokens, htokens, hne, hpads, by decide +kernel, schema, hcompile, schema', hcompile',
    hbare schema schema' hcompile hcompile'⟩

end WireCodec
