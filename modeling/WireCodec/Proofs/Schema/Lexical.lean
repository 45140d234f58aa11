import Mathlib.Data.String.Basic
import WireCodec.Proofs.Outcome
import WireCodec.Proofs.Text.Decimal
import WireCodec.Schema.Lexer

/-! # The tokens of source texts

A source text consists of tokens with white space and comments around them. The
scan finds these tokens, and refuses every other text.
-/

namespace WireCodec

/-! ## Texts -/

/-- A letter or an underscore, with letters, digits and underscores behind it. -/
structure IsIdentifier (letters : List Char) : Prop where
  first : ∃ c ∈ letters.head?, isWordStart c = true
  parts : ∀ c ∈ letters, isWordPart c = true

/-- Whether a token can be told from its spelling. -/
def Token.Distinct : Token → Prop
  | ident name => IsIdentifier name.toList ∧ ∀ word : Keyword, word.text ≠ name
  | text content => '"' ∉ content.toList
  | keyword _ | int _ | mark _ => True

/-- Whether a token ends where some more text begins: a word or a number goes
on as far as there are letters, digits and underscores. -/
def Token.EndsBefore : Token → List Char → Prop
  | keyword _, rest | ident _, rest | int _, rest => ∀ c ∈ rest.head?, isWordPart c = false
  | text _, _ | mark _, _ => True

/-- A part of a text that belongs to no token. -/
inductive Trivia : List Char → Prop
  | blank {c : Char} (h : Text.isBlank c = true) : Trivia [c]
  | lineComment {body : List Char} (h : '\n' ∉ body) : Trivia ('/' :: '/' :: (body ++ ['\n']))
  | blockComment {body : List Char} (h : ¬ ['*', '/'] <:+: body) :
      Trivia ('/' :: '*' :: (body ++ ['*', '/']))

/-- The tokens that a text consists of, which begins at a byte offset. The last
line may end with a comment. -/
inductive Lexes : Nat → List Char → List (Spanned Token) → Prop
  | done {offset : Nat} : Lexes offset [] []
  | lastComment {offset : Nat} {body : List Char} (h : '\n' ∉ body) :
      Lexes offset ('/' :: '/' :: body) []
  | trivia {offset : Nat} {part rest : List Char} {tokens : List (Spanned Token)}
      (hpart : Trivia part) (hrest : Lexes (offset + String.utf8Len part) rest tokens) :
      Lexes offset (part ++ rest) tokens
  | token {offset : Nat} {token : Token} {rest : List Char} {tokens : List (Spanned Token)}
      (hdistinct : token.Distinct) (hends : token.EndsBefore rest)
      (hrest : Lexes (offset + token.spelling.utf8ByteSize) rest tokens) :
      Lexes offset (token.spelling.toList ++ rest)
        (⟨token, offset, offset + token.spelling.utf8ByteSize⟩ :: tokens)

/-! ## Characters and words -/

section Words

variable {c : Char}

theorem isWordStart_iff : isWordStart c = true ↔
    65 ≤ c.toNat ∧ c.toNat ≤ 90 ∨ 97 ≤ c.toNat ∧ c.toNat ≤ 122 ∨ c.toNat = 95 := by
  have halpha : c.isAlpha =
      (decide (65 ≤ c.val ∧ c.val ≤ 90) || (decide (97 ≤ c.val) && decide (c.val ≤ 122))) := rfl
  simp [isWordStart, halpha, ← Char.toNat_inj, UInt32.le_iff_toNat_le, or_assoc]

theorem isWordPart_iff : isWordPart c = true ↔ isWordStart c = true ∨ c.isDigit = true := by
  simp [isWordPart, isWordStart, Char.isAlphanum, or_right_comm]

theorem isBlank_of_isWordPart (h : isWordPart c = true) : Text.isBlank c = false := by
  rw [isWordPart_iff, isWordStart_iff, Text.Decimal.isDigit_iff] at h
  simp only [Text.isBlank, Bool.or_eq_false_iff, Bool.and_eq_false_iff, beq_eq_false_iff_ne,
    decide_eq_false_iff_not]
  omega

theorem isWordStart_of_isDigit (h : c.isDigit = true) : isWordStart c = false := by
  rw [Text.Decimal.isDigit_iff] at h
  refine Bool.eq_false_iff.mpr fun hstart => ?_
  rw [isWordStart_iff] at hstart
  omega

theorem isIdentifier_cons {letters : List Char} (hfirst : isWordStart c = true)
    (hparts : ∀ d ∈ letters, isWordPart d = true) : IsIdentifier (c :: letters) :=
  ⟨⟨c, rfl, hfirst⟩, List.forall_mem_cons.mpr ⟨isWordPart_iff.mpr (.inl hfirst), hparts⟩⟩

theorem IsIdentifier.exists_cons {letters : List Char} (h : IsIdentifier letters) :
    ∃ c rest, letters = c :: rest ∧ isWordStart c = true ∧ ∀ d ∈ rest, isWordPart d = true := by
  obtain ⟨c, hc, hstart⟩ := h.first
  cases letters with
  | nil => cases hc
  | cons d rest =>
      cases hc
      exact ⟨c, rest, rfl, hstart, (List.forall_mem_cons.mp h.parts).2⟩

theorem Keyword.isIdentifier (word : Keyword) : IsIdentifier word.text.toList := by
  cases word <;> exact isIdentifier_cons (by decide) (List.all_eq_true.mp (by decide))

theorem Token.ofWord_text (word : Keyword) : Token.ofWord word.text = .keyword word := by
  cases word <;> decide

theorem Token.ofWord_of_ne {name : String} (h : ∀ word : Keyword, word.text ≠ name) :
    Token.ofWord name = .ident name := by
  have hnone : Keyword.all.find? (·.text == name) = none :=
    List.find?_eq_none.mpr fun word _ heq => h word (eq_of_beq heq)
  rw [Token.ofWord, hnone]

theorem Keyword.mem_all (word : Keyword) : word ∈ Keyword.all := by
  cases word <;> decide

/-- A word spells a keyword or a name. -/
theorem Token.distinct_ofWord {word : String} (h : IsIdentifier word.toList) :
    (Token.ofWord word).Distinct ∧ (Token.ofWord word).spelling = word ∧
      ∀ rest, (Token.ofWord word).EndsBefore rest ↔ ∀ c ∈ rest.head?, isWordPart c = false := by
  unfold Token.ofWord
  split
  next found hfound =>
    have htext := List.find?_some hfound
    exact ⟨trivial, eq_of_beq htext, fun _ => Iff.rfl⟩
  next hnone =>
    refine ⟨⟨h, fun keyword heq => ?_⟩, rfl, fun _ => Iff.rfl⟩
    exact List.find?_eq_none.mp hnone keyword keyword.mem_all (beq_iff_eq.mpr heq)

theorem Token.Distinct.length_pos {token : Token} (h : token.Distinct) :
    0 < token.spelling.toList.length := by
  cases token with
  | keyword word => cases word <;> decide
  | ident name =>
      obtain ⟨c, rest, heq, -⟩ := h.1.exists_cons
      simp [spelling, heq]
  | int n =>
      have hne := Nat.toDigits_ne_nil (n := n.toNat) (b := 10)
      have heq : (Token.int n).spelling.toList = Nat.toDigits 10 n.toNat := Nat.toList_repr
      exact List.length_pos_of_ne_nil (heq ▸ hne)
  | text content => simp [spelling]
  | mark m => simp [spelling]

theorem Trivia.length_pos {part : List Char} (h : Trivia part) : 0 < part.length := by
  cases h <;> simp

theorem Mark.char_of_ofChar? {m : Mark} (h : Mark.ofChar? c = some m) : m.char = c := by
  have hchar := List.find?_some h
  exact eq_of_beq hchar

end Words

namespace Lexer

/-- The tokens that a scan comes to at the end of some more text. -/
def scan (lexer : Lexer) (chars : List Char) : Except SyntaxError (Array (Spanned Token)) := do
  (← chars.foldlM step lexer).finish

variable {lexer : Lexer} {state : LexState} {position start : Nat}
  {tokens : Array (Spanned Token)} {chars rest : List Char} {c : Char}

theorem scan_nil : lexer.scan [] = lexer.finish := rfl

theorem scan_cons : lexer.scan (c :: rest) = lexer.step c >>= (scan · rest) := by
  simp only [scan, List.foldlM_cons, bind_assoc]

theorem scan_cons_of_step {next : Lexer} (h : lexer.step c = .ok next) :
    lexer.scan (c :: rest) = next.scan rest := by
  rw [scan_cons, h, Except.ok_bind]

theorem scan_cons_of_error {e : SyntaxError} (h : lexer.step c = .error e) :
    lexer.scan (c :: rest) = .error e := by
  rw [scan_cons, h, Except.error_bind]

/-- Characters that a state takes one by one. -/
theorem scan_run (state : String → LexState) {allowed : Char → Prop}
    (hstep : ∀ content position c, allowed c → step ⟨state content, position, tokens⟩ c =
      .ok ⟨state (content.push c), position + c.utf8Size, tokens⟩)
    (hchars : ∀ c ∈ chars, allowed c) (content : String) (position : Nat) (rest : List Char) :
    scan ⟨state content, position, tokens⟩ (chars ++ rest) =
      scan ⟨state (content ++ String.ofList chars), position + String.utf8Len chars, tokens⟩
        rest := by
  induction chars generalizing content position with
  | nil => simp
  | cons c chars ih =>
      obtain ⟨hc, hchars⟩ := List.forall_mem_cons.mp hchars
      have hcontent : content.push c ++ String.ofList chars =
          content ++ String.ofList (c :: chars) := by
        apply String.toList_inj.mp
        simp
      rw [List.cons_append, scan_cons_of_step (hstep _ _ _ hc), ih hchars, hcontent,
        String.utf8Len_cons, Nat.add_assoc, Nat.add_comm c.utf8Size]

/-! ### Between tokens -/

section Between

variable (position tokens rest) (hstate : state = .between ∨ state = .behindComment)
include hstate

theorem step_between : step ⟨state, position, tokens⟩ c = begin ⟨state, position, tokens⟩ c := by
  rcases hstate with rfl | rfl <;> rfl

theorem finish_between :
    finish ⟨state, position, tokens⟩ = endBetween ⟨state, position, tokens⟩ := by
  rcases hstate with rfl | rfl <;> rfl

theorem scan_blank (hc : Text.isBlank c = true) :
    scan ⟨state, position, tokens⟩ (c :: rest) =
      scan ⟨.between, position + c.utf8Size, tokens⟩ rest := by
  apply scan_cons_of_step
  rw [step_between _ _ hstate, begin, if_pos hc]
  rfl

/-! ### Words -/

theorem scan_word {letters : List Char} (hletters : IsIdentifier letters)
    (hrest : ∀ c ∈ rest.head?, isWordPart c = false) :
    scan ⟨state, position, tokens⟩ (letters ++ rest) =
      scan ⟨.between, position + String.utf8Len letters, tokens.push
        ⟨Token.ofWord (String.ofList letters), position, position + String.utf8Len letters⟩⟩
        rest := by
  obtain ⟨c, parts, rfl, hc, hparts⟩ := hletters.exists_cons
  have hblank : Text.isBlank c = false := isBlank_of_isWordPart (isWordPart_iff.mpr (.inl hc))
  have hfirst : step ⟨state, position, tokens⟩ c =
      .ok ⟨.word position c.toString, position + c.utf8Size, tokens⟩ := by
    simp [step_between _ _ hstate, begin, hblank, hc, advance]
  have hstep : ∀ letters place d, isWordPart d = true →
      step ⟨.word position letters, place, tokens⟩ d =
        .ok ⟨.word position (letters.push d), place + d.utf8Size, tokens⟩ := by
    intro letters place d hd
    simp [step, hd, advance]
  have hletters : c.toString ++ String.ofList parts = String.ofList (c :: parts) :=
    String.toList_inj.mp (by simp)
  have hplace : position + c.utf8Size + String.utf8Len parts =
      position + String.utf8Len (c :: parts) := by
    rw [String.utf8Len_cons]
    omega
  rw [List.cons_append, scan_cons_of_step hfirst, scan_run _ hstep hparts, hletters, hplace]
  -- a word that ends is a token, before more text as well as at the end of the text
  cases rest with
  | nil => simp [scan_nil, finish, emit, endBetween]
  | cons d rest =>
      have hd : isWordPart d = false := hrest d rfl
      simp [scan_cons, step, hd, emit]

/-! ### Texts in quotes -/

theorem step_quote : step ⟨state, position, tokens⟩ '"' =
    .ok ⟨.text position "", position + 1, tokens⟩ := by
  rw [step_between _ _ hstate]
  rfl

theorem scan_content {content : List Char} (hcontent : '"' ∉ content) :
    scan ⟨state, position, tokens⟩ ('"' :: (content ++ rest)) =
      scan ⟨.text position (String.ofList content), position + 1 + String.utf8Len content, tokens⟩
        rest := by
  have hstep : ∀ letters place d, d ≠ '"' → step ⟨.text position letters, place, tokens⟩ d =
      .ok ⟨.text position (letters.push d), place + d.utf8Size, tokens⟩ := by
    intro letters place d hd
    simp [step, hd, advance]
  have hallowed : ∀ c ∈ content, c ≠ '"' := fun c hc heq => hcontent (heq ▸ hc)
  rw [scan_cons_of_step (step_quote _ _ hstate),
    scan_run _ hstep hallowed, String.empty_append]

theorem scan_text {content : List Char} (hcontent : '"' ∉ content) :
    scan ⟨state, position, tokens⟩ ('"' :: (content ++ '"' :: rest)) =
      scan ⟨.between, position + (String.utf8Len content + 2), tokens.push
        ⟨.text (String.ofList content), position, position + (String.utf8Len content + 2)⟩⟩
        rest := by
  have hplace : position + 1 + String.utf8Len content + 1 =
      position + (String.utf8Len content + 2) := by omega
  rw [scan_content _ _ _ hstate hcontent, ← hplace]
  exact scan_cons_of_step rfl

theorem fails_text (hrest : '"' ∉ rest) :
    ∃ e, scan ⟨state, position, tokens⟩ ('"' :: rest) = .error e := by
  have hscan := scan_content position tokens [] hstate hrest
  rw [List.append_nil] at hscan
  exact ⟨_, hscan⟩

/-! ### Numbers -/

theorem step_digit (hc : c.isDigit = true) : step ⟨state, position, tokens⟩ c =
    .ok ⟨.number position c.toString (numberFault ⟨state, position, tokens⟩),
      position + c.utf8Size, tokens⟩ := by
  have hblank : Text.isBlank c = false := isBlank_of_isWordPart (isWordPart_iff.mpr (.inr hc))
  have hword : isWordStart c = false := isWordStart_of_isDigit hc
  simp [step_between _ _ hstate, begin, hblank, hword, hc, advance]

/-- The digits of a numeral are taken as far as they go. -/
theorem scan_digits {digits : List Char} (h : Text.Decimal.IsNumeral c digits) :
    scan ⟨state, position, tokens⟩ (c :: digits ++ rest) =
      scan ⟨.number position (String.ofList (c :: digits)) (numberFault ⟨state, position, tokens⟩),
        position + String.utf8Len (c :: digits), tokens⟩ rest := by
  obtain ⟨hc, hdigits⟩ := List.forall_mem_cons.mp h.digits
  have hstep : ∀ letters place d, d.isDigit = true ∧ c ≠ '0' →
      step ⟨.number position (c.toString ++ letters) (numberFault ⟨state, position, tokens⟩),
          place, tokens⟩ d =
        .ok ⟨.number position (c.toString ++ letters.push d)
            (numberFault ⟨state, position, tokens⟩), place + d.utf8Size, tokens⟩ := by
    rintro letters place d ⟨hd, hc⟩
    have hne : c.toString ++ letters ≠ "0" := by
      intro heq
      have hlist := congrArg String.toList heq
      simp [hc] at hlist
    have hpush : (c.toString ++ letters).push d = c.toString ++ letters.push d :=
      String.toList_inj.mp (by simp)
    simp only [step]
    rw [if_pos ⟨hd, hne⟩, hpush]
    rfl
  have hallowed : ∀ d ∈ digits, d.isDigit = true ∧ c ≠ '0' := by
    refine fun d hd => ⟨hdigits d hd, fun heq => ?_⟩
    rw [h.zero heq] at hd
    cases hd
  have hplace : position + c.utf8Size + String.utf8Len digits =
      position + String.utf8Len (c :: digits) := by
    rw [String.utf8Len_cons]
    omega
  have hletters : c.toString ++ String.ofList digits = String.ofList (c :: digits) :=
    String.toList_inj.mp (by simp)
  have hrun := scan_run _ hstep hallowed "" (position + c.utf8Size) rest
  rw [String.append_empty, String.empty_append, hletters, hplace] at hrun
  rw [List.cons_append, scan_cons_of_step (step_digit _ _ hstate hc), hrun]

omit hstate in
/-- A number ends where no letter, digit or underscore follows. -/
theorem scan_endNumber {digits : String} {fault : Span}
    (hrest : ∀ c ∈ rest.head?, isWordPart c = false) :
    scan ⟨.number start digits fault, position, tokens⟩ rest =
      endNumber ⟨.number start digits fault, position, tokens⟩ start digits fault >>=
        (scan · rest) := by
  cases rest with
  | nil =>
      simp only [scan_nil, finish, endNumber]
      split
      · simp [emit, endBetween]
      · rfl
  | cons d rest =>
      have hd : isWordPart d = false := hrest d rfl
      have hdigit : d.isDigit = false := by
        refine Bool.eq_false_iff.mpr fun hdigit => ?_
        rw [isWordPart_iff.mpr (.inr hdigit)] at hd
        cases hd
      simp only [scan_cons, step, hd, hdigit, Bool.false_eq_true, false_and, if_false, bind_assoc]
      unfold endNumber
      split <;> rfl

omit hstate in
/-- A number is refused if it does not end where its numeral does. -/
theorem fails_number {digits : List Char} {fault : Span}
    (hdigits : ∀ d ∈ rest.head?, d.isDigit = true → digits = ['0'])
    (hrest : ∃ d ∈ rest.head?, isWordPart d = true) :
    ∃ e, scan ⟨.number start (String.ofList digits) fault, position, tokens⟩ rest = .error e := by
  obtain ⟨d, hd, hpart⟩ := hrest
  cases rest with
  | nil => cases hd
  | cons d rest =>
      cases hd
      refine ⟨_, scan_cons_of_error (e := ?_) ?_⟩
      rotate_left
      simp only [step]
      rw [if_neg, if_pos hpart]
      rintro ⟨hdigit, hne⟩
      exact hne (by rw [hdigits d rfl hdigit])

/-- The number of a numeral, if it fits in 32 bits. -/
theorem scan_int (n : UInt32) (hrest : ∀ c ∈ rest.head?, isWordPart c = false) :
    scan ⟨state, position, tokens⟩ (Nat.toDigits 10 n.toNat ++ rest) =
      scan ⟨.between, position + String.utf8Len (Nat.toDigits 10 n.toNat), tokens.push
        ⟨.int n, position, position + String.utf8Len (Nat.toDigits 10 n.toNat)⟩⟩ rest := by
  obtain ⟨c, digits, heq, hnumeral⟩ := Text.Decimal.exists_isNumeral n.toNat
  have hword : uint32? n.toNat = some n := by
    rw [uint32?, if_pos n.toNat_lt, UInt32.ofNat_toNat]
  have hvalue : (Text.Decimal.digits? (c :: digits)).bind uint32? = some n := by
    rw [← heq, Text.Decimal.digits?_toDigits, Option.bind_some, hword]
  rw [heq, scan_digits _ _ _ hstate hnumeral, scan_endNumber _ _ _ hrest, endNumber,
    String.toList_ofList, hvalue]
  rfl

/-! ### Marks -/

theorem scan_mark (m : Mark) :
    scan ⟨state, position, tokens⟩ (m.char :: rest) =
      scan ⟨.between, position + m.char.utf8Size, tokens.push
        ⟨.mark m, position, position + m.char.utf8Size⟩⟩ rest := by
  apply scan_cons_of_step
  rw [step_between _ _ hstate]
  cases m <;> rfl

/-! ### Comments -/

theorem scan_slash : scan ⟨state, position, tokens⟩ ('/' :: rest) =
    scan ⟨.slash position, position + 1, tokens⟩ rest := by
  apply scan_cons_of_step
  rw [step_between _ _ hstate]
  rfl

theorem scan_lineComment {body : List Char} (hbody : '\n' ∉ body) :
    scan ⟨state, position, tokens⟩ ('/' :: '/' :: (body ++ rest)) =
      scan ⟨.lineComment, position + (String.utf8Len body + 2), tokens⟩ rest := by
  have hstep : ∀ (content : String) place d, d ≠ '\n' → step ⟨.lineComment, place, tokens⟩ d =
      .ok ⟨.lineComment, place + d.utf8Size, tokens⟩ := by
    intro _ place d hd
    simp [step, hd, advance]
  have hallowed : ∀ d ∈ body, d ≠ '\n' := fun d hd heq => hbody (heq ▸ hd)
  have hopen : step ⟨.slash position, position + 1, tokens⟩ '/' =
      .ok ⟨.lineComment, position + 1 + 1, tokens⟩ := rfl
  rw [scan_slash _ _ _ hstate, scan_cons_of_step hopen,
    scan_run (fun _ => .lineComment) hstep hallowed ""]
  congr 2
  omega

end Between

variable (position tokens rest) in
/-- Inside a block comment, text without the two characters that close it. -/
theorem scan_inside {body : List Char} (hbody : ¬ ['*', '/'] <:+: body)
    (hstate : state = .blockComment start ∨ state = .blockCommentStar start ∧
      body.head? ≠ some '/') :
    ∃ last, (last = .blockComment start ∨ last = .blockCommentStar start) ∧
      scan ⟨state, position, tokens⟩ (body ++ rest) =
        scan ⟨last, position + String.utf8Len body, tokens⟩ rest := by
  induction body generalizing state position with
  | nil => exact ⟨state, hstate.imp_right And.left, rfl⟩
  | cons c body ih =>
      rw [List.infix_cons_iff, not_or] at hbody
      obtain ⟨hopen, hbody⟩ := hbody
      obtain ⟨next, hnext, hstep⟩ : ∃ next, (next = .blockComment start ∨
          next = .blockCommentStar start ∧ body.head? ≠ some '/') ∧
          step ⟨state, position, tokens⟩ c = .ok ⟨next, position + c.utf8Size, tokens⟩ := by
        by_cases hstar : c = '*'
        · refine ⟨.blockCommentStar start, .inr ⟨rfl, fun hhead => hopen ?_⟩, ?_⟩
          · obtain ⟨rest, rfl⟩ := List.head?_eq_some_iff.mp hhead
            simp [hstar]
          · rcases hstate with rfl | ⟨rfl, -⟩ <;> simp [step, hstar, advance]
        · refine ⟨.blockComment start, .inl rfl, ?_⟩
          rcases hstate with rfl | ⟨rfl, hhead⟩
          · simp [step, hstar, advance]
          · have hslash : c ≠ '/' := by simpa using hhead
            simp [step, hstar, hslash, advance]
      obtain ⟨last, hlast, hscan⟩ := ih (position + c.utf8Size) hbody hnext
      refine ⟨last, hlast, ?_⟩
      rw [List.cons_append, scan_cons_of_step hstep, hscan, String.utf8Len_cons]
      congr 2
      omega

section Between

variable (position tokens rest) (hstate : state = .between ∨ state = .behindComment)
include hstate

theorem scan_blockComment {body : List Char} (hbody : ¬ ['*', '/'] <:+: body) :
    scan ⟨state, position, tokens⟩ ('/' :: '*' :: (body ++ '*' :: '/' :: rest)) =
      scan ⟨.between, position + (String.utf8Len body + 4), tokens⟩ rest := by
  have hopen : step ⟨.slash position, position + 1, tokens⟩ '*' =
      .ok ⟨.blockComment position, position + 1 + 1, tokens⟩ := rfl
  obtain ⟨last, hlast, hscan⟩ := scan_inside (position + 1 + 1) tokens
    ('*' :: '/' :: rest) hbody (.inl (rfl : LexState.blockComment position = _))
  have hclose : ∀ place, scan ⟨last, place, tokens⟩ ('*' :: '/' :: rest) =
      scan ⟨.between, place + 1 + 1, tokens⟩ rest := by
    intro place
    rcases hlast with rfl | rfl <;>
      exact (scan_cons_of_step rfl).trans (scan_cons_of_step rfl)
  rw [scan_slash _ _ _ hstate, scan_cons_of_step hopen, hscan, hclose]
  congr 2
  omega

theorem fails_blockComment (hrest : ¬ ['*', '/'] <:+: rest) :
    ∃ e, scan ⟨state, position, tokens⟩ ('/' :: '*' :: rest) = .error e := by
  have hopen : step ⟨.slash position, position + 1, tokens⟩ '*' =
      .ok ⟨.blockComment position, position + 1 + 1, tokens⟩ := rfl
  obtain ⟨last, hlast, hscan⟩ := scan_inside (position + 1 + 1) tokens
    [] hrest (.inl (rfl : LexState.blockComment position = _))
  rw [List.append_nil] at hscan
  rw [scan_slash _ _ _ hstate, scan_cons_of_step hopen, hscan]
  rcases hlast with rfl | rfl <;> exact ⟨_, rfl⟩

/-! ### Texts that consist of tokens -/

theorem scan_trivia {part : List Char} (hpart : Trivia part) :
    ∃ next, (next = .between ∨ next = .behindComment) ∧
      scan ⟨state, position, tokens⟩ (part ++ rest) =
        scan ⟨next, position + String.utf8Len part, tokens⟩ rest := by
  cases hpart with
  | blank hc =>
      refine ⟨.between, .inl rfl, ?_⟩
      rw [List.singleton_append, scan_blank _ _ _ hstate hc, String.utf8Len_cons,
        String.utf8Len_nil, Nat.zero_add]
  | @lineComment body hbody =>
      refine ⟨.behindComment, .inr rfl, ?_⟩
      have hend : ∀ place, step ⟨.lineComment, place, tokens⟩ '\n' =
          .ok ⟨.behindComment, place + 1, tokens⟩ := fun _ => rfl
      have hplace : position + (String.utf8Len body + 2) + 1 =
          position + String.utf8Len ('/' :: '/' :: (body ++ ['\n'])) := by
        have hslash : '/'.utf8Size = 1 := rfl
        have hbreak : '\n'.utf8Size = 1 := rfl
        simp only [String.utf8Len_cons, String.utf8Len_append, String.utf8Len_nil, hslash, hbreak,
          Nat.zero_add, Nat.add_assoc]
      rw [List.cons_append, List.cons_append, List.append_assoc,
        scan_lineComment _ _ _ hstate hbody, List.singleton_append, scan_cons_of_step (hend _),
        hplace]
  | @blockComment body hbody =>
      refine ⟨.between, .inl rfl, ?_⟩
      have hplace : position + (String.utf8Len body + 4) =
          position + String.utf8Len ('/' :: '*' :: (body ++ ['*', '/'])) := by
        have hslash : '/'.utf8Size = 1 := rfl
        have hstar : '*'.utf8Size = 1 := rfl
        simp only [String.utf8Len_cons, String.utf8Len_append, String.utf8Len_nil, hslash, hstar,
          Nat.zero_add, Nat.add_assoc]
      rw [List.cons_append, List.cons_append, List.append_assoc, ← hplace]
      exact scan_blockComment _ _ _ hstate hbody

theorem scan_token {token : Token} (hdistinct : token.Distinct) (hends : token.EndsBefore rest) :
    scan ⟨state, position, tokens⟩ (token.spelling.toList ++ rest) =
      scan ⟨.between, position + token.spelling.utf8ByteSize, tokens.push
        ⟨token, position, position + token.spelling.utf8ByteSize⟩⟩ rest := by
  rw [← String.utf8Len_toList]
  cases token with
  | keyword word =>
      have hscan := scan_word position tokens rest hstate
        word.isIdentifier hends
      rwa [String.ofList_toList, Token.ofWord_text] at hscan
  | ident name =>
      obtain ⟨hname, hkeyword⟩ := hdistinct
      have hscan := scan_word position tokens rest hstate hname hends
      rwa [String.ofList_toList, Token.ofWord_of_ne hkeyword] at hscan
  | int n =>
      have hdigits : (Token.int n).spelling.toList = Nat.toDigits 10 n.toNat := Nat.toList_repr
      rw [hdigits]
      exact scan_int _ _ _ hstate n hends
  | text content =>
      have hletters : (Token.text content).spelling.toList =
          '"' :: (content.toList ++ ['"']) := by
        simp [Token.spelling]
      have hsize : String.utf8Len (Token.text content).spelling.toList =
          String.utf8Len content.toList + 2 := by
        have hquote : '"'.utf8Size = 1 := rfl
        simp only [hletters, String.utf8Len_cons, String.utf8Len_append, String.utf8Len_nil,
          hquote, Nat.zero_add, Nat.add_assoc]
      have hscan := scan_text position tokens rest hstate
        hdistinct
      rw [String.ofList_toList] at hscan
      rw [hsize, hletters]
      simpa using hscan
  | mark m =>
      have hsize : String.utf8Len (Token.mark m).spelling.toList = m.char.utf8Size := by
        simp [Token.spelling]
      rw [hsize]
      simpa [Token.spelling] using scan_mark _ _ _ hstate m

end Between

/-- A text may end where no token does, unless it has trivia only. -/
theorem endBetween_eq_ok {found : Array (Spanned Token)} :
    endBetween ⟨state, position, tokens⟩ = .ok found ↔
      found = tokens ∧ (found = #[] → position = 0) := by
  unfold endBetween
  split
  next h =>
    obtain ⟨hempty, hpos⟩ := h
    constructor
    · intro heq
      cases heq
    · rintro ⟨rfl, hzero⟩
      have hzero := hzero (by simpa using hempty)
      dsimp only at hpos
      omega
  next h =>
    constructor
    · intro heq
      cases heq
      refine ⟨rfl, fun hempty => ?_⟩
      by_contra hpos
      exact h ⟨by simpa using hempty, Nat.pos_of_ne_zero hpos⟩
    · rintro ⟨rfl, -⟩
      rfl

/-- The tokens of a text are found. -/
theorem scan_of_lexes (tokens : Array (Spanned Token)) {found : List (Spanned Token)}
    (h : Lexes position chars found)
    (hstate : state = .between ∨ state = .behindComment)
    (hsome : tokens ++ found.toArray = #[] → position + String.utf8Len chars = 0) :
    scan ⟨state, position, tokens⟩ chars = .ok (tokens ++ found.toArray) := by
  induction h generalizing state tokens with
  | done =>
      rw [scan_nil, finish_between _ _ hstate, endBetween_eq_ok]
      simpa using hsome
  | @lastComment position _ hbody =>
      have hscan := scan_lineComment position tokens [] hstate hbody
      rw [List.append_nil] at hscan
      rw [hscan, scan_nil]
      refine endBetween_eq_ok.mpr ⟨by simp, fun hempty => ?_⟩
      -- the text is not empty
      have hzero := hsome hempty
      rw [String.utf8Len_cons] at hzero
      exact absurd (Nat.eq_zero_of_add_eq_zero_left (Nat.eq_zero_of_add_eq_zero_left hzero))
        (by decide)
  | trivia hpart _ ih =>
      obtain ⟨next, hnext, hscan⟩ := scan_trivia _ _ _ hstate hpart
      rw [hscan, ih tokens hnext ?_]
      simpa [Nat.add_assoc] using hsome
  | token hdistinct hends _ ih =>
      rw [scan_token _ _ _ hstate hdistinct hends, ih _ (.inl rfl) (by simp)]
      simp

/-- A text begins with the longest part of some characters. -/
theorem exists_longest (allowed : Char → Bool) (chars : List Char) :
    ∃ front rest, chars = front ++ rest ∧ (∀ c ∈ front, allowed c = true) ∧
      ∀ c ∈ rest.head?, allowed c = false := by
  induction chars with
  | nil => exact ⟨[], [], rfl, by simp, by simp⟩
  | cons c chars ih =>
      by_cases hc : allowed c = true
      · obtain ⟨front, rest, rfl, hfront, hrest⟩ := ih
        exact ⟨c :: front, rest, rfl, List.forall_mem_cons.mpr ⟨hc, hfront⟩, hrest⟩
      · exact ⟨[], c :: chars, rfl, by simp, by simpa using hc⟩

theorem exists_numeral (hc : c.isDigit = true) (chars : List Char) :
    ∃ digits rest, chars = digits ++ rest ∧ Text.Decimal.IsNumeral c digits ∧
      ∀ d ∈ rest.head?, d.isDigit = true → c :: digits = ['0'] := by
  by_cases hzero : c = '0'
  · exact ⟨[], chars, rfl, ⟨by simpa using hc, fun _ => rfl⟩, fun _ _ _ => by rw [hzero]⟩
  · obtain ⟨digits, rest, rfl, hdigits, hrest⟩ := exists_longest Char.isDigit chars
    refine ⟨digits, rest, rfl, ⟨List.forall_mem_cons.mpr ⟨hc, hdigits⟩, (absurd · hzero)⟩, ?_⟩
    intro d hd hdigit
    rw [hrest d hd] at hdigit
    cases hdigit

/-- Text after a slash is in a comment that ends, or there is an end to the text first. -/
theorem exists_close (chars : List Char) : ¬ ['*', '/'] <:+: chars ∨
    ∃ body rest, chars = body ++ '*' :: '/' :: rest ∧ ¬ ['*', '/'] <:+: body := by
  induction chars with
  | nil => exact .inl (by simp)
  | cons c chars ih =>
      by_cases hcloses : ['*', '/'] <+: c :: chars
      · obtain ⟨rest, hrest⟩ := hcloses
        exact .inr ⟨[], rest, hrest.symm, by simp⟩
      rcases ih with hnone | ⟨body, rest, rfl, hbody⟩
      · exact .inl fun h => (List.infix_cons_iff.mp h).elim hcloses hnone
      · refine .inr ⟨c :: body, rest, rfl, fun h => ?_⟩
        refine (List.infix_cons_iff.mp h).elim (fun hstart => hcloses ?_) hbody
        exact hstart.trans (List.prefix_append (c :: body) ('*' :: '/' :: rest))

section Parts

variable {found : Array (Spanned Token)} (hstate : state = .between ∨ state = .behindComment)
  (hscan : scan ⟨state, position, tokens⟩ (c :: chars) = .ok found)
include hstate hscan

/-- A text that begins with a digit begins with a number, unless it is refused. -/
theorem exists_int (hc : c.isDigit = true) :
    ∃ (n : UInt32) (rest : List Char), c :: chars = Nat.toDigits 10 n.toNat ++ rest ∧
      ∀ d ∈ rest.head?, isWordPart d = false := by
  obtain ⟨digits, rest, rfl, hnumeral, hmore⟩ := exists_numeral hc chars
  rw [← List.cons_append, scan_digits _ _ _ hstate hnumeral] at hscan
  have hrest : ∀ d ∈ rest.head?, isWordPart d = false := by
    intro d hd
    refine Bool.eq_false_iff.mpr fun hpart => ?_
    obtain ⟨e, hfails⟩ := fails_number _ _ _ hmore ⟨d, hd, hpart⟩
    rw [hfails] at hscan
    cases hscan
  rw [scan_endNumber _ _ _ hrest] at hscan
  obtain ⟨next, hnext, -⟩ := Except.bind_eq_ok.mp hscan
  unfold endNumber at hnext
  rw [String.toList_ofList, Text.Decimal.digits?_eq_some (by simp) hnumeral.digits,
    Option.bind_some, uint32?] at hnext
  split at hnext
  next n hn =>
    split at hn
    next hlt =>
      cases hn
      refine ⟨UInt32.ofNat (Nat.ofDigitChars 10 (c :: digits) 0), rest, ?_, hrest⟩
      rw [UInt32.toNat_ofNat_of_lt' hlt, hnumeral.toDigits_eq, List.cons_append]
    next => cases hn
  next => cases hnext

theorem exists_part :
    (∃ body, c :: chars = '/' :: '/' :: body ∧ '\n' ∉ body) ∨
    (∃ part rest, Trivia part ∧ c :: chars = part ++ rest) ∨
    ∃ (token : Token) (rest : List Char), token.Distinct ∧ token.EndsBefore rest ∧
      c :: chars = token.spelling.toList ++ rest := by
  by_cases hblank : Text.isBlank c = true
  · exact .inr (.inl ⟨[c], chars, .blank hblank, rfl⟩)
  by_cases hword : isWordStart c = true
  · obtain ⟨letters, rest, rfl, hletters, hrest⟩ := exists_longest isWordPart chars
    have hident := isIdentifier_cons hword hletters
    rw [← String.toList_ofList (l := c :: letters)] at hident
    obtain ⟨hdistinct, hspelling, hends⟩ := Token.distinct_ofWord hident
    refine .inr (.inr ⟨_, rest, hdistinct, (hends rest).mpr hrest, ?_⟩)
    rw [hspelling, String.toList_ofList, List.cons_append]
  by_cases hdigit : c.isDigit = true
  · obtain ⟨n, rest, heq, hrest⟩ := exists_int hstate hscan hdigit
    refine .inr (.inr ⟨.int n, rest, trivial, hrest, ?_⟩)
    rw [heq]
    exact congrArg (· ++ rest) Nat.toList_repr.symm
  by_cases hquote : c = '"'
  · subst hquote
    by_cases hmem : '"' ∈ chars
    · obtain ⟨content, rest, rfl, hcontent⟩ := List.eq_append_cons_of_mem hmem
      have hdistinct : (Token.text (String.ofList content)).Distinct := by simpa [Token.Distinct]
      refine .inr (.inr ⟨_, rest, hdistinct, trivial, ?_⟩)
      simp [Token.spelling]
    · obtain ⟨e, he⟩ := fails_text position tokens _ hstate hmem
      rw [he] at hscan
      cases hscan
  by_cases hslash : c = '/'
  · subst hslash
    rw [scan_slash _ _ _ hstate] at hscan
    cases chars with
    | nil => cases hscan
    | cons d chars =>
        by_cases hline : d = '/'
        · subst hline
          by_cases hmem : '\n' ∈ chars
          · obtain ⟨body, rest, rfl, hbody⟩ := List.eq_append_cons_of_mem hmem
            exact .inr (.inl ⟨_, rest, .lineComment hbody, by simp⟩)
          · exact .inl ⟨chars, rfl, hmem⟩
        by_cases hblock : d = '*'
        · subst hblock
          rcases exists_close chars with hnone | ⟨body, rest, rfl, hbody⟩
          · obtain ⟨e, he⟩ := fails_blockComment position tokens _ hstate hnone
            rw [scan_slash _ _ _ hstate, hscan] at he
            cases he
          · exact .inr (.inl ⟨_, rest, .blockComment hbody, by simp⟩)
        · rw [scan_cons_of_error] at hscan
          cases hscan
          simp only [step]
          rw [if_neg hline, if_neg hblock]
  cases hmark : Mark.ofChar? c with
  | some m =>
      refine .inr (.inr ⟨.mark m, chars, trivial, trivial, ?_⟩)
      simp [Token.spelling, Mark.char_of_ofChar? hmark]
  | none =>
      rw [scan_cons_of_error] at hscan
      cases hscan
      rw [step_between _ _ hstate, begin, if_neg hblank, if_neg hword, if_neg hdigit, if_neg hquote,
        if_neg hslash, hmark]

end Parts

/-- A text that is not refused consists of the tokens that are found. -/
theorem lexes_of_scan {found : Array (Spanned Token)}
    (hstate : state = .between ∨ state = .behindComment)
    (hscan : scan ⟨state, position, tokens⟩ chars = .ok found) :
    ∃ more, found = tokens ++ more.toArray ∧ Lexes position chars more ∧
      (found = #[] → position + String.utf8Len chars = 0) := by
  induction hlength : chars.length using Nat.strongRecOn
    generalizing state position tokens chars with
  | ind length ih =>
      cases chars with
      | nil =>
          rw [scan_nil, finish_between _ _ hstate] at hscan
          obtain ⟨rfl, hzero⟩ := endBetween_eq_ok.mp hscan
          exact ⟨[], by simp, .done, hzero⟩
      | cons c chars =>
          rcases exists_part hstate hscan with ⟨body, heq, hbody⟩ | ⟨part, rest, hpart, heq⟩ |
            ⟨token, rest, hdistinct, hends, heq⟩
          · have hcomment := scan_lineComment position tokens [] hstate hbody
            rw [List.append_nil] at hcomment
            rw [heq, hcomment] at hscan
            obtain ⟨rfl, hzero⟩ := endBetween_eq_ok.mp hscan
            rw [heq]
            refine ⟨[], by simp, .lastComment hbody, fun hempty => ?_⟩
            exact absurd (hzero hempty) (by omega)
          · have hshort : rest.length < length := by
              rw [← hlength, heq, List.length_append]
              have := hpart.length_pos
              omega
            obtain ⟨next, hnext, htrivia⟩ := scan_trivia position tokens rest hstate hpart
            rw [heq, htrivia] at hscan
            obtain ⟨more, hmore, hlexes, hzero⟩ := ih rest.length hshort hnext hscan rfl
            rw [heq, String.utf8Len_append, ← Nat.add_assoc]
            exact ⟨more, hmore, .trivia hpart hlexes, hzero⟩
          · have hshort : rest.length < length := by
              rw [← hlength, heq, List.length_append]
              have := hdistinct.length_pos
              omega
            rw [heq, scan_token _ _ _ hstate hdistinct hends] at hscan
            obtain ⟨more, hmore, hlexes, -⟩ := ih rest.length hshort (.inl rfl) hscan rfl
            rw [heq]
            exact ⟨_, by simpa using hmore, .token hdistinct hends hlexes, by simp [hmore]⟩

end Lexer

/-- The scan finds the tokens that a text consists of. It refuses a text that
has nothing but trivia. -/
theorem tokenize_eq_ok {source : String} {tokens : Array (Spanned Token)} :
    tokenize source = .ok tokens ↔
      Lexes 0 source.toList tokens.toList ∧ (source = "" ∨ tokens.toList ≠ []) := by
  have hend : (source = "" ∨ tokens.toList ≠ []) ↔
      (tokens = #[] → 0 + String.utf8Len source.toList = 0) := by
    rw [Nat.zero_add, String.utf8Len_eq_zero, String.toList_eq_nil_iff, Ne,
      Array.toList_eq_nil_iff]
    tauto
  rw [hend]
  constructor
  · intro h
    obtain ⟨more, rfl, hlexes, hzero⟩ := Lexer.lexes_of_scan (.inl rfl) h
    exact ⟨by simpa using hlexes, hzero⟩
  · rintro ⟨hlexes, hzero⟩
    have hscan := Lexer.scan_of_lexes #[] hlexes (.inl (rfl : LexState.between = _))
      (by simpa only [Array.empty_append, Array.toArray_toList] using hzero)
    rwa [Array.empty_append, Array.toArray_toList] at hscan

end WireCodec
