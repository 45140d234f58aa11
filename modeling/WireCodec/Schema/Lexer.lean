import WireCodec.Schema.Diagnostic
import WireCodec.Schema.Token
import WireCodec.Text.Characters
import WireCodec.Text.Decimal

/-! # Lexing

A schema text is scanned one character at a time. The state of the scan says
what the characters since the last token belong to, and where that began, so
the span of a token is known when the token is complete.
-/

namespace WireCodec

/-- What the characters since the last token belong to. Directly behind a
line comment the scan is between tokens as well. -/
inductive LexState where
  | between
  | behindComment
  | word (start : Nat) (letters : String)
  | number (start : Nat) (digits : String) (fault : Span)
  | text (start : Nat) (content : String)
  | slash (start : Nat)
  | lineComment
  | blockComment (start : Nat)
  | blockCommentStar (start : Nat)
deriving DecidableEq, Repr

/-- A scan: its state, the byte offset it has come to, and the tokens so far. -/
structure Lexer where
  state : LexState
  position : Nat
  tokens : Array (Spanned Token)
deriving Repr

namespace Lexer

/-- The scan of a text before its first character. -/
def start : Lexer := ⟨.between, 0, #[]⟩

/-- What may stand where a token could begin at an offset. The text may also
end there, unless only white space and comments came before. -/
def expectedAt (lexer : Lexer) (offset : Nat) : List Expectation :=
  [.described "non-zero digit", .literal "0", .literal "\"", .described "identifier"] ++
    Mark.all.map (fun m => .literal m.char.toString) ++
    (if lexer.tokens.isEmpty ∧ 0 < offset then [] else [.endOfInput])

/-- The error for a character that begins no token. -/
def stray (lexer : Lexer) (offset : Nat) (c : Char) : SyntaxError :=
  .unexpected ⟨offset, offset + c.utf8Size⟩ (some c.toString) (lexer.expectedAt offset)

/-- Completes a token. -/
def emit (lexer : Lexer) (token : Token) (start stop : Nat) : Lexer :=
  { lexer with state := .between, tokens := lexer.tokens.push ⟨token, ⟨start, stop⟩⟩ }

/-- The scan in another state, one character further. -/
def advance (lexer : Lexer) (c : Char) (state : LexState) : Lexer :=
  { lexer with state, position := lexer.position + c.utf8Size }

/-- Where a number that begins here is reported if it is too large: at its
first digit, or at the end of the line comment directly before it. -/
def numberFault (lexer : Lexer) : Span :=
  if lexer.state = .behindComment then ⟨lexer.position - 1, lexer.position⟩
  else ⟨lexer.position, lexer.position + 1⟩

/-- Takes a character that does not belong to what came before. -/
def begin (lexer : Lexer) (c : Char) : Except SyntaxError Lexer :=
  if Text.isBlank c then .ok (lexer.advance c .between)
  else if isWordStart c then .ok (lexer.advance c (.word lexer.position c.toString))
  else if c.isDigit then .ok (lexer.advance c (.number lexer.position c.toString lexer.numberFault))
  else if c = '"' then .ok (lexer.advance c (.text lexer.position ""))
  else if c = '/' then .ok (lexer.advance c (.slash lexer.position))
  else
    match Mark.ofChar? c with
    | some m =>
      let next := lexer.advance c .between
      .ok (next.emit (.mark m) lexer.position next.position)
    | none => .error (lexer.stray lexer.position c)

/-- Completes a number that began at an offset. -/
def endNumber (lexer : Lexer) (start : Nat) (digits : String) (fault : Span) :
    Except SyntaxError Lexer :=
  match (Text.Decimal.digits? digits.toList).bind uint32? with
  | some n => .ok (lexer.emit (.int n) start lexer.position)
  | none => .error (.integerTooLarge fault digits)

/-- Takes one character. -/
def step (lexer : Lexer) (c : Char) : Except SyntaxError Lexer :=
  match lexer.state with
  | .between | .behindComment => lexer.begin c
  | .word start letters =>
    if isWordPart c then .ok (lexer.advance c (.word start (letters.push c)))
    else (lexer.emit (Token.ofWord letters) start lexer.position).begin c
  | .number start digits fault =>
    if c.isDigit ∧ digits ≠ "0" then .ok (lexer.advance c (.number start (digits.push c) fault))
    else if isWordPart c then
      .error (.unexpected ⟨lexer.position, lexer.position + c.utf8Size⟩ (some c.toString)
        [.somethingElse])
    else do (← lexer.endNumber start digits fault).begin c
  | .text start content =>
    if c = '"' then
      let next := lexer.advance c .between
      .ok (next.emit (.text content) start next.position)
    else .ok (lexer.advance c (.text start (content.push c)))
  | .slash start =>
    if c = '/' then .ok (lexer.advance c .lineComment)
    else if c = '*' then .ok (lexer.advance c (.blockComment start))
    else .error (lexer.stray start '/')
  | .lineComment => .ok (lexer.advance c (if c = '\n' then .behindComment else .lineComment))
  | .blockComment start =>
    .ok (lexer.advance c (if c = '*' then .blockCommentStar start else .blockComment start))
  | .blockCommentStar start =>
    .ok (lexer.advance c
      (if c = '/' then .between
        else if c = '*' then .blockCommentStar start
        else .blockComment start))

/-- The tokens of a text that may end here. A text that has trivia only is
refused; one that has nothing at all is not. -/
def endBetween (lexer : Lexer) : Except SyntaxError (Array (Spanned Token)) :=
  if lexer.tokens.isEmpty ∧ 0 < lexer.position then
    .error (.unexpected ⟨lexer.position, lexer.position⟩ none
      (.anything :: Mark.all.map (fun m => .literal m.char.toString)))
  else .ok lexer.tokens

/-- Ends the scan, and with it the token it is in. -/
def finish (lexer : Lexer) : Except SyntaxError (Array (Spanned Token)) :=
  match lexer.state with
  | .between | .behindComment | .lineComment => lexer.endBetween
  | .word start letters => .ok (lexer.emit (Token.ofWord letters) start lexer.position).tokens
  | .number start digits fault => do return (← lexer.endNumber start digits fault).tokens
  | .text _ _ =>
    .error (.unexpected ⟨lexer.position, lexer.position⟩ none [.somethingElse, .literal "\""])
  | .slash start | .blockComment start | .blockCommentStar start =>
    .error (lexer.stray start '/')

end Lexer

/-- The tokens of a source text, with their spans. -/
def tokenize (source : String) : Except SyntaxError (Array (Spanned Token)) := do
  (← source.toList.foldlM Lexer.step Lexer.start).finish

end WireCodec
