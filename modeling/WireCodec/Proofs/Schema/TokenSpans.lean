import WireCodec.Proofs.Schema.Lexical

/-! # Spans of tokens

A span marks a part of a source text when it begins and ends between characters
and this part stands from the one place to the other. The tokens of a text have
spans that mark their spellings, one token behind the other.
-/

namespace WireCodec

/-! ## Marked text -/

/-- The text at a span, if both ends of the span lie between characters. -/
def Span.text? (span : Span) (source : String) : Option String :=
  if h : String.Pos.Raw.IsValid source ⟨span.start⟩ ∧ String.Pos.Raw.IsValid source ⟨span.stop⟩ then
    some (source.extract (source.pos ⟨span.start⟩ h.1) (source.pos ⟨span.stop⟩ h.2))
  else none

/-- A span that is not empty, inside the bytes of a text and on the boundaries
of its characters. -/
structure Span.Within (span : Span) (source : String) : Prop where
  lt : span.start < span.stop
  le : span.stop ≤ source.utf8ByteSize
  start : String.Pos.Raw.IsValid source ⟨span.start⟩
  stop : String.Pos.Raw.IsValid source ⟨span.stop⟩

/-- The text at a span is a given one. -/
structure Span.Marks (span : Span) (source text : String) : Prop extends span.Within source where
  text : span.text? source = some text

/-- A span is inside another one. -/
def Span.Contains (whole part : Span) : Prop := whole.start ≤ part.start ∧ part.stop ≤ whole.stop

/-- A span ends where another one begins, or before it. -/
def Span.Before (first second : Span) : Prop := first.stop ≤ second.start

theorem Span.marks_append (before after : String) {text : String} (htext : text ≠ "") :
    Span.Marks ⟨before.utf8ByteSize, before.utf8ByteSize + text.utf8ByteSize⟩
      (before ++ text ++ after) text := by
  have hsize : text.utf8ByteSize ≠ 0 := mt String.utf8ByteSize_eq_zero_iff.mp htext
  have hstart : String.Pos.Raw.IsValid (before ++ text ++ after) ⟨before.utf8ByteSize⟩ :=
    String.Pos.Raw.isValid_iff_exists_append.mpr ⟨before, text ++ after, String.append_assoc, rfl⟩
  have hstop : String.Pos.Raw.IsValid (before ++ text ++ after)
      ⟨before.utf8ByteSize + text.utf8ByteSize⟩ := by
    refine String.Pos.Raw.isValid_iff_exists_append.mpr ⟨before ++ text, after, rfl, ?_⟩
    ext
    simp
  have hbytes : (before ++ text ++ after).toByteArray.extract before.utf8ByteSize
      (before.utf8ByteSize + text.utf8ByteSize) = text.toByteArray := by
    have hrest : (text ++ after).toByteArray.extract 0 text.utf8ByteSize = text.toByteArray := by
      rw [String.toByteArray_append]
      exact ByteArray.extract_append_eq_left String.size_toByteArray.symm
    have hskip := ByteArray.extract_append_size_add (a := before.toByteArray)
      (b := (text ++ after).toByteArray) (i := 0) (j := text.utf8ByteSize)
    rwa [hrest, Nat.add_zero, String.size_toByteArray, ← String.toByteArray_append,
      ← String.append_assoc] at hskip
  refine { lt := ?_, le := ?_, start := hstart, stop := hstop, text := ?_ }
  · exact Nat.lt_add_of_pos_right (Nat.pos_of_ne_zero hsize)
  · rw [String.utf8ByteSize_append, String.utf8ByteSize_append]
    exact Nat.le_add_right _ _
  · rw [text?, dif_pos ⟨hstart, hstop⟩, Option.some.injEq]
    exact String.toByteArray_inj.mp hbytes

/-! ## The spans of tokens -/

/-- The spans of some tokens of a text mark their spellings, in order. -/
structure StandIn (source : String) (tokens : List (Spanned Token)) : Prop where
  marks : ∀ token ∈ tokens, token.span.Marks source token.node.spelling
  ordered : tokens.Pairwise fun first second => first.span.Before second.span

theorem StandIn.sublist {source : String} {tokens part : List (Spanned Token)}
    (h : StandIn source tokens) (hpart : part.Sublist tokens) : StandIn source part :=
  ⟨fun token htoken => h.marks token (hpart.subset htoken), h.ordered.sublist hpart⟩

namespace Lexes

variable {offset : Nat} {chars : List Char} {tokens : List (Spanned Token)}

/-- The tokens of a text stand behind the place where it begins. -/
theorem offset_le (h : Lexes offset chars tokens) :
    ∀ token ∈ tokens, offset ≤ token.span.start ∧ token.span.start ≤ token.span.stop := by
  induction h with
  | done | lastComment => simp
  | trivia _ _ ih =>
      intro token htoken
      obtain ⟨hstart, hstop⟩ := ih token htoken
      exact ⟨Nat.le_trans (Nat.le_add_right _ _) hstart, hstop⟩
  | token _ _ _ ih =>
      refine List.forall_mem_cons.mpr ⟨⟨Nat.le_refl _, Nat.le_add_right _ _⟩, ?_⟩
      intro token htoken
      obtain ⟨hstart, hstop⟩ := ih token htoken
      exact ⟨Nat.le_trans (Nat.le_add_right _ _) hstart, hstop⟩

/-- The tokens of the rest of a text stand in the whole text. -/
theorem standIn_append (h : Lexes offset chars tokens) {before : String}
    (hbefore : before.utf8ByteSize = offset) :
    StandIn (before ++ String.ofList chars) tokens := by
  induction h generalizing before with
  | done | lastComment => exact ⟨by simp, .nil⟩
  | @trivia offset part rest _ _ _ ih =>
      have hsize : (before ++ String.ofList part).utf8ByteSize =
          offset + String.utf8Len part := by
        rw [String.utf8ByteSize_append, String.utf8ByteSize_ofList, hbefore]
      rw [String.ofList_append, ← String.append_assoc]
      exact ih hsize
  | @token offset token rest _ hdistinct _ hrest ih =>
      have hsize : (before ++ token.spelling).utf8ByteSize =
          offset + token.spelling.utf8ByteSize := by
        rw [String.utf8ByteSize_append, hbefore]
      have hspelling : token.spelling ≠ "" := by
        intro hempty
        have hlength := hdistinct.length_pos
        rw [hempty] at hlength
        cases hlength
      have hstand := ih hsize
      rw [String.ofList_append, String.ofList_toList, ← String.append_assoc]
      refine ⟨List.forall_mem_cons.mpr ⟨?_, hstand.marks⟩, .cons ?_ hstand.ordered⟩
      · rw [← hbefore]
        exact Span.marks_append before _ hspelling
      · exact fun other hother => (hrest.offset_le other hother).1

theorem standIn {source : String} (h : Lexes 0 source.toList tokens) : StandIn source tokens := by
  have hstand := h.standIn_append String.utf8ByteSize_empty
  rwa [String.empty_append, String.ofList_toList] at hstand

end Lexes

end WireCodec
