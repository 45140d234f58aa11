import WireCodec.Json.Printer
import WireCodec.Json.Reader

/-! # Quoted texts

Every text is read from its quoted form: a character that has to be escaped
comes back from its escape, and any other one from itself.
-/

namespace WireCodec

theorem StringReader.hexValue?_digit {n : Nat} (h : n < 16) :
    hexValue? (Text.Hex.digit n) = some n := by
  have hall : ∀ n : Fin 16, hexValue? (Text.Hex.digit n) = some n.val := by decide
  exact hall ⟨n, h⟩

section Quoted

/-! The reader of JSON reads a quoted text as a value or as a name. -/

variable {wrap : StringReader → JsonReader} {done : String → JsonReader}
  (hstep : ∀ (reader : StringReader) (c : Char), (wrap reader).step? c =
    (reader.step? c).map fun
      | .more reader => wrap reader
      | .closed text => done text)
include hstep

theorem foldlM_more {reader next : StringReader} {c : Char}
    (h : reader.step? c = some (.more next)) (cs : List Char) :
    (c :: cs).foldlM JsonReader.step? (wrap reader) = cs.foldlM JsonReader.step? (wrap next) := by
  rw [List.foldlM_cons, hstep, h]
  rfl

/-- An escape of two characters is read as the character that it stands for. -/
theorem foldlM_letter {letter c : Char} (hletter : letter ≠ 'u')
    (h : StringReader.escaped? letter = some c) (read : List Char) :
    ['\\', letter].foldlM JsonReader.step? (wrap ⟨.plain, read⟩) =
      some (wrap ⟨.plain, c :: read⟩) := by
  have hread : StringReader.step? ⟨.escape, read⟩ letter = some (.more ⟨.plain, c :: read⟩) := by
    simp [StringReader.step?, hletter, h, StringReader.push]
  rw [foldlM_more hstep rfl, foldlM_more hstep hread]
  rfl

/-- The escape of a control character is read as that character. -/
theorem foldlM_unit {c : Char} (hc : c.toNat < 32) (read : List Char) :
    ['\\', 'u', '0', '0', Text.Hex.digit (c.toNat / 16), Text.Hex.digit (c.toNat % 16)].foldlM
      JsonReader.step? (wrap ⟨.plain, read⟩) = some (wrap ⟨.plain, c :: read⟩) := by
  have hhigh := StringReader.hexValue?_digit (n := c.toNat / 16) (by omega)
  have hlow := StringReader.hexValue?_digit (n := c.toNat % 16) (by omega)
  have hthird : StringReader.step? ⟨.unit none 2 0, read⟩ (Text.Hex.digit (c.toNat / 16)) =
      some (.more ⟨.unit none 3 (c.toNat / 16), read⟩) := by
    simp [StringReader.step?, hhigh]
  have hvalue : 16 * (c.toNat / 16) + c.toNat % 16 = c.toNat := Nat.div_add_mod _ _
  have hfourth : StringReader.step? ⟨.unit none 3 (c.toNat / 16), read⟩
      (Text.Hex.digit (c.toNat % 16)) = some (.more ⟨.plain, c :: read⟩) := by
    have hsurrogate : ¬0xD800 ≤ c.toNat := by omega
    have htrail : ¬0xDC00 ≤ c.toNat := by omega
    simp [StringReader.step?, hlow, hvalue, StringReader.pushUnit?, StringReader.push, hsurrogate,
      htrail, Char.ofNat_toNat]
  rw [foldlM_more hstep rfl, foldlM_more hstep rfl, foldlM_more hstep rfl, foldlM_more hstep rfl]
  exact (foldlM_more hstep hthird _).trans (foldlM_more hstep hfourth _)

/-- The escape of a character is read as that character. -/
theorem foldlM_escapeChar (c : Char) (read : List Char) :
    (escapeChar c).foldlM JsonReader.step? (wrap ⟨.plain, read⟩) =
      some (wrap ⟨.plain, c :: read⟩) := by
  unfold escapeChar
  split
  next h => exact foldlM_letter hstep (by decide) (by rw [h]; rfl) read
  split
  next h => exact foldlM_letter hstep (by decide) (by rw [h]; rfl) read
  split
  next h => exact foldlM_letter hstep (by decide) (by rw [h]; rfl) read
  split
  next h => exact foldlM_letter hstep (by decide) (by rw [h]; rfl) read
  split
  next h => exact foldlM_letter hstep (by decide) (by rw [h]; rfl) read
  split
  next h => exact foldlM_letter hstep (by decide) (by rw [h]; rfl) read
  split
  next h => exact foldlM_letter hstep (by decide) (by rw [h]; rfl) read
  split
  next h => exact foldlM_unit hstep h read
  next hquote hbackslash _ _ _ _ _ hcontrol =>
    have hread : StringReader.step? ⟨.plain, read⟩ c = some (.more ⟨.plain, c :: read⟩) := by
      simp [StringReader.step?, StringReader.push, hquote, hbackslash, hcontrol]
    rw [foldlM_more hstep hread]
    rfl

/-- A text is read from its quoted form. -/
theorem foldlM_quoted (s : String) :
    (s.toList.flatMap escapeChar ++ ['"']).foldlM JsonReader.step? (wrap .start) =
      some (done s) := by
  have hall : ∀ (cs read : List Char),
      (cs.flatMap escapeChar ++ ['"']).foldlM JsonReader.step? (wrap ⟨.plain, read⟩) =
        some (done (String.ofList (read.reverse ++ cs))) := by
    intro cs
    induction cs with
    | nil =>
        intro read
        rw [List.flatMap_nil, List.nil_append, List.foldlM_cons, hstep, List.append_nil]
        rfl
    | cons c rest ih =>
        intro read
        rw [List.flatMap_cons, List.append_assoc, List.foldlM_append, foldlM_escapeChar hstep]
        have h := ih (c :: read)
        rw [List.reverse_cons, List.append_assoc] at h
        exact h
  have h := hall s.toList []
  rw [List.reverse_nil, List.nil_append, String.ofList_toList] at h
  exact h

end Quoted

end WireCodec
