import Mathlib.Data.List.Nodup
import WireCodec.Proofs.Schema.Lexical
import WireCodec.Proofs.Schema.SourceText
import WireCodec.Render.Identifier

/-! # When identifiers differ

The identifier of a name tells the name, but for a forbidden word: its
identifier is the word with an underscore, which is a name as well. The
identifier of an enum symbol tells its letters and digits, whatever their
case, and which letters begin a part.
-/

namespace WireCodec

/-! ## Names -/

/-- Among some names are a forbidden word and the word with an underscore. -/
def EscapeClash (names : List String) : Prop :=
  ∃ word ∈ forbiddenWords, word ∈ names ∧ word ++ "_" ∈ names

theorem identifier_cases (name : String) :
    name ∈ forbiddenWords ∧ identifier name = name ++ "_" ∨
      name ∈ reservedWords ∧ identifier name = "r#" ++ name ∨ identifier name = name := by
  unfold identifier
  split
  next h => exact .inl ⟨List.contains_iff_mem.mp h, rfl⟩
  next =>
    split
    next h => exact .inr (.inl ⟨List.contains_iff_mem.mp h, rfl⟩)
    next => exact .inr (.inr rfl)

theorem identifier_escaped {word : String} (h : word ∈ forbiddenWords) :
    identifier (word ++ "_") = identifier word := by
  revert word
  decide +kernel

theorem IsWord.hash_not_mem {name : String} (h : IsWord name) : '#' ∉ (name ++ "_").toList := by
  simp only [String.toList_append, List.mem_append]
  rintro (hname | hescape)
  · have hpart := h '#' hname
    revert hpart
    decide
  · revert hescape
    decide

/-- Words have one identifier exactly if they are the same, or one is a forbidden word
and the other this word with an underscore. -/
theorem identifier_eq_iff {name other : String} (hname : IsWord name) (hother : IsWord other) :
    identifier name = identifier other ↔ name = other ∨
      name ∈ forbiddenWords ∧ other = name ++ "_" ∨ other ∈ forbiddenWords ∧ name = other ++ "_" := by
  have hmarked {word marked : String} (hword : IsWord word) :
      "r#" ++ marked ≠ word ∧ "r#" ++ marked ≠ word ++ "_" := by
    constructor <;> intro heq <;> refine hword.hash_not_mem ?_
    · simp [← heq]
    · simp [← heq]
  constructor
  · intro h
    rcases identifier_cases name with ⟨hforbidden, hleft⟩ | ⟨-, hleft⟩ | hleft <;>
      rcases identifier_cases other with ⟨hforbidden', hright⟩ | ⟨-, hright⟩ | hright <;>
      rw [hleft, hright] at h
    · exact .inl ((String.append_left_inj "_").mp h)
    · exact absurd h.symm (hmarked hname).2
    · exact .inr (.inl ⟨hforbidden, h.symm⟩)
    · exact absurd h (hmarked hother).2
    · exact .inl ((String.append_right_inj "r#").mp h)
    · exact absurd h (hmarked hother).1
    · exact .inr (.inr ⟨hforbidden', h⟩)
    · exact absurd h.symm (hmarked hname).1
    · exact .inl h
  · rintro (rfl | ⟨hforbidden, rfl⟩ | ⟨hforbidden, rfl⟩)
    · rfl
    · exact (identifier_escaped hforbidden).symm
    · exact identifier_escaped hforbidden

/-- The identifiers of some words are distinct exactly if the words are, and none of
them is a forbidden word that occurs with an underscore as well. -/
theorem nodup_identifiers_iff {names : List String} (hwords : ∀ name ∈ names, IsWord name) :
    (names.map identifier).Nodup ↔ names.Nodup ∧ ¬EscapeClash names := by
  constructor
  · intro h
    have hnodup := List.Nodup.of_map _ h
    refine ⟨hnodup, ?_⟩
    rintro ⟨word, hforbidden, hword, hescaped⟩
    have hsame := (List.nodup_map_iff_inj_on hnodup).mp h word hword _ hescaped
      (identifier_escaped hforbidden).symm
    have hlength := congrArg String.length hsame
    simp at hlength
  · rintro ⟨hnodup, hclash⟩
    refine (List.nodup_map_iff_inj_on hnodup).mpr fun name hname other hother h => ?_
    rcases (identifier_eq_iff (hwords name hname) (hwords other hother)).mp h with
      hsame | ⟨hforbidden, rfl⟩ | ⟨hforbidden, rfl⟩
    · exact hsame
    · exact absurd ⟨name, hforbidden, hname, hother⟩ hclash
    · exact absurd ⟨other, hforbidden, hother, hname⟩ hclash

/-! ## Symbols -/

/-- The letters and digits of a symbol in lower case, each with whether it is a letter
that begins a part; `start` says whether a part begins here. -/
def partLetters (start : Bool) : List Char → List (Char × Bool)
  | [] => []
  | c :: rest =>
    if c = '_' then partLetters true rest
    else (c.toLower, start && c.isAlpha) :: partLetters false rest

/-- What an identifier keeps of a symbol. A letter goes in front where there would be none. -/
def symbolLetters (symbol : String) : List (Char × Bool) :=
  match partLetters true symbol.toList with
  | [] => [('v', true)]
  | first :: rest => if first.1.isDigit then ('v', true) :: first :: rest else first :: rest

/-- The character of an identifier that keeps a letter or digit. -/
def capital (letter : Char × Bool) : Char := if letter.2 then letter.1.toUpper else letter.1

/-- A digit or a small letter, of which only a letter begins a part. -/
def isPartLetter (letter : Char × Bool) : Bool :=
  isWordPart letter.1 && letter.1 != '_' && !letter.1.isUpper && (!letter.2 || letter.1.isAlpha)

theorem toNat_lt_of_isWordPart {c : Char} (h : isWordPart c = true) : c.toNat < 128 := by
  rw [isWordPart_iff, isWordStart_iff, Text.Decimal.isDigit_iff] at h
  omega

theorem exists_ofNat {c : Char} (h : isWordPart c = true) : ∃ n < 128, c = Char.ofNat n :=
  ⟨c.toNat, toNat_lt_of_isWordPart h, (Char.ofNat_toNat c).symm⟩

/-- A character of an identifier tells the letter it keeps. -/
theorem of_isPartLetter {letter : Char × Bool} (h : isPartLetter letter = true) :
    ((capital letter).toLower, (capital letter).isUpper) = letter ∧
      isWordPart (capital letter) = true ∧ capital letter ≠ '_' ∧
        (capital letter).isDigit = letter.1.isDigit := by
  obtain ⟨c, starts⟩ := letter
  have hpart : isWordPart c = true := by
    simp only [isPartLetter, Bool.and_eq_true] at h
    exact h.1.1.1
  obtain ⟨n, hn, rfl⟩ := exists_ofNat hpart
  revert n starts
  decide +kernel

theorem isPartLetter_toLower {c : Char} (hpart : isWordPart c = true) (hc : c ≠ '_')
    (start : Bool) : isPartLetter (c.toLower, start && c.isAlpha) = true ∧
      capital (c.toLower, start && c.isAlpha) = if start then c.toUpper else c.toLower := by
  obtain ⟨n, hn, rfl⟩ := exists_ofNat hpart
  revert n start
  decide +kernel

theorem titleLetters_eq {letters : List Char} (hparts : ∀ c ∈ letters, isWordPart c = true)
    (start : Bool) : titleLetters start letters = (partLetters start letters).map capital ∧
      ∀ letter ∈ partLetters start letters, isPartLetter letter = true := by
  induction letters generalizing start with
  | nil => simp [titleLetters, partLetters]
  | cons c rest ih =>
      obtain ⟨hpart, hrest⟩ := List.forall_mem_cons.mp hparts
      unfold titleLetters partLetters
      split
      next => exact ih hrest true
      next hc =>
        obtain ⟨hletter, hcapital⟩ := isPartLetter_toLower hpart hc start
        obtain ⟨hmap, hletters⟩ := ih hrest false
        refine ⟨?_, List.forall_mem_cons.mpr ⟨hletter, hletters⟩⟩
        have hlt := toNat_lt_of_isWordPart hpart
        rw [List.map_cons, hcapital, ← hmap]
        simp only [Text.upper, Text.lower, if_pos hlt]
        split <;> rfl

theorem isPartLetter_of_mem_symbolLetters {symbol : String} (h : IsWord symbol) :
    ∀ letter ∈ symbolLetters symbol, isPartLetter letter = true := by
  have hletters := (titleLetters_eq h true).2
  have hv : isPartLetter ('v', true) = true := by decide
  unfold symbolLetters
  split
  next => simpa using hv
  next first rest heq =>
    rw [heq] at hletters
    split
    · exact List.forall_mem_cons.mpr ⟨hv, hletters⟩
    · exact hletters

theorem variantIdentifier_eq {symbol : String} (h : IsWord symbol) :
    variantIdentifier symbol = identifier (.ofList ((symbolLetters symbol).map capital)) := by
  obtain ⟨hmap, hletters⟩ := titleLetters_eq h true
  unfold variantIdentifier symbolLetters
  rw [hmap]
  split
  next heq =>
    rw [List.map_eq_nil_iff.mp heq]
    rfl
  next c rest heq =>
    obtain ⟨first, others, hfirst, rfl, rfl⟩ := List.map_eq_cons_iff.mp heq
    rw [hfirst] at hletters ⊢
    have hdigit := (of_isPartLetter (hletters first List.mem_cons_self)).2.2.2
    dsimp only
    rw [hdigit]
    split <;> rfl

theorem map_capital {letters : List (Char × Bool)}
    (h : ∀ letter ∈ letters, isPartLetter letter = true) :
    (letters.map capital).map (fun c => (c.toLower, c.isUpper)) = letters ∧
      IsWord (.ofList (letters.map capital)) ∧ '_' ∉ letters.map capital := by
  refine ⟨?_, ?_, ?_⟩
  · rw [List.map_map]
    calc letters.map _ = letters.map id :=
          List.map_congr_left fun letter hletter => (of_isPartLetter (h letter hletter)).1
      _ = letters := List.map_id _
  · intro c hc
    rw [String.toList_ofList] at hc
    obtain ⟨letter, hletter, rfl⟩ := List.mem_map.mp hc
    exact (of_isPartLetter (h letter hletter)).2.1
  · intro hescape
    obtain ⟨letter, hletter, heq⟩ := List.mem_map.mp hescape
    exact (of_isPartLetter (h letter hletter)).2.2.1 heq

/-- Two symbols have one identifier exactly if it keeps the same letters of both. -/
theorem variantIdentifier_eq_iff {symbol other : String} (hsymbol : IsWord symbol)
    (hother : IsWord other) : variantIdentifier symbol = variantIdentifier other ↔
      symbolLetters symbol = symbolLetters other := by
  rw [variantIdentifier_eq hsymbol, variantIdentifier_eq hother]
  obtain ⟨hback, hword, hclean⟩ := map_capital (isPartLetter_of_mem_symbolLetters hsymbol)
  obtain ⟨hback', hword', hclean'⟩ := map_capital (isPartLetter_of_mem_symbolLetters hother)
  -- an underscore would have to come from an escape
  have hunescaped : ∀ {name : String} {letters : List Char}, '_' ∉ letters →
      String.ofList letters ≠ name ++ "_" := by
    intro name letters hletters heq
    refine hletters ?_
    rw [← String.toList_ofList (l := letters), heq]
    simp
  rw [identifier_eq_iff hword hword']
  constructor
  · rintro (hsame | ⟨-, hescape⟩ | ⟨-, hescape⟩)
    · rw [← hback, ← hback', String.ofList_inj.mp hsame]
    · exact absurd hescape (hunescaped hclean')
    · exact absurd hescape (hunescaped hclean)
  · intro h
    exact .inl (by rw [h])

end WireCodec
