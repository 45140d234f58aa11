import Mathlib.Data.List.Induction
import WireCodec.Text.Decimal

/-! # Decimal texts

A number has one decimal text without superfluous zeros, and it is read from
that text. Any other text that it is read from differs in a plus sign, in zeros
in front, or in a sign of zero.
-/

namespace WireCodec.Text.Decimal

theorem isDigit_iff {c : Char} : c.isDigit = true ↔ 48 ≤ c.toNat ∧ c.toNat ≤ 57 := by
  simp [Char.isDigit, UInt32.le_iff_toNat_le]

theorem digitChar_sub {c : Char} (h : c.isDigit = true) : (c.toNat - 48).digitChar = c := by
  obtain ⟨hlow, hhigh⟩ := isDigit_iff.mp h
  apply Char.toNat_inj.mp
  rw [Nat.toNat_digitChar_of_lt_ten (by omega)]
  omega

theorem digitsFrom?_eq_some {cs : List Char} (h : ∀ c ∈ cs, c.isDigit = true) (n : Nat) :
    digitsFrom? n cs = some (Nat.ofDigitChars 10 cs n) := by
  induction cs generalizing n with
  | nil => rfl
  | cons c rest ih =>
      obtain ⟨hc, hrest⟩ := List.forall_mem_cons.mp h
      rw [digitsFrom?, digitValue?, if_pos (isDigit_iff.mp hc), Nat.ofDigitChars_cons]
      exact ih hrest _

theorem digits?_eq_some {cs : List Char} (hne : cs ≠ []) (h : ∀ c ∈ cs, c.isDigit = true) :
    digits? cs = some (Nat.ofDigitChars 10 cs 0) := by
  cases cs with
  | nil => cases hne rfl
  | cons c rest => exact digitsFrom?_eq_some h 0

theorem le_ofDigitChars (cs : List Char) (n : Nat) : n ≤ Nat.ofDigitChars 10 cs n := by
  induction cs generalizing n with
  | nil => exact Nat.le_refl _
  | cons c rest ih =>
      rw [Nat.ofDigitChars_cons]
      exact Nat.le_trans (by omega) (ih _)

theorem ofDigitChars_pos {c : Char} (hc : c.isDigit = true) (hzero : c ≠ '0') (cs : List Char) :
    0 < Nat.ofDigitChars 10 (c :: cs) 0 := by
  have hne : c.toNat ≠ '0'.toNat := fun h => hzero (Char.toNat_inj.mp h)
  have hlow := (isDigit_iff.mp hc).1
  have hpos : 0 < 10 * 0 + (c.toNat - '0'.toNat) := by
    change c.toNat ≠ 48 at hne
    change 0 < 10 * 0 + (c.toNat - 48)
    omega
  rw [Nat.ofDigitChars_cons]
  exact Nat.lt_of_lt_of_le hpos (le_ofDigitChars cs _)

/-- Digits without a superfluous zero in front. -/
structure IsNumeral (first : Char) (rest : List Char) : Prop where
  digits : ∀ c ∈ first :: rest, c.isDigit = true
  zero : first = '0' → rest = []

/-- A numeral consists of the decimal digits of the number that it stands for. -/
theorem IsNumeral.toDigits_eq {c : Char} {cs : List Char} (h : IsNumeral c cs) :
    Nat.toDigits 10 (Nat.ofDigitChars 10 (c :: cs) 0) = c :: cs := by
  obtain ⟨hdigits, hzero⟩ := h
  induction cs using List.reverseRecOn with
  | nil =>
      have hc := hdigits c List.mem_cons_self
      obtain ⟨hlow, hhigh⟩ := isDigit_iff.mp hc
      have hvalue : Nat.ofDigitChars 10 [c] 0 = c.toNat - 48 := by
        rw [Nat.ofDigitChars_cons, Nat.ofDigitChars_nil, Nat.mul_zero, Nat.zero_add]
        rfl
      rw [hvalue, Nat.toDigits_of_lt_base (by omega), digitChar_sub hc]
  | append_singleton cs d ih =>
      have hne : c ≠ '0' := fun h => by simpa using hzero h
      have hd : d.isDigit = true := hdigits d (by simp)
      have hc : c.isDigit = true := hdigits c List.mem_cons_self
      obtain ⟨hlow, hhigh⟩ := isDigit_iff.mp hd
      have hfront := ih (fun e he => hdigits e (by simp at he ⊢; tauto)) (absurd · hne)
      have hvalue : Nat.ofDigitChars 10 (c :: (cs ++ [d])) 0 =
          10 * Nat.ofDigitChars 10 (c :: cs) 0 + (d.toNat - 48) := by
        rw [← List.cons_append, Nat.ofDigitChars_append, Nat.ofDigitChars_cons,
          Nat.ofDigitChars_nil]
        rfl
      rw [hvalue, ← Nat.toDigits_append_toDigits (by decide) (ofDigitChars_pos hc hne cs)
        (by omega), hfront, Nat.toDigits_of_lt_base (by omega), digitChar_sub hd,
        List.cons_append]

theorem isDigit_of_mem_toDigits {n : Nat} {c : Char} (h : c ∈ Nat.toDigits 10 n) :
    c.isDigit = true :=
  Nat.isDigit_of_mem_toDigits (by decide) (by decide) h

/-- A number is read from its decimal digits. -/
theorem digits?_toDigits (n : Nat) : digits? (Nat.toDigits 10 n) = some n := by
  rw [digits?_eq_some Nat.toDigits_ne_nil fun _ => isDigit_of_mem_toDigits,
    Nat.ofDigitChars_ten_toDigits]

/-- The decimal digits of a number are a numeral. -/
theorem exists_isNumeral (n : Nat) : ∃ c cs, Nat.toDigits 10 n = c :: cs ∧ IsNumeral c cs := by
  induction n using Nat.strongRecOn with
  | ind n ih =>
      by_cases hn : n < 10
      · refine ⟨n.digitChar, [], Nat.toDigits_of_lt_base hn, fun d hd => ?_, fun _ => rfl⟩
        exact isDigit_of_mem_toDigits (Nat.toDigits_of_lt_base hn ▸ hd)
      · obtain ⟨c, cs, hfront, hnumeral⟩ := ih (n / 10) (by omega)
        have heq : Nat.toDigits 10 n = c :: (cs ++ [(n % 10).digitChar]) := by
          rw [Nat.toDigits_of_base_le (by decide) (by omega), hfront, List.cons_append]
        refine ⟨c, _, heq, fun d hd => isDigit_of_mem_toDigits (heq ▸ hd), fun hzero => ?_⟩
        -- the digits in front of the last one stand for a number that is not zero
        have hvalue : n / 10 = 0 := by
          rw [← Nat.ofDigitChars_ten_toDigits (n := n / 10), hfront, hnumeral.zero hzero, hzero]
          rfl
        omega

/-- A text of digits has no sign in front. -/
theorem toDigits_ne_cons {n : Nat} {c : Char} (hc : c.isDigit = false) (cs : List Char) :
    Nat.toDigits 10 n ≠ c :: cs := by
  intro heq
  have hdigit : c.isDigit = true := isDigit_of_mem_toDigits (heq ▸ List.mem_cons_self)
  rw [hc] at hdigit
  cases hdigit

/-- A natural number is read from its text. -/
theorem nat?_toString (n : Nat) : nat? (toString n) = some n := by
  have htext : (toString n).toList = Nat.toDigits 10 n := String.toList_ofList
  unfold nat?
  rw [htext]
  split
  next heq => exact absurd heq (toDigits_ne_cons rfl _)
  next => exact digits?_toDigits n

/-- An integer is read from its text. -/
theorem int?_toString (n : Int) : int? (toString n) = some n := by
  cases n with
  | ofNat n =>
      have htext : (toString (Int.ofNat n)).toList = Nat.toDigits 10 n := String.toList_ofList
      unfold int?
      rw [htext]
      split
      next heq => exact absurd heq (toDigits_ne_cons rfl _)
      next heq => exact absurd heq (toDigits_ne_cons rfl _)
      next => rw [digits?_toDigits]; rfl
  | negSucc n =>
      have htext : (toString (Int.negSucc n)).toList = '-' :: Nat.toDigits 10 (n + 1) := by
        change ("-" ++ Nat.repr (n + 1)).toList = _
        rw [String.toList_append]
        exact congrArg _ String.toList_ofList
      unfold int?
      rw [htext]
      change (fun n => -Int.ofNat n) <$> digits? (Nat.toDigits 10 (n + 1)) = _
      rw [digits?_toDigits]
      rfl

/-! ## Plain texts -/

/-- Digits without superfluous zeros in front. -/
def trimZeros : List Char → List Char
  | '0' :: c :: rest => trimZeros (c :: rest)
  | cs => cs

/-- The text of an integer without a plus sign, without superfluous zeros and
without a sign of zero. -/
def plainText (text : String) : String :=
  match text.toList with
  | '+' :: rest => String.ofList (trimZeros rest)
  | '-' :: rest => if trimZeros rest = ['0'] then "0" else String.ofList ('-' :: trimZeros rest)
  | cs => String.ofList (trimZeros cs)

theorem isDigit_of_digitsFrom? {cs : List Char} {start n : Nat}
    (h : digitsFrom? start cs = some n) : ∀ c ∈ cs, c.isDigit = true := by
  induction cs generalizing start with
  | nil => simp
  | cons c rest ih =>
      obtain ⟨digit, hdigit, hrest⟩ := Option.bind_eq_some_iff.mp h
      refine List.forall_mem_cons.mpr ⟨isDigit_iff.mpr ?_, ih hrest⟩
      unfold digitValue? at hdigit
      split at hdigit
      next hrange => exact hrange
      next => cases hdigit

/-- The decimal digits of a number are those that it is read from, without
superfluous zeros. -/
theorem toDigits_of_digits? {cs : List Char} {n : Nat} (h : digits? cs = some n) :
    Nat.toDigits 10 n = trimZeros cs := by
  induction cs using trimZeros.induct with
  | case1 c rest ih => exact ih h
  | case2 cs hplain =>
      cases cs with
      | nil => cases h
      | cons c rest =>
          have hdigits : ∀ d ∈ c :: rest, d.isDigit = true := isDigit_of_digitsFrom? h
          have hnumeral : IsNumeral c rest := by
            refine ⟨hdigits, fun hzero => ?_⟩
            cases rest with
            | nil => rfl
            | cons d others => exact (hplain d others (by rw [hzero])).elim
          have hvalue : Nat.ofDigitChars 10 (c :: rest) 0 = n :=
            Option.some.inj ((digits?_eq_some (List.cons_ne_nil c rest) hdigits).symm.trans h)
          have hsame : trimZeros (c :: rest) = c :: rest := by
            unfold trimZeros
            split
            next heq => exact (hplain _ _ heq).elim
            next => rfl
          rw [hsame, ← hvalue]
          exact hnumeral.toDigits_eq

section PlainText

variable {text : String} {rest : List Char}

theorem plainText_of_plus (h : text.toList = '+' :: rest) :
    plainText text = String.ofList (trimZeros rest) := by
  unfold plainText
  rw [h]
  rfl

theorem plainText_of_minus (h : text.toList = '-' :: rest) : plainText text =
    if trimZeros rest = ['0'] then "0" else String.ofList ('-' :: trimZeros rest) := by
  unfold plainText
  rw [h]
  rfl

theorem plainText_of_unsigned (hplus : ∀ rest, text.toList = '+' :: rest → False)
    (hminus : ∀ rest, text.toList = '-' :: rest → False) :
    plainText text = String.ofList (trimZeros text.toList) := by
  unfold plainText
  split
  next rest heq => exact (hplus rest heq).elim
  next rest heq => exact (hminus rest heq).elim
  next => rfl

end PlainText

/-- An integer has the plain form of any text that it is read from. -/
theorem toString_of_int? {text : String} {n : Int} (h : int? text = some n) :
    toString n = plainText text := by
  have hnat : ∀ m : Nat, toString (Int.ofNat m) = String.ofList (Nat.toDigits 10 m) := fun _ => rfl
  unfold int? at h
  split at h
  next rest heq =>
    obtain ⟨m, hm, rfl⟩ := Option.map_eq_some_iff.mp h
    rw [hnat, toDigits_of_digits? hm, plainText_of_plus heq]
  next rest heq =>
    obtain ⟨m, hm, rfl⟩ := Option.map_eq_some_iff.mp h
    rw [plainText_of_minus heq, ← toDigits_of_digits? hm]
    cases m with
    | zero => rfl
    | succ m =>
        have hne : Nat.toDigits 10 (m + 1) ≠ ['0'] := by
          intro hzero
          have hvalue := @Nat.ofDigitChars_ten_toDigits (m + 1)
          rw [hzero] at hvalue
          cases hvalue
        have hminus : ("-" ++ String.ofList (Nat.toDigits 10 (m + 1))).toList =
            '-' :: Nat.toDigits 10 (m + 1) := by simp
        rw [if_neg hne, ← hminus, String.ofList_toList]
        rfl
  next hplus hminus =>
    obtain ⟨m, hm, rfl⟩ := Option.map_eq_some_iff.mp h
    rw [hnat, toDigits_of_digits? hm, plainText_of_unsigned hplus hminus]

/-- What is read as a natural number is read as an integer. -/
theorem int?_of_nat? {text : String} {n : Nat} (h : nat? text = some n) :
    int? text = some (Int.ofNat n) := by
  unfold nat? at h
  unfold int?
  split at h
  next rest heq =>
    rw [heq]
    exact congrArg (Int.ofNat <$> ·) h
  next hplus =>
    split
    next rest heq => exact (hplus rest heq).elim
    next rest heq =>
      rw [heq] at h
      cases h
    next => exact congrArg (Int.ofNat <$> ·) h

end WireCodec.Text.Decimal

namespace WireCodec

/-- A word that is made from the numbers in its range stands for the number that it is made
from. -/
theorem word_eq_some_iff {α β : Type} {range : Prop} [Decidable range] {ofNumber : α → β}
    {toNumber : β → α} {n : α} {word : β} (hto : range → toNumber (ofNumber n) = n)
    (hof : ofNumber (toNumber word) = word) (hrange : toNumber word = n → range) :
    (if range then some (ofNumber n) else none) = some word ↔ toNumber word = n := by
  constructor
  · intro h
    obtain ⟨hin, hword⟩ := Option.ite_none_right_eq_some.mp h
    exact Option.some.inj hword ▸ hto hin
  · intro h
    rw [if_pos (hrange h), ← h, hof]

theorem int32?_eq_some {n : Int} {word : Int32} : int32? n = some word ↔ word.toInt = n := by
  refine word_eq_some_iff (fun hrange => ?_) (Int32.ofInt_toInt word) ?_
  · exact Int32.toInt_ofInt_of_le hrange.1 (by omega)
  · rintro rfl
    have hlow := word.le_toInt
    have hhigh := word.toInt_lt
    omega

theorem int32?_toInt (word : Int32) : int32? word.toInt = some word := int32?_eq_some.mpr rfl

theorem int64?_eq_some {n : Int} {word : Int64} : int64? n = some word ↔ word.toInt = n := by
  refine word_eq_some_iff (fun hrange => ?_) (Int64.ofInt_toInt word) ?_
  · exact Int64.toInt_ofInt_of_le hrange.1 (by omega)
  · rintro rfl
    have hlow := word.le_toInt
    have hhigh := word.toInt_lt
    omega

theorem int64?_toInt (word : Int64) : int64? word.toInt = some word := int64?_eq_some.mpr rfl

theorem uint32?_eq_some {n : Nat} {word : UInt32} : uint32? n = some word ↔ word.toNat = n :=
  word_eq_some_iff UInt32.toNat_ofNat_of_lt' UInt32.ofNat_toNat fun h => h ▸ word.toNat_lt

theorem uint32?_toNat (word : UInt32) : uint32? word.toNat = some word := uint32?_eq_some.mpr rfl

theorem uint64?_eq_some {n : Nat} {word : UInt64} : uint64? n = some word ↔ word.toNat = n :=
  word_eq_some_iff UInt64.toNat_ofNat_of_lt' UInt64.ofNat_toNat fun h => h ▸ word.toNat_lt

theorem uint64?_toNat (word : UInt64) : uint64? word.toNat = some word := uint64?_eq_some.mpr rfl

end WireCodec
