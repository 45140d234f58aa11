import WireCodec.Proofs.Json.Texts
import WireCodec.Proofs.Text.Decimal

/-! # Number texts

Every number is read from its text: an integer as itself, and a double as the
product or the quotient of its digits and its power of ten.
-/

namespace WireCodec

open Text.Decimal

namespace NumberReader

variable {negative : Bool}

theorem step?_digit {c : Char} (hc : c.isDigit = true) (phase : NumberPhase) :
    step? ⟨negative, phase⟩ c =
      (phase.digit? (c.toNat - '0'.toNat)).map fun phase => ⟨negative, phase⟩ := by
  unfold step?
  rw [digitValue?, if_pos (isDigit_iff.mp hc)]
  rfl

/-- A number starts with a digit. -/
theorem isDigit_of_step?_start {reader : NumberReader} {c : Char}
    (h : step? ⟨negative, .start⟩ c = some reader) : c.isDigit = true := by
  by_contra hc
  have hnone : digitValue? c = none := if_neg (mt isDigit_iff.mpr hc)
  simp [step?, hnone, NumberPhase.point?, NumberPhase.mark?, NumberPhase.sign?] at h

theorem appendDigit?_eq_some {n digit : Nat} (h : 10 * n + digit < UInt64.size) :
    appendDigit? n digit = some (10 * n + digit) := if_pos h

/-! ## Runs of digits -/

theorem foldlM_integer {cs : List Char} (hcs : ∀ c ∈ cs, c.isDigit = true) {n : Nat}
    (hfits : Nat.ofDigitChars 10 cs n < UInt64.size) :
    cs.foldlM step? ⟨negative, .integer n⟩ =
      some ⟨negative, .integer (Nat.ofDigitChars 10 cs n)⟩ := by
  induction cs generalizing n with
  | nil => rfl
  | cons c rest ih =>
      obtain ⟨hc, hrest⟩ := List.forall_mem_cons.mp hcs
      rw [Nat.ofDigitChars_cons] at hfits ⊢
      have hmore := Nat.lt_of_le_of_lt (le_ofDigitChars rest _) hfits
      rw [List.foldlM_cons, step?_digit hc, NumberPhase.digit?, appendDigit?_eq_some hmore]
      exact ih hrest hfits

theorem foldlM_fraction {cs : List Char} (hcs : ∀ c ∈ cs, c.isDigit = true) {n : Nat}
    {exponent : Int} (hfits : Nat.ofDigitChars 10 cs n < UInt64.size) :
    cs.foldlM step? ⟨negative, .fraction n exponent⟩ =
      some ⟨negative, .fraction (Nat.ofDigitChars 10 cs n) (exponent - cs.length)⟩ := by
  induction cs generalizing n exponent with
  | nil => simp
  | cons c rest ih =>
      obtain ⟨hc, hrest⟩ := List.forall_mem_cons.mp hcs
      rw [Nat.ofDigitChars_cons] at hfits ⊢
      have hmore := Nat.lt_of_le_of_lt (le_ofDigitChars rest _) hfits
      have hexponent : exponent - (c :: rest).length = exponent - 1 - rest.length := by
        rw [List.length_cons]
        omega
      rw [List.foldlM_cons, step?_digit hc, NumberPhase.digit?, appendDigit?_eq_some hmore,
        hexponent]
      exact ih hrest hfits

/-- A point and the digits behind it. -/
theorem foldlM_point {cs : List Char} (hcs : ∀ c ∈ cs, c.isDigit = true) (hne : cs ≠ []) {n : Nat}
    {phase : NumberPhase} (hpoint : phase.point? = some (.point n 0))
    (hfits : Nat.ofDigitChars 10 cs n < UInt64.size) :
    ('.' :: cs).foldlM step? ⟨negative, phase⟩ =
      some ⟨negative, .fraction (Nat.ofDigitChars 10 cs n) (-cs.length)⟩ := by
  have hstep : step? ⟨negative, phase⟩ '.' = some ⟨negative, .point n 0⟩ := by
    change phase.point?.map _ = _
    rw [hpoint]
    rfl
  rw [List.foldlM_cons, hstep]
  cases cs with
  | nil => cases hne rfl
  | cons c rest =>
      obtain ⟨hc, hrest⟩ := List.forall_mem_cons.mp hcs
      rw [Nat.ofDigitChars_cons] at hfits ⊢
      have hmore := Nat.lt_of_le_of_lt (le_ofDigitChars rest _) hfits
      have hexponent : -((c :: rest).length : Int) = ((0 : Nat) : Int) - 1 - rest.length := by
        rw [List.length_cons]
        omega
      change (c :: rest).foldlM step? ⟨negative, .point n 0⟩ = _
      rw [List.foldlM_cons, step?_digit hc, NumberPhase.digit?, appendDigit?_eq_some hmore,
        hexponent]
      exact foldlM_fraction hrest hfits

theorem foldlM_power {cs : List Char} (hcs : ∀ c ∈ cs, c.isDigit = true) {n digits : Nat}
    {exponent : Int} {down : Bool} :
    cs.foldlM step? ⟨negative, .power n exponent down digits⟩ =
      some ⟨negative, .power n exponent down (Nat.ofDigitChars 10 cs digits)⟩ := by
  induction cs generalizing digits with
  | nil => rfl
  | cons c rest ih =>
      obtain ⟨hc, hrest⟩ := List.forall_mem_cons.mp hcs
      rw [List.foldlM_cons, step?_digit hc, Nat.ofDigitChars_cons]
      exact ih hrest

/-- An exponent with its sign. -/
theorem foldlM_mark {n : Nat} {exponent : Int} {phase : NumberPhase}
    (hmark : phase.mark? = some (.mark n exponent)) (power : Int) :
    ('e' :: (if power < 0 then '-' else '+') :: digitsOf power.natAbs).foldlM step?
      ⟨negative, phase⟩ =
        some ⟨negative, .power n exponent (decide (power < 0)) power.natAbs⟩ := by
  have hstep : step? ⟨negative, phase⟩ 'e' = some ⟨negative, .mark n exponent⟩ := by
    change phase.mark?.map _ = _
    rw [hmark]
    rfl
  have hsign : step? ⟨negative, .mark n exponent⟩ (if power < 0 then '-' else '+') =
      some ⟨negative, .sign n exponent (decide (power < 0))⟩ := by
    by_cases h : power < 0
    · simp only [h, if_true, decide_true]
      rfl
    · simp only [h, if_false, decide_false]
      rfl
  rw [List.foldlM_cons, hstep]
  change (_ :: digitsOf power.natAbs).foldlM step? ⟨negative, .mark n exponent⟩ = _
  rw [List.foldlM_cons, hsign]
  change (digitsOf power.natAbs).foldlM step? ⟨negative, .sign n exponent _⟩ = _
  have hvalue : Nat.ofDigitChars 10 (digitsOf power.natAbs) 0 = power.natAbs :=
    Nat.ofDigitChars_ten_toDigits
  obtain ⟨c, cs, hdigits, hnumeral⟩ := exists_isNumeral power.natAbs
  change digitsOf power.natAbs = c :: cs at hdigits
  obtain ⟨hc, hcs⟩ := List.forall_mem_cons.mp hnumeral.digits
  rw [hdigits, Nat.ofDigitChars_cons, Nat.mul_zero, Nat.zero_add] at hvalue
  rw [hdigits, List.foldlM_cons, step?_digit hc]
  change cs.foldlM step? ⟨negative, .power n exponent _ (c.toNat - '0'.toNat)⟩ = _
  rw [foldlM_power hcs, hvalue]

/-- Digits of which the first one is not zero. -/
theorem foldlM_start {c : Char} {cs : List Char} (hcs : ∀ d ∈ c :: cs, d.isDigit = true)
    (hzero : c ≠ '0') (hfits : Nat.ofDigitChars 10 (c :: cs) 0 < UInt64.size) :
    (c :: cs).foldlM step? ⟨negative, .start⟩ =
      some ⟨negative, .integer (Nat.ofDigitChars 10 (c :: cs) 0)⟩ := by
  obtain ⟨hc, hrest⟩ := List.forall_mem_cons.mp hcs
  have hne : c.toNat - '0'.toNat ≠ 0 := by
    have hpos := ofDigitChars_pos hc hzero []
    rw [Nat.ofDigitChars_cons, Nat.ofDigitChars_nil, Nat.mul_zero, Nat.zero_add] at hpos
    omega
  rw [Nat.ofDigitChars_cons, Nat.mul_zero, Nat.zero_add] at hfits ⊢
  rw [List.foldlM_cons, step?_digit hc, NumberPhase.digit?, if_neg hne]
  exact foldlM_integer hrest hfits

end NumberReader

/-! ## Decimals -/

/-- The digits of a decimal that is not zero are a numeral without a zero in
front. -/
theorem exists_digitsOf {n : Nat} (hpos : 0 < n) : ∃ c cs, digitsOf n = c :: cs ∧ c ≠ '0' ∧
    (∀ d ∈ c :: cs, d.isDigit = true) ∧ Nat.ofDigitChars 10 (c :: cs) 0 = n := by
  obtain ⟨c, cs, hdigits, hnumeral⟩ := exists_isNumeral n
  have hvalue : Nat.ofDigitChars 10 (c :: cs) 0 = n := hdigits ▸ Nat.ofDigitChars_ten_toDigits
  refine ⟨c, cs, hdigits, fun hzero => ?_, hnumeral.digits, hvalue⟩
  rw [hnumeral.zero hzero, hzero] at hvalue
  exact Nat.ne_of_gt hpos hvalue.symm

theorem ofDigitChars_zeros (count n : Nat) :
    Nat.ofDigitChars 10 (List.replicate count '0') n = n * 10 ^ count := by
  induction count generalizing n with
  | zero => simp
  | succ count ih =>
      rw [List.replicate_succ, Nat.ofDigitChars_cons, ih, Nat.pow_succ]
      simp
      ring

/-- A text is read as the digits and the power of ten of a decimal. -/
def Decimal.ReadFrom (x : Decimal) (cs : List Char) : Prop :=
  ∀ negative : Bool, ∃ reader : NumberReader,
    cs.foldlM NumberReader.step? ⟨negative, .start⟩ = some reader ∧
      reader.finish? = NumberReader.ofScaled? negative x.digits x.exponent

namespace Decimal

/-- The digits in front of an exponent, with a point behind the first one if
there are more. -/
def mantissa : List Char → List Char
  | first :: second :: rest => first :: '.' :: second :: rest
  | digits => digits

theorem scientificText_eq (x : Decimal) : x.scientificText = mantissa (digitsOf x.digits) ++
    'e' :: (if x.place < 0 then '-' else '+') :: digitsOf x.place.natAbs := by
  unfold scientificText mantissa
  rcases digitsOf x.digits with _ | ⟨_, _ | _⟩ <;> rfl

variable {x : Decimal} (hpos : 0 < x.digits) (hdigits : x.digits ≤ 10 ^ 18)
include hpos hdigits

/-- A whole number is read with the zero behind its point. -/
theorem readFrom_whole (hexponent : 0 ≤ x.exponent) (hplace : x.place ≤ plainPlaces.2) :
    x.printed.ReadFrom
      (digitsOf x.digits ++ List.replicate x.exponent.toNat '0' ++ ['.', '0']) := by
  intro negative
  have hfits := printed_digits_lt hdigits
  rw [printed, if_pos ⟨hexponent, hplace⟩] at hfits ⊢
  dsimp only at hfits
  obtain ⟨c, cs, htext, hzero, hcs, hvalue⟩ := exists_digitsOf hpos
  have hall : ∀ d ∈ c :: (cs ++ List.replicate x.exponent.toNat '0'), d.isDigit = true := by
    intro d hd
    rw [← List.cons_append, List.mem_append] at hd
    rcases hd with hd | hd
    · exact hcs d hd
    · rw [List.eq_of_mem_replicate hd]
      rfl
  have hwhole : Nat.ofDigitChars 10 (c :: (cs ++ List.replicate x.exponent.toNat '0')) 0 =
      x.digits * 10 ^ x.exponent.toNat := by
    rw [← List.cons_append, Nat.ofDigitChars_append, hvalue, ofDigitChars_zeros]
  have hstart := @NumberReader.foldlM_start negative _ _ hall hzero (by rw [hwhole]; omega)
  have hmore : Nat.ofDigitChars 10 ['0'] (x.digits * 10 ^ x.exponent.toNat) =
      10 * (x.digits * 10 ^ x.exponent.toNat) := by
    rw [Nat.ofDigitChars_cons, Nat.ofDigitChars_nil]
    rfl
  have hpoint := @NumberReader.foldlM_point negative ['0'] (by simp) (by simp)
    (x.digits * 10 ^ x.exponent.toNat) (.integer (x.digits * 10 ^ x.exponent.toNat)) rfl
    (by rw [hmore]; exact hfits)
  refine ⟨⟨negative, .fraction (10 * (x.digits * 10 ^ x.exponent.toNat)) (-1)⟩, ?_, rfl⟩
  rw [htext, List.cons_append, List.foldlM_append, hstart, hwhole]
  rw [hmore] at hpoint
  exact hpoint

/-- The digits with a point among them. -/
theorem readFrom_split (hexponent : ¬0 ≤ x.exponent) (hplace : 0 ≤ x.place) :
    x.ReadFrom ((digitsOf x.digits).take (x.place.toNat + 1) ++
      '.' :: (digitsOf x.digits).drop (x.place.toNat + 1)) := by
  intro negative
  have hsize : x.digits < UInt64.size := Nat.lt_of_le_of_lt hdigits (by decide)
  have hcount : x.place = x.exponent + (digitsOf x.digits).length - 1 := rfl
  obtain ⟨c, cs, htext, hzero, hcs, hvalue⟩ := exists_digitsOf hpos
  rw [htext, List.length_cons] at hcount
  rw [htext, List.take_succ_cons, List.drop_succ_cons]
  generalize hwhole : x.place.toNat = whole
  have hsplit : Nat.ofDigitChars 10 (cs.drop whole)
      (Nat.ofDigitChars 10 (c :: cs.take whole) 0) = x.digits := by
    rw [← Nat.ofDigitChars_append, List.cons_append, List.take_append_drop, hvalue]
  have hfront : Nat.ofDigitChars 10 (c :: cs.take whole) 0 < UInt64.size := by
    have hle := le_ofDigitChars (cs.drop whole) (Nat.ofDigitChars 10 (c :: cs.take whole) 0)
    omega
  have hlength : -((cs.drop whole).length : Int) = x.exponent := by
    rw [List.length_drop]
    omega
  have hne : cs.drop whole ≠ [] := by
    rw [Ne, ← List.length_eq_zero_iff]
    omega
  obtain ⟨hc, hrest⟩ := List.forall_mem_cons.mp hcs
  have hstart := @NumberReader.foldlM_start negative c (cs.take whole)
    (List.forall_mem_cons.mpr ⟨hc, fun d hd => hrest d (List.mem_of_mem_take hd)⟩) hzero hfront
  have hpoint := @NumberReader.foldlM_point negative (cs.drop whole)
    (fun d hd => hrest d (List.mem_of_mem_drop hd)) hne _ (.integer _) rfl (hsplit ▸ hsize)
  refine ⟨⟨negative, .fraction x.digits x.exponent⟩, ?_, rfl⟩
  rw [List.foldlM_append, hstart]
  rw [hsplit, hlength] at hpoint
  exact hpoint

omit hpos in
/-- The digits behind a point and zeros. -/
theorem readFrom_zeros (hplace : ¬0 ≤ x.place) :
    x.ReadFrom ('0' :: '.' :: List.replicate (-x.place - 1).toNat '0' ++ digitsOf x.digits) := by
  intro negative
  have hsize : x.digits < UInt64.size := Nat.lt_of_le_of_lt hdigits (by decide)
  have hcount : x.place = x.exponent + (digitsOf x.digits).length - 1 := rfl
  have hlength : -((List.replicate (-x.place - 1).toNat '0' ++ digitsOf x.digits).length : Int) =
      x.exponent := by
    rw [List.length_append, List.length_replicate]
    omega
  have hvalue : Nat.ofDigitChars 10
      (List.replicate (-x.place - 1).toNat '0' ++ digitsOf x.digits) 0 = x.digits := by
    rw [Nat.ofDigitChars_append, ofDigitChars_zeros, Nat.zero_mul]
    exact Nat.ofDigitChars_ten_toDigits
  have hall : ∀ d ∈ List.replicate (-x.place - 1).toNat '0' ++ digitsOf x.digits,
      d.isDigit = true := by
    intro d hd
    rcases List.mem_append.mp hd with hd | hd
    · rw [List.eq_of_mem_replicate hd]
      rfl
    · exact isDigit_of_mem_toDigits hd
  have hne : List.replicate (-x.place - 1).toNat '0' ++ digitsOf x.digits ≠ [] :=
    List.append_ne_nil_of_right_ne_nil _ Nat.toDigits_ne_nil
  have hpoint := @NumberReader.foldlM_point negative _ hall hne 0 .zero rfl (by rwa [hvalue])
  refine ⟨⟨negative, .fraction x.digits x.exponent⟩, ?_, rfl⟩
  rw [hvalue, hlength] at hpoint
  exact hpoint

theorem readFrom_scientific : x.ReadFrom x.scientificText := by
  intro negative
  have hsize : x.digits < UInt64.size := Nat.lt_of_le_of_lt hdigits (by decide)
  have hcount : x.place = x.exponent + (digitsOf x.digits).length - 1 := rfl
  obtain ⟨c, cs, htext, hzero, hcs, hvalue⟩ := exists_digitsOf hpos
  rw [htext, List.length_cons] at hcount
  -- the mantissa ends in a phase that an exponent may follow
  obtain ⟨phase, hmantissa, hmark⟩ : ∃ phase : NumberPhase,
      (mantissa (c :: cs)).foldlM NumberReader.step? ⟨negative, .start⟩ =
        some ⟨negative, phase⟩ ∧ phase.mark? = some (.mark x.digits (-cs.length)) := by
    cases cs with
    | nil =>
        have hstart := @NumberReader.foldlM_start negative c [] hcs hzero (hvalue ▸ hsize)
        exact ⟨_, hstart, by rw [hvalue]; rfl⟩
    | cons second rest =>
        obtain ⟨hc, hrest⟩ := List.forall_mem_cons.mp hcs
        have hsplit : Nat.ofDigitChars 10 (second :: rest) (Nat.ofDigitChars 10 [c] 0) =
            x.digits := by
          rw [← Nat.ofDigitChars_append, List.singleton_append, hvalue]
        have hle := le_ofDigitChars (second :: rest) (Nat.ofDigitChars 10 [c] 0)
        have hstart := @NumberReader.foldlM_start negative c []
          (List.forall_mem_cons.mpr ⟨hc, by simp⟩) hzero (by omega)
        have hpoint := @NumberReader.foldlM_point negative (second :: rest) hrest (by simp) _
          (.integer _) rfl (hsplit ▸ hsize)
        refine ⟨.fraction x.digits (-(second :: rest).length), ?_, rfl⟩
        rw [hsplit] at hpoint
        change ([c] ++ '.' :: second :: rest).foldlM NumberReader.step? _ = _
        rw [List.foldlM_append, hstart]
        exact hpoint
  have hpower := @NumberReader.foldlM_mark negative _ _ _ hmark x.place
  refine ⟨⟨negative, .power x.digits (-cs.length) (decide (x.place < 0)) x.place.natAbs⟩, ?_, ?_⟩
  · rw [scientificText_eq, htext, List.foldlM_append, hmantissa]
    exact hpower
  · have hexponent : (if decide (x.place < 0) = true then -(cs.length : Int) - x.place.natAbs
        else -(cs.length : Int) + x.place.natAbs) = x.exponent := by
      simp only [decide_eq_true_eq]
      split <;> omega
    unfold NumberReader.finish?
    dsimp only
    rw [hexponent]

/-- The text of a decimal is read as the decimal that stands in it. -/
theorem readFrom_text : x.printed.ReadFrom x.text := by
  unfold text
  split
  next hplain =>
    unfold plainText
    dsimp only
    split
    next hexponent => exact readFrom_whole hpos hdigits hexponent hplain.2
    next hexponent =>
      rw [printed, if_neg fun h => hexponent h.1]
      split
      next hplace => exact readFrom_split hpos hdigits hexponent hplace
      next hplace => exact readFrom_zeros hdigits hplace
  next hfar =>
    have hplain : ¬(0 ≤ x.exponent ∧ x.place ≤ plainPlaces.2) := by
      rintro ⟨hexponent, hplace⟩
      have hlength : 0 < (digitsOf x.digits).length := Nat.length_toDigits_pos
      refine hfar ⟨?_, hplace⟩
      unfold place
      change (-5 : Int) ≤ _
      omega
    rw [printed, if_neg hplain]
    exact readFrom_scientific hpos hdigits

end Decimal

/-! ## Numbers -/

namespace JsonNumber

/-- A number is read from a text with or without a minus sign. -/
def ReadFrom (n : JsonNumber) (text : List Char) : Prop :=
  ∃ (negative : Bool) (cs : List Char) (reader : NumberReader),
    text = (if negative then '-' :: cs else cs) ∧
      cs.foldlM NumberReader.step? ⟨negative, .start⟩ = some reader ∧ reader.finish? = some n

theorem readFrom_unsigned (n : UInt64) : (unsigned n).ReadFrom (unsigned n).text := by
  rcases Nat.eq_zero_or_pos n.toNat with hzero | hpos
  · obtain rfl : n = 0 := UInt64.toNat_inj.mp hzero
    exact ⟨false, ['0'], ⟨false, .zero⟩, rfl, rfl, rfl⟩
  · obtain ⟨c, cs, hdigits, hzero, hcs, hvalue⟩ := exists_digitsOf hpos
    have hstart := @NumberReader.foldlM_start false c cs hcs hzero (hvalue ▸ n.toNat_lt)
    refine ⟨false, c :: cs, _, hdigits, hstart, ?_⟩
    rw [hvalue]
    change some (unsigned (UInt64.ofNat n.toNat)) = _
    rw [UInt64.ofNat_toNat]

theorem readFrom_negative {n : Int64} (h : n < 0) : (negative n).ReadFrom (negative n).text := by
  have hneg : n.toInt < 0 := Int64.lt_iff_toInt_lt.mp h
  have hlow := n.le_toInt
  obtain ⟨c, cs, hdigits, hzero, hcs, hvalue⟩ := exists_digitsOf (Int.natAbs_pos.mpr hneg.ne)
  have hfits : n.toInt.natAbs < UInt64.size := by
    change _ < 18446744073709551616
    omega
  have hstart := @NumberReader.foldlM_start true c cs hcs hzero (hvalue ▸ hfits)
  refine ⟨true, c :: cs, _, congrArg ('-' :: ·) hdigits, hstart, ?_⟩
  have hrange : 0 < n.toInt.natAbs ∧ n.toInt.natAbs ≤ 0x8000000000000000 := by omega
  have hvalue' : -(n.toInt.natAbs : Int) = n.toInt := by omega
  rw [hvalue]
  change some (NumberReader.ofInteger true n.toInt.natAbs) = _
  rw [NumberReader.ofInteger, if_pos rfl, if_pos hrange, hvalue', Int64.ofInt_toInt]

theorem readFrom_double {x : Binary64} (h : x.isFinite = true) :
    (double x.reread).ReadFrom (double x).text := by
  have hread : ∀ cs reader, x.text = (if x.isNegative then '-' :: cs else cs) →
      cs.foldlM NumberReader.step? ⟨x.isNegative, .start⟩ = some reader →
      reader.finish? = some (double x.reread) → (double x.reread).ReadFrom (double x).text :=
    fun cs reader htext hfold hfinish => ⟨x.isNegative, cs, reader, htext, hfold, hfinish⟩
  by_cases hzero : x.magnitude = 0
  · refine hread ['0', '.', '0'] ⟨x.isNegative, .fraction 0 (-1)⟩ ?_ ?_ ?_
    · rw [Binary64.text, if_pos hzero]
    · cases x.isNegative <;> rfl
    · have hscaled : scaledMagnitude? 0 (-1) = some 0 := by decide +kernel
      have hx := x.ofMagnitude_isNegative_magnitude
      rw [hzero] at hx
      change NumberReader.ofScaled? x.isNegative 0 (-1) = _
      rw [NumberReader.ofScaled?, hscaled, Option.map_some, hx, Binary64.reread, if_pos hzero]
  · have hpos := Nat.pos_of_ne_zero hzero
    have hdigits := FloatFormat.shortest_digits_pos hpos
    have hle := (FloatFormat.shortest_found hpos).digits_le
    obtain ⟨reader, hfold, hfinish⟩ := Decimal.readFrom_text hdigits hle x.isNegative
    refine hread _ reader ?_ hfold ?_
    · rw [Binary64.text, if_neg hzero]
    · rw [hfinish, NumberReader.ofScaled?, Decimal.scaledMagnitude?_printed hdigits hle
        (FloatFormat.shortest_le_top hpos (Binary64.isFinite_iff.mp h)), Option.map_some,
        Binary64.reread, if_neg hzero]

/-- A number is read from its text, but for what rounding does to a double. -/
theorem readFrom_text {n : JsonNumber} (h : n.Printable) :
    (n.mapDouble Binary64.reread).ReadFrom n.text := by
  cases n with
  | unsigned n => exact readFrom_unsigned n
  | negative n => exact readFrom_negative h
  | double x => exact readFrom_double h

end JsonNumber

end WireCodec
