import WireCodec.Proofs.Floating.Overflow
import WireCodec.Proofs.Json.Numbers
import WireCodec.Proofs.Json.RoundTrip

/-! # Floating-point numbers in JSON

A field of floating-point numbers takes every JSON number and every text of a
double that is not finite: a word for one, in letters of either case, or a
decimal that is too large for a finite double. A JSON number is a finite
double, but a field of singles may make an infinite single of it.
-/

namespace WireCodec

open FloatFormat (double single)

/-! ## Texts -/

/-- An unsigned text of a magnitude that is not finite: the word for a NaN or for
infinity, or a decimal. -/
inductive SpellsMagnitude : Nat → List Char → Prop
  | nan {cs : List Char} (h : cs.map Char.toLower = "nan".toList) :
      SpellsMagnitude double.quietNaN cs
  | infinity {cs : List Char} (h : cs.map Char.toLower = "inf".toList ∨
      cs.map Char.toLower = "infinity".toList) : SpellsMagnitude double.infinity cs
  | decimal {cs : List Char} {x : Decimal} (h : Decimal.ofChars? cs = some x)
      (hlarge : 2 ^ 1024 - 2 ^ 970 ≤ x.value) : SpellsMagnitude double.infinity cs

/-- A text of a double that is not finite, with or without a sign. -/
inductive Binary64.Spells : Binary64 → List Char → Prop
  | plain {magnitude : Nat} {cs : List Char} (h : SpellsMagnitude magnitude cs) :
      Spells (ofMagnitude false magnitude) cs
  | plus {magnitude : Nat} {cs : List Char} (h : SpellsMagnitude magnitude cs) :
      Spells (ofMagnitude false magnitude) ('+' :: cs)
  | minus {magnitude : Nat} {cs : List Char} (h : SpellsMagnitude magnitude cs) :
      Spells (ofMagnitude true magnitude) ('-' :: cs)

theorem toLower_of_isDigit {c : Char} (h : c.isDigit = true) : c.toLower = c := by
  obtain ⟨-, hhigh⟩ := Text.Decimal.isDigit_iff.mp h
  have hupper : ¬(c.val ≥ 'A'.val ∧ c.val ≤ 'Z'.val) := fun hupper => by
    have hlow : 'A'.val.toNat ≤ c.val.toNat := UInt32.le_iff_toNat_le.mp hupper.1
    exact absurd (Nat.le_trans hlow hhigh) (by decide)
  exact dif_neg hupper

/-- A decimal starts with a digit or with a point. -/
theorem Decimal.ofChars?_cons {c : Char} (hdigit : c.isDigit = false) (hpoint : c ≠ '.')
    (rest : List Char) : ofChars? (c :: rest) = none := by
  have hspan : (c :: rest).span Char.isDigit = ([], c :: rest) := by
    simp [List.span, List.span.loop, hdigit]
  unfold ofChars?
  simp only [hspan]
  split
  next heq =>
    cases heq
    exact absurd rfl hpoint
  next => rfl

/-- A word is no decimal. -/
theorem Decimal.ofChars?_word {cs : List Char} {first : Char} {rest : List Char}
    (h : cs.map Char.toLower = first :: rest) (hdigit : first.isDigit = false)
    (hpoint : first ≠ '.') : ofChars? cs = none := by
  obtain ⟨c, tail, rfl, rfl, -⟩ := List.map_eq_cons_iff.mp h
  refine ofChars?_cons ?_ ?_ tail
  · by_contra hc
    rw [Bool.not_eq_false] at hc
    rw [toLower_of_isDigit hc, hc] at hdigit
    cases hdigit
  · rintro rfl
    exact hpoint rfl

theorem Decimal.rounded_eq_some (x : Decimal) {magnitude : Nat} :
    (let rounded := double.ofRatio x.toRatio
      if rounded = double.infinity then some rounded else none) = some magnitude ↔
        2 ^ 1024 - 2 ^ 970 ≤ x.value ∧ double.infinity = magnitude := by
  rw [← x.round_eq_infinity_iff]
  -- the magnitudes are not to be computed
  generalize double.ofRatio x.toRatio = rounded
  generalize double.infinity = infinity
  dsimp only
  rw [Option.ite_none_right_eq_some, Option.some_inj]
  constructor
  · rintro ⟨rfl, rfl⟩
    exact ⟨rfl, rfl⟩
  · rintro ⟨rfl, rfl⟩
    exact ⟨rfl, rfl⟩

theorem nonFiniteMagnitude?_eq_some {cs : List Char} {magnitude : Nat} :
    nonFiniteMagnitude? cs = some magnitude ↔ SpellsMagnitude magnitude cs := by
  have hword : ∀ word : String, String.ofList (cs.map Char.toLower) = word ↔
      cs.map Char.toLower = word.toList := fun word => by
    rw [← String.toList_inj, String.toList_ofList]
  unfold nonFiniteMagnitude?
  simp only [hword]
  split
  next hnan =>
    have hnone := Decimal.ofChars?_word hnan (by decide) (by decide)
    constructor
    · rintro ⟨⟩
      exact .nan hnan
    · rintro (_ | hinf | hdecimal)
      · rfl
      · rw [hnan] at hinf
        exact absurd hinf (by decide)
      · rw [hnone] at hdecimal
        cases hdecimal
  next hnan =>
    split
    next hinf =>
      constructor
      · rintro ⟨⟩
        exact .infinity hinf
      · rintro (hword | _ | _)
        · exact absurd hword hnan
        · rfl
        · rfl
    next hinf =>
      refine Option.bind_eq_some_iff.trans ⟨?_, ?_⟩
      · rintro ⟨x, hx, h⟩
        obtain ⟨hlarge, rfl⟩ := x.rounded_eq_some.mp h
        exact .decimal hx hlarge
      · rintro (hword | hword | ⟨hx, hlarge⟩)
        · exact absurd hword hnan
        · exact absurd hword hinf
        · exact ⟨_, hx, (Decimal.rounded_eq_some _).mpr ⟨hlarge, rfl⟩⟩

/-- A text without a sign starts with no sign. -/
theorem SpellsMagnitude.head {magnitude : Nat} {c : Char} {cs : List Char}
    (h : SpellsMagnitude magnitude (c :: cs)) :
    c.toLower = 'n' ∨ c.toLower = 'i' ∨ c.isDigit = true ∨ c = '.' := by
  cases h with
  | nan h => exact .inl (List.head_eq_of_cons_eq h)
  | infinity h =>
      refine .inr (.inl ?_)
      rcases h with h | h
      · exact List.head_eq_of_cons_eq h
      · exact List.head_eq_of_cons_eq h
  | decimal h =>
      refine .inr (.inr ?_)
      by_contra hother
      obtain ⟨hdigit, hpoint⟩ := not_or.mp hother
      rw [Decimal.ofChars?_cons (Bool.not_eq_true _ ▸ hdigit) hpoint] at h
      cases h

theorem Binary64.ofNonFinite?_eq_some {text : String} {x : Binary64} :
    ofNonFinite? text = some x ↔ x.Spells text.toList := by
  have hmap : ∀ negative cs, ofMagnitude negative <$> nonFiniteMagnitude? cs = some x ↔
      ∃ magnitude, SpellsMagnitude magnitude cs ∧ ofMagnitude negative magnitude = x :=
    fun negative cs => by
      simp only [Option.map_eq_map, Option.map_eq_some_iff, nonFiniteMagnitude?_eq_some]
  unfold ofNonFinite?
  split
  next rest htext =>
    rw [hmap, htext]
    constructor
    · rintro ⟨magnitude, h, rfl⟩
      exact .plus h
    · rintro (h | h)
      · exact absurd h.head (by decide)
      · exact ⟨_, h, rfl⟩
  next rest htext =>
    rw [hmap, htext]
    constructor
    · rintro ⟨magnitude, h, rfl⟩
      exact .minus h
    · rintro (h | _ | h)
      · exact absurd h.head (by decide)
      · exact ⟨_, h, rfl⟩
  next hplus hminus =>
    rw [hmap]
    constructor
    · rintro ⟨magnitude, h, rfl⟩
      exact .plain h
    · intro h
      generalize htext : text.toList = cs at h hplus hminus
      cases h with
      | plain h => exact ⟨_, h, rfl⟩
      | plus => exact absurd rfl (hplus _)
      | minus => exact absurd rfl (hminus _)

/-- What a text spells is not finite. -/
theorem Binary64.Spells.not_isFinite {x : Binary64} {cs : List Char} (h : x.Spells cs) :
    ¬x.isFinite = true := by
  have hall : ∀ negative magnitude cs, SpellsMagnitude magnitude cs →
      ¬(ofMagnitude negative magnitude).isFinite = true := by
    intro negative magnitude cs h
    rw [isFinite_iff]
    cases h with
    | nan =>
        rw [magnitude_ofMagnitude (by decide)]
        decide
    | infinity | decimal =>
        rw [magnitude_ofMagnitude (by decide)]
        exact Nat.lt_irrefl _
  cases h with
  | plain h | plus h | minus h => exact hall _ _ _ h

/-! ## Fields -/

/-- The value of a double in a field of a floating-point type. -/
def Value.ofDouble (type : ScalarType) (x : Binary64) : Value :=
  if type = .float then .float x.narrow else .double x

/-- A value is a finite floating-point number. -/
def Value.IsFinite : Value → Prop
  | .float x => x.isFinite = true
  | .double x => x.isFinite = true
  | _ => False

theorem JsonNumber.isFinite_toDouble {n : JsonNumber} (h : n.Printable) :
    n.toDouble.isFinite = true := by
  cases n with
  | unsigned n =>
      have hlt := n.toNat_lt
      exact Binary64.isFinite_ofInt (by omega)
  | negative n =>
      have hlow := n.le_toInt
      have hhigh := n.toInt_lt
      exact Binary64.isFinite_ofInt (by omega)
  | double x => exact h

/-- Numbers, and texts of doubles that are not finite. -/
theorem Json.toDouble?_eq_some {json : Json} {x : Binary64} : json.toDouble? = some x ↔
    (∃ n, json = .number n ∧ n.toDouble = x) ∨
      ∃ text, json = .string text ∧ x.Spells text.toList := by
  cases json with
  | number n => simp [toDouble?]
  | string text => simp [toDouble?, Binary64.ofNonFinite?_eq_some]
  | _ => simp [toDouble?]

section Fields

variable (set : PlanSet) {type : ScalarType} (hfloat : type = .float ∨ type = .double)
include hfloat

theorem Value.isFinite_ofDouble (x : Binary64) : (Value.ofDouble type x).IsFinite ↔
    x.isFinite = true ∧
      (type = .double ∨ FloatFormat.double.value x.magnitude < 2 ^ 128 - 2 ^ 103) := by
  rcases hfloat with rfl | rfl
  · rw [or_iff_right (by decide), ← Binary64.isFinite_narrow_iff]
    rfl
  · rw [or_iff_left_of_imp (fun _ => rfl), and_iff_left rfl]
    rfl

/-- What a field of a floating-point type makes of a JSON value. -/
theorem Json.toValue_float [Base64Engine] (field : String) (json : Json) :
    json.toValue set field (.single (.scalar type)) =
      match json.toDouble? with
      | some x => .ok (.ofDouble type x)
      | none => .error (.invalid field (.scalar type)) := by
  have hscalar : leafOfJson set field (.single (.scalar type)) json =
      match json.toDouble? with
      | some x => .ok (.ofDouble type x)
      | none => .error (.invalid field (.scalar type)) := by
    unfold leafOfJson
    rcases hfloat with rfl | rfl
    · simp only [toScalar?]
      cases json.toDouble? <;> rfl
    · simp only [toScalar?]
      cases json.toDouble? <;> rfl
  cases json with
  | array | object =>
      simp only [toValue]
      rfl
  | _ => simpa only [toValue] using hscalar

end Fields

theorem fieldsOfJson_single [Base64Engine] {set : PlanSet} {plan : MessagePlan} {name : String}
    {field : FieldPlan} (hfield : plan.field? name = some field) {json : Json}
    (hnull : json ≠ .null) : fieldsOfJson set plan [(name, json)] =
      (json.toValue set name field.room).map fun value => [(name, value)] := by
  unfold fieldsOfJson
  split
  next hnone =>
    rw [hfield] at hnone
    cases hnone
  next other hother =>
    obtain rfl := Option.some.inj (hfield.symm.trans hother)
    split
    next => exact absurd rfl hnull
    next =>
      unfold fieldsOfJson
      cases json.toValue set name field.room <;> rfl

/-- A field of floating-point numbers takes a JSON value other than null exactly
if that is a number or a text of a double that is not finite. A number that is
finite gives a finite double, and a finite single unless it is too large for
one. A text gives a number that is not finite. -/
theorem PlanSet.ofJson_float [Base64Engine] {set : PlanSet} {message : String} {plan : MessagePlan}
    (hplan : set.declared? message = some plan) {name : String} {field : FieldPlan}
    (hfield : plan.field? name = some field) {type : ScalarType}
    (hroom : field.room = .single (.scalar type)) (hfloat : type = .float ∨ type = .double)
    {json : Json} (hnull : json ≠ .null) :
    ((∃ record, set.ofJson message (.object [(name, json)]) = .ok record) ↔
        (∃ n, json = .number n) ∨
          ∃ text x, json = .string text ∧ Binary64.Spells x text.toList) ∧
      (∀ n, json = .number n → n.Printable →
        set.ofJson message (.object [(name, json)]) = .ok [(name, .ofDouble type n.toDouble)] ∧
          n.toDouble.isFinite = true ∧ ((Value.ofDouble type n.toDouble).IsFinite ↔
            type = .double ∨ double.value n.toDouble.magnitude < 2 ^ 128 - 2 ^ 103)) ∧
      ∀ text x, json = .string text → Binary64.Spells x text.toList →
        set.ofJson message (.object [(name, json)]) = .ok [(name, .ofDouble type x)] ∧
          ¬(Value.ofDouble type x).IsFinite := by
  have hvalue := Json.toValue_float set hfloat name json
  have hjson : set.ofJson message (.object [(name, json)]) =
      (json.toValue set name field.room).map fun value => [(name, value)] := by
    simp only [ofJson, hplan]
    exact fieldsOfJson_single hfield hnull
  rw [hroom, hvalue] at hjson
  have hnumber : ∀ n, json = .number n → json.toDouble? = some n.toDouble := fun n h =>
    Json.toDouble?_eq_some.mpr (.inl ⟨n, h, rfl⟩)
  have htext : ∀ text x, json = .string text → Binary64.Spells x text.toList →
      json.toDouble? = some x := fun text x h hspells =>
    Json.toDouble?_eq_some.mpr (.inr ⟨text, h, hspells⟩)
  refine ⟨⟨?_, ?_⟩, ?_, ?_⟩
  · rintro ⟨record, hrecord⟩
    cases hdouble : json.toDouble? with
    | none =>
        rw [hjson, hdouble] at hrecord
        cases hrecord
    | some x =>
        rcases Json.toDouble?_eq_some.mp hdouble with ⟨n, hn, -⟩ | ⟨text, hstring, hspells⟩
        · exact .inl ⟨n, hn⟩
        · exact .inr ⟨text, x, hstring, hspells⟩
  · rintro (⟨n, hn⟩ | ⟨text, x, hstring, hspells⟩)
    · rw [hjson, hnumber n hn]
      exact ⟨_, rfl⟩
    · rw [hjson, htext text x hstring hspells]
      exact ⟨_, rfl⟩
  · intro n hn hprintable
    have hfinite := n.isFinite_toDouble hprintable
    refine ⟨?_, hfinite, ?_⟩
    · rw [hjson, hnumber n hn]
      rfl
    · rw [Value.isFinite_ofDouble hfloat, and_iff_right hfinite]
  · intro text x hstring hspells
    refine ⟨?_, ?_⟩
    · rw [hjson, htext text x hstring hspells]
      rfl
    · rw [Value.isFinite_ofDouble hfloat]
      exact fun h => hspells.not_isFinite h.1

/-- A number that is too large for a single. -/
theorem ofJson_float_level :
    let x : Binary64 := ⟨0x48078287f49c4a1d⟩
    probePlans.ofJson "Probe" (.object [("level", .number (.double x))]) =
        .ok [("level", .float ⟨0x7f800000⟩)] ∧
      x.isFinite = true ∧ 2 ^ 128 - 2 ^ 103 ≤ double.value x.magnitude := by
  intro x
  have hplan : probePlans.declared? "Probe" = some probePlan := rfl
  have hlevel : probePlan.field? "level" =
      some ⟨"level", 3, .optional, .scalar .float, false, false⟩ := rfl
  have hprintable : (JsonNumber.double x).Printable := by
    change x.isFinite = true
    decide +kernel
  have hnumber : (Json.number (.double x)) ≠ .null := nofun
  obtain ⟨hjson, hfinite, hvalue⟩ :=
    (PlanSet.ofJson_float hplan hlevel rfl (.inl rfl) hnumber).2.1 _ rfl hprintable
  have hnarrow : x.narrow = ⟨0x7f800000⟩ := by decide +kernel
  have hinfinite : ¬(Value.ofDouble .float x).IsFinite := by
    change ¬x.narrow.isFinite = true
    rw [hnarrow]
    decide
  refine ⟨?_, hfinite, ?_⟩
  · rw [← hnarrow]
    exact hjson
  · rw [← not_lt]
    exact fun hsmall => hinfinite (hvalue.mpr (.inr hsmall))

/-- A decimal is taken as a text, although it is none of the words for doubles
that are not finite. -/
theorem ofJson_float_mark :
    probePlans.ofJson "Probe" (.object [("mark", .string "1e999")]) =
        .ok [("mark", .double ⟨0x7ff0000000000000⟩)] ∧
      ∀ x : Binary64, x.word ≠ "1e999" := by
  have hmark : probePlan.field? "mark" =
      some ⟨"mark", 1, .optional, .scalar .double, false, false⟩ := rfl
  have hdouble : Binary64.ofNonFinite? "1e999" = some ⟨0x7ff0000000000000⟩ := by decide +kernel
  have hvalue := Json.toValue_float probePlans (.inr rfl) "mark" (.string "1e999")
  simp only [Json.toDouble?, hdouble] at hvalue
  constructor
  · have htext : Json.string "1e999" ≠ .null := nofun
    refine (fieldsOfJson_single hmark htext).trans ?_
    exact congrArg (Except.map fun value => [("mark", value)]) hvalue
  · intro x
    unfold Binary64.word
    split
    · decide
    · split <;> decide

end WireCodec
