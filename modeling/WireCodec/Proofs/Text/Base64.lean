import WireCodec.Text.Base64

/-! # Base 64 texts

Every byte string is read from its base 64 text.
-/

namespace WireCodec.Text.Base64

theorem symbolValue?_symbol {n : Nat} (h : n < 64) : symbolValue? (symbol n) = some n := by
  have hall : ∀ n : Fin 64, symbolValue? (symbol n) = some n.val := by decide
  exact hall ⟨n, h⟩

theorem symbol_ne_padding {n : Nat} (h : n < 64) : symbol n ≠ '=' := by
  have hall : ∀ n : Fin 64, symbol n ≠ '=' := by decide
  exact hall ⟨n, h⟩

/-- The bytes of four symbols, if the last of them is no padding. -/
theorem decodeGroups_group {a b c d : Nat} (ha : a < 64) (hb : b < 64) (hc : c < 64) (hd : d < 64)
    (rest : List Char) :
    decodeGroups (symbol a :: symbol b :: symbol c :: symbol d :: rest) =
      (decodeGroups rest).map fun bytes => UInt8.ofNat (a * 4 + b / 16) ::
        UInt8.ofNat (b % 16 * 16 + c / 4) :: UInt8.ofNat (c % 4 * 64 + d) :: bytes := by
  have hpadding := symbol_ne_padding hd
  rw [decodeGroups, symbolValue?_symbol ha, symbolValue?_symbol hb, symbolValue?_symbol hc,
    symbolValue?_symbol hd]
  · cases decodeGroups rest <;> rfl
  · exact fun _ h _ => hpadding h
  · exact fun h _ => hpadding h

theorem ofNat_of_eq {n : Nat} (byte : UInt8) (h : n = byte.toNat) : UInt8.ofNat n = byte := by
  rw [h, UInt8.ofNat_toNat]

theorem decodeGroups_symbols (bytes : List UInt8) : decodeGroups (symbols bytes) = some bytes := by
  fun_induction symbols bytes with
  | case1 => rfl
  | case2 a =>
      have ha := a.toNat_lt
      rw [decodeGroups, symbolValue?_symbol (by omega), symbolValue?_symbol (by omega)]
      simp only [Option.bind_eq_bind, Option.bind_some]
      rw [if_pos (by omega), ofNat_of_eq a (by omega)]
  | case3 a b =>
      have ha := a.toNat_lt
      have hb := b.toNat_lt
      rw [decodeGroups, symbolValue?_symbol (by omega), symbolValue?_symbol (by omega),
        symbolValue?_symbol (by omega)]
      · simp only [Option.bind_eq_bind, Option.bind_some]
        rw [if_pos (by omega), ofNat_of_eq a (by omega), ofNat_of_eq b (by omega)]
      · exact fun h => symbol_ne_padding (by omega) h
  | case4 a b c rest ih =>
      have ha := a.toNat_lt
      have hb := b.toNat_lt
      have hc := c.toNat_lt
      rw [decodeGroups_group (by omega) (by omega) (by omega) (by omega), ih, Option.map_some,
        ofNat_of_eq a (by omega), ofNat_of_eq b (by omega), ofNat_of_eq c (by omega)]

/-- A byte string is read from its text. -/
theorem decode?_encode (bytes : Bytes) : decode? (encode bytes) = some bytes := by
  unfold decode? encode
  rw [String.toList_ofList, decodeGroups_symbols]
  rfl

end WireCodec.Text.Base64
