import WireCodec.Codec.Decode
import WireCodec.Codec.Encode

/-! # Numbers of enum values

An enum table knows the values of an enum by their symbols. It translates each
number and each name as the enum declares them exactly if the names that the
removal of the enum's own name makes equal, or turns into one another, are
names of one number. A declared number is then decoded to a symbol that is
encoded to the same number.
-/

namespace WireCodec

namespace EnumDecl

variable (decl : EnumDecl)

/-- The declared names and their numbers, in order. -/
def declared : List (String × Int32) :=
  decl.values.map fun value => (value.node.name.node, value.node.number.node)

/-- The symbol of a declared name. -/
def symbolOf (name : String) : String := stripEnumName decl.name.node name

/-- Values whose names come to one symbol, or the symbol of one of which is the
name of the other, have one number. -/
def Unambiguous : Prop :=
  ∀ value ∈ decl.declared, ∀ other ∈ decl.declared,
    decl.symbolOf value.1 = decl.symbolOf other.1 ∨ decl.symbolOf value.1 = other.1 →
      value.2 = other.2

instance : Decidable decl.Unambiguous :=
  inferInstanceAs (Decidable (∀ value ∈ decl.declared, ∀ other ∈ decl.declared,
    decl.symbolOf value.1 = decl.symbolOf other.1 ∨ decl.symbolOf value.1 = other.1 →
      value.2 = other.2))

/-- A number has the symbol of the first value declared with it, or none. -/
structure TranslatesNumbers (table : EnumTable) : Prop where
  symbol_of_first : ∀ earlier first later, decl.declared = earlier ++ first :: later →
    (∀ value ∈ earlier, value.2 ≠ first.2) →
      table.symbol? first.2 = some (decl.symbolOf first.1)
  symbol_of_undeclared : ∀ number, (∀ value ∈ decl.declared, value.2 ≠ number) →
    table.symbol? number = none

/-- Names, symbols and numbers are translated as the enum declares them. -/
structure Faithful (table : EnumTable) : Prop extends decl.TranslatesNumbers table where
  number_of_name : ∀ value ∈ decl.declared, table.number? value.1 = some value.2
  number_of_symbol : ∀ value ∈ decl.declared,
    table.number? (decl.symbolOf value.1) = some value.2
  number_back : ∀ value ∈ decl.declared,
    (table.symbol? value.2).bind table.number? = some value.2

end EnumDecl

namespace EnumTable

variable {decl : EnumDecl}

theorem values_ofDecl (decl : EnumDecl) :
    (ofDecl decl).values = decl.declared.map fun value => (decl.symbolOf value.1, value.2) := by
  simp [ofDecl, EnumDecl.declared, EnumDecl.symbolOf]

/-- The number of a symbol is that of the last value declared with it. -/
theorem symbolNumber?_ofDecl (symbol : String) :
    (ofDecl decl).symbolNumber? symbol =
      (decl.declared.reverse.find? (decl.symbolOf ·.1 == symbol)).map (·.2) := by
  unfold symbolNumber?
  rw [values_ofDecl, ← List.map_reverse, List.find?_map, Option.map_map]
  rfl

/-- A number has the symbol of the first value declared with it, or none. -/
theorem symbol?_ofDecl (number : Int32) :
    (ofDecl decl).symbol? number =
      (decl.declared.find? (·.2 == number)).map fun first => decl.symbolOf first.1 := by
  unfold symbol?
  rw [values_ofDecl, List.find?_map, Option.map_map]
  rfl

theorem exists_of_symbolNumber? {symbol : String} {number : Int32}
    (h : (ofDecl decl).symbolNumber? symbol = some number) :
    ∃ value ∈ decl.declared, decl.symbolOf value.1 = symbol ∧ value.2 = number := by
  rw [symbolNumber?_ofDecl] at h
  obtain ⟨value, hvalue, rfl⟩ := Option.map_eq_some_iff.mp h
  exact ⟨value, List.mem_reverse.mp (List.mem_of_find?_eq_some hvalue),
    by simpa using List.find?_some hvalue, rfl⟩

theorem exists_symbolNumber? {value : String × Int32} (hvalue : value ∈ decl.declared) :
    ∃ number, (ofDecl decl).symbolNumber? (decl.symbolOf value.1) = some number := by
  have hfound : (decl.declared.reverse.find?
      (decl.symbolOf ·.1 == decl.symbolOf value.1)).isSome :=
    List.find?_isSome.mpr ⟨value, List.mem_reverse.mpr hvalue, beq_self_eq_true _⟩
  obtain ⟨last, hlast⟩ := Option.isSome_iff_exists.mp hfound
  exact ⟨last.2, by rw [symbolNumber?_ofDecl, hlast, Option.map_some]⟩

theorem exists_symbol?_ofDecl {value : String × Int32} (hvalue : value ∈ decl.declared) :
    ∃ first ∈ decl.declared, first.2 = value.2 ∧
      (ofDecl decl).symbol? value.2 = some (decl.symbolOf first.1) := by
  have hfound : (decl.declared.find? (·.2 == value.2)).isSome :=
    List.find?_isSome.mpr ⟨value, hvalue, beq_self_eq_true _⟩
  obtain ⟨first, hfirst⟩ := Option.isSome_iff_exists.mp hfound
  refine ⟨first, List.mem_of_find?_eq_some hfirst, by simpa using List.find?_some hfirst, ?_⟩
  rw [symbol?_ofDecl, hfirst, Option.map_some]

theorem symbolNumber?_symbolOf (hdecl : decl.Unambiguous) {value : String × Int32}
    (hvalue : value ∈ decl.declared) :
    (ofDecl decl).symbolNumber? (decl.symbolOf value.1) = some value.2 := by
  obtain ⟨number, hnumber⟩ := exists_symbolNumber? hvalue
  obtain ⟨last, hlast, hsymbol, rfl⟩ := exists_of_symbolNumber? hnumber
  rw [hnumber, hdecl last hlast value hvalue (Or.inl hsymbol)]

theorem number?_of_symbolNumber? {table : EnumTable} {symbol : String} {number : Int32}
    (h : table.symbolNumber? symbol = some number) : table.number? symbol = some number := by
  unfold number?
  rw [h]
  rfl

theorem number?_symbolOf (hdecl : decl.Unambiguous) {value : String × Int32}
    (hvalue : value ∈ decl.declared) :
    (ofDecl decl).number? (decl.symbolOf value.1) = some value.2 :=
  number?_of_symbolNumber? (symbolNumber?_symbolOf hdecl hvalue)

theorem number?_name (hdecl : decl.Unambiguous) {value : String × Int32}
    (hvalue : value ∈ decl.declared) : (ofDecl decl).number? value.1 = some value.2 := by
  cases hdirect : (ofDecl decl).symbolNumber? value.1 with
  | none =>
      unfold number?
      rw [hdirect]
      exact symbolNumber?_symbolOf hdecl hvalue
  | some number =>
      -- the name is itself the symbol of a value, which has the same number
      obtain ⟨other, hother, hsymbol, rfl⟩ := exists_of_symbolNumber? hdirect
      rw [number?_of_symbolNumber? hdirect, hdecl other hother value hvalue (Or.inr hsymbol)]

theorem translatesNumbers (decl : EnumDecl) : decl.TranslatesNumbers (ofDecl decl) where
  symbol_of_first earlier first later hsplit hearlier := by
    have hfirst : decl.declared.find? (·.2 == first.2) = some first := by
      refine List.find?_eq_some_iff_append.mpr ⟨beq_self_eq_true _, earlier, later, hsplit, ?_⟩
      intro value hvalue
      simpa using hearlier value hvalue
    rw [symbol?_ofDecl, hfirst, Option.map_some]
  symbol_of_undeclared number hnumber := by
    have hnone : decl.declared.find? (·.2 == number) = none :=
      List.find?_eq_none.mpr fun value hvalue => by simpa using hnumber value hvalue
    rw [symbol?_ofDecl, hnone, Option.map_none]

theorem symbol?_bind_number? (hdecl : decl.Unambiguous) {value : String × Int32}
    (hvalue : value ∈ decl.declared) :
    ∃ symbol, (ofDecl decl).symbol? value.2 = some symbol ∧
      (ofDecl decl).number? symbol = some value.2 := by
  obtain ⟨first, hfirst, hnumber, hsymbol⟩ := exists_symbol?_ofDecl hvalue
  exact ⟨_, hsymbol, hnumber ▸ number?_symbolOf hdecl hfirst⟩

theorem faithful_of_unambiguous (hdecl : decl.Unambiguous) : decl.Faithful (ofDecl decl) where
  toTranslatesNumbers := translatesNumbers decl
  number_of_name _ hvalue := number?_name hdecl hvalue
  number_of_symbol _ hvalue := number?_symbolOf hdecl hvalue
  number_back _ hvalue := by
    obtain ⟨symbol, hsymbol, hnumber⟩ := symbol?_bind_number? hdecl hvalue
    rw [hsymbol, Option.bind_some, hnumber]

theorem unambiguous_of_faithful (h : decl.Faithful (ofDecl decl)) : decl.Unambiguous := by
  intro value hvalue other hother hmeet
  have hown := h.number_of_symbol value hvalue
  rcases hmeet with hsymbol | hname
  · rw [hsymbol, h.number_of_symbol other hother] at hown
    exact (Option.some.inj hown).symm
  · rw [hname, h.number_of_name other hother] at hown
    exact (Option.some.inj hown).symm

/-- Every enum has a table that translates its numbers. The table is faithful
to names and symbols too exactly if the enum is unambiguous, and then decoding
a declared number and encoding what comes of it writes the number again. -/
theorem faithful_ofDecl_iff (decl : EnumDecl) :
    decl.TranslatesNumbers (ofDecl decl) ∧
    (decl.Faithful (ofDecl decl) ↔ decl.Unambiguous) ∧
    (decl.Unambiguous → ∀ (set : PlanSet) (name : String),
      set.enum? name = some (ofDecl decl) → ∀ value ∈ decl.declared,
      ∀ (nested : MessagePlan → Read Record) (field : String) (input : Bytes)
        (before after : Cursor), Read.scalar .int32 input before = .ok value.2 after →
        ∃ symbol, readValue set nested (.enum name) input before =
            .ok (some (.enum symbol)) after ∧
          writeLeaf set field (.enum name) (.enum symbol) =
            Write.put (·.writeScalar .int32 value.2)) := by
  refine ⟨translatesNumbers decl, ⟨unambiguous_of_faithful, faithful_of_unambiguous⟩, ?_⟩
  intro hdecl set name htable value hvalue nested field input before after hread
  obtain ⟨symbol, hsymbol, hnumber⟩ := symbol?_bind_number? hdecl hvalue
  refine ⟨symbol, ?_, ?_⟩
  · simp only [readValue, bind, ReaderT.bind, EStateM.bind, hread, htable, hsymbol]
    rfl
  · simp only [writeLeaf, htable, hnumber]

end EnumTable

/-- An enum `Color` with these values, without source text. -/
def colorDecl (values : List (String × Int32)) : EnumDecl :=
  ⟨.detached "Color", values.map fun value =>
    .detached ⟨.detached value.1, .detached value.2⟩⟩

/-- Two names of one number that come to one symbol. -/
def greensDecl : EnumDecl :=
  colorDecl [("Color_RED", 0), ("GREEN", 1), ("Color_GREEN", 1), ("Colorful", 2)]

def greensSet : PlanSet := ⟨none, [.ofDecl greensDecl], []⟩

theorem faithful_ofDecl_greens :
    greensDecl.Unambiguous ∧ greensDecl.Faithful (.ofDecl greensDecl) ∧
    ∃ symbol, readValue greensSet (fun _ => throw .nestingTooDeep) (.enum "Color") #[1]
        (.start #[1]) = .ok (some (.enum symbol)) ⟨1, 1, 0⟩ ∧
      writeLeaf greensSet "leaf" (.enum "Color") (.enum symbol) =
        Write.put (·.writeScalar .int32 1) := by
  have hdecl : greensDecl.Unambiguous := by decide
  obtain ⟨-, hfaithful, hcodec⟩ := EnumTable.faithful_ofDecl_iff greensDecl
  exact ⟨hdecl, hfaithful.mpr hdecl,
    hcodec hdecl greensSet "Color" rfl ("Color_GREEN", 1) (by decide) _ _ _ _ _ rfl⟩

/-- Two names that come to one symbol. -/
def redsDecl : EnumDecl := colorDecl [("RED", 0), ("Color_RED", 1)]

/-- A name that is the symbol of another one. -/
def nestedRedsDecl : EnumDecl := colorDecl [("Color_RED", 0), ("Color_Color_RED", 1)]

/-- Different names are not enough for a faithful table, since they may come to
one symbol. Different symbols are not enough either. -/
theorem reds_mix_up :
    (redsDecl.declared.map (·.1)).Nodup ∧
    (EnumTable.ofDecl redsDecl).number? "RED" = some 1 ∧
    ¬ redsDecl.Faithful (.ofDecl redsDecl) ∧
    (nestedRedsDecl.declared.map (nestedRedsDecl.symbolOf ·.1)).Nodup ∧
    (EnumTable.ofDecl nestedRedsDecl).number? "Color_RED" = some 1 ∧
    ¬ nestedRedsDecl.Faithful (.ofDecl nestedRedsDecl) := by
  refine ⟨by decide, by decide, ?_, by decide, by decide, ?_⟩
  · exact fun h => absurd (h.number_of_name ("RED", 0) (by decide)) (by decide)
  · exact fun h => absurd (h.number_of_name ("Color_RED", 0) (by decide)) (by decide)

end WireCodec
