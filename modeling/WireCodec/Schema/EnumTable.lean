import WireCodec.Schema.Basic
import WireCodec.Value.Sorted

/-! # Enum tables

The table of an enum translates between symbols and numbers. A symbol is a
declared name without the name of the enum in front. Several symbols may
share a number, of which the first one declared stands for it; a symbol that
is declared twice has the later number.
-/

namespace WireCodec

/-- The symbols of an enum and their numbers, in order of declaration. -/
structure EnumTable where
  name : String
  values : List (String × Int32)
deriving DecidableEq, Repr

/-- A name without the name of its enum and an underscore in front, unless
nothing would be left. -/
def stripEnumName (enum name : String) : String :=
  match (enum.toList ++ ['_']).isPrefixOf? name.toList with
  | some (c :: rest) => String.ofList (c :: rest)
  | _ => name

namespace EnumTable

/-- The table of an enum declaration. -/
def ofDecl (decl : EnumDecl) : EnumTable :=
  ⟨decl.name.node,
    decl.values.map fun value =>
      (stripEnumName decl.name.node value.node.name.node, value.node.number.node)⟩

/-- The number of a symbol, as it was declared last. -/
def symbolNumber? (table : EnumTable) (symbol : String) : Option Int32 :=
  (table.values.reverse.find? (·.1 == symbol)).map (·.2)

/-- The number of a symbol, with or without the name of the enum in front. -/
def number? (table : EnumTable) (symbol : String) : Option Int32 :=
  table.symbolNumber? symbol <|> table.symbolNumber? (stripEnumName table.name symbol)

/-- The symbol that stands for a number. -/
def symbol? (table : EnumTable) (number : Int32) : Option String :=
  (table.values.find? (·.2 == number)).map (·.1)

/-- The numbers in increasing order, each with the symbol that stands for it. -/
def canonical (table : EnumTable) : List (Int × String) :=
  table.values.reverse.foldl
    (fun sorted value => Sorted.insert value.2.toInt value.1 sorted) []

end EnumTable

/-- The tables of the enums of a schema. -/
def Schema.enumTables (schema : Schema) : List EnumTable :=
  schema.enums.map (EnumTable.ofDecl ·.node)

end WireCodec
