import WireCodec.Render.Code
import WireCodec.Render.TypeText

/-! # Enums in generated code

An enum has one variant for each number, named for the symbol that stands for
it.
-/

namespace WireCodec

/-- Whether generated types can be serialized by a framework of the language. -/
inductive DeriveMode where
  | never
  | always
  /-- If a feature is switched on when the code is compiled. -/
  | feature
deriving DecidableEq, Repr

/-- The attribute that makes a type serializable. -/
def DeriveMode.code : DeriveMode → List Code
  | never => []
  | always => [.line "#[derive(serde::Serialize, serde::Deserialize)]"]
  | feature =>
    [.line "#[cfg_attr(feature = \"serde\", derive(serde::Serialize, serde::Deserialize))]"]

namespace EnumTable

variable (table : EnumTable)

/-- The variants of an enum, each with its number. -/
def variants : List (Int × String) :=
  table.canonical.map fun (number, symbol) => (number, variantIdentifier symbol)

/-- The declaration of an enum. -/
def typeCode (mode : DeriveMode) : List Code :=
  .line "#[derive(Debug, Clone, Copy, PartialEq, Eq, Hash)]" :: mode.code ++
    [.braces s!"pub enum {typeIdentifier table.name} "
      (table.variants.map fun (_, variant) => .line s!"{variant},")]

/-- The function from numbers to variants. -/
def fromNumberCode : Code :=
  let name := typeIdentifier table.name
  let arms := table.variants.map fun (number, variant) =>
    Code.line s!"{number} => Some({name}::{variant}),"
  .braces "pub fn from_i32(value: i32) -> Option<Self> "
    [.braces "match value " (arms ++ [.line "_ => None,"])]

/-- The function from variants to numbers. -/
def toNumberCode : Code :=
  let name := typeIdentifier table.name
  let body :=
    match table.variants with
    | [] => .line "match self \x7b\x7d"
    | variants =>
      .braces "match self "
        (variants.map fun (number, variant) => .line s!"{name}::{variant} => {number},")
  .braces "pub fn as_i32(self) -> i32 " [body]

/-- The code of an enum. -/
def code (mode : DeriveMode) : List Code :=
  table.typeCode mode ++
    [.blank,
      .braces s!"impl {typeIdentifier table.name} "
        [table.fromNumberCode, .blank, table.toNumberCode]]

end EnumTable

end WireCodec
