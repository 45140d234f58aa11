import WireCodec.Program.Meaning

/-! # Typed values in programs

A form says how the values of a type are held as single values of a program.
With forms for what is in them, optional values, lists and maps are held by the
fields of a struct, and found there again.
-/

namespace WireCodec.Program

/-- How the values of a type are held. -/
structure Form (μ α : Type) where
  hold : α → Datum μ
  held? : Datum μ → Option α

variable {μ α : Type}

/-- The form of a scalar. -/
def Form.scalar (type : ScalarType) : Form μ type.Carrier where
  hold x := .native (.ofScalar type x)
  held?
    | .native value => value.toScalar? type
    | _ => none

/-- The form of a message. -/
def Form.message : Form μ μ where
  hold := .message
  held?
    | .message inner => some inner
    | _ => none

/-- The form of an enum whose values have the names of its variants. -/
def Form.enum (name : String) (all : List α) (variant : α → String) : Form μ α where
  hold x := .variant name (variant x)
  held?
    | .variant _ found => all.find? (variant · == found)
    | _ => none

namespace Slot

variable (form : Form μ α)

def ofOption (value : Option α) : Slot μ := .option (value.map form.hold)

def ofList (values : List α) : Slot μ := .vec (values.map form.hold)

def ofMap {κ : Type} (toKey : κ → MapKey) (entries : List (κ × α)) : Slot μ :=
  .hashMap (entries.map fun entry => (toKey entry.1, form.hold entry.2))

end Slot

namespace Fields

variable (fields : Fields μ) (name : String) (form : Form μ α)

/-- The value of an optional field, if there is one. -/
def value? : Option α :=
  match fields.slot? name with
  | some (.option (some datum)) => form.held? datum
  | _ => none

/-- The elements of a list field. -/
def elements : List α :=
  match fields.slot? name with
  | some (.vec items) => items.filterMap form.held?
  | _ => []

/-- The entries of a map field, with keys of a scalar type. -/
def entries (key : ScalarType) : List (key.Carrier × α) :=
  match fields.slot? name with
  | some (.hashMap entries) => entries.filterMap fun entry => do
    return (← (Value.ofMapKey entry.1).toScalar? key, ← form.held? entry.2)
  | _ => []

end Fields

end WireCodec.Program
