/-! # Sorted association lists

Associations of keys to values, kept in increasing order of the keys. Looking
a key up does not rely on the order.
-/

namespace WireCodec

namespace Sorted

variable {κ α : Type} [Ord κ]

/-- Associates a key with a value, in place of any earlier one. -/
def insert (key : κ) (value : α) : List (κ × α) → List (κ × α)
  | [] => [(key, value)]
  | (other, old) :: rest =>
    match compare key other with
    | .lt => (key, value) :: (other, old) :: rest
    | .eq => (key, value) :: rest
    | .gt => (other, old) :: insert key value rest

/-- The association list of pairs given in any order; a later pair replaces
an earlier one with the same key. -/
def ofList (pairs : List (κ × α)) : List (κ × α) :=
  pairs.foldl (fun sorted pair => insert pair.1 pair.2 sorted) []

variable [BEq κ]

/-- The value of a key. -/
def find? (key : κ) : List (κ × α) → Option α
  | [] => none
  | (other, value) :: rest => if key == other then some value else find? key rest

/-- Drops a key. -/
def erase (key : κ) (sorted : List (κ × α)) : List (κ × α) := sorted.filter (·.1 != key)

end Sorted

/-! ## Map keys

The keys a map may have: truth values, integers and strings. Keys are ordered
by their kind first and by their value within it.
-/

/-- The key of a map entry. -/
inductive MapKey where
  | bool (b : Bool)
  | int32 (n : Int32)
  | int64 (n : Int64)
  | uint32 (n : UInt32)
  | uint64 (n : UInt64)
  | string (s : String)
deriving DecidableEq, Repr

namespace MapKey

/-- The place of a key's kind among the kinds. -/
def kindIndex : MapKey → Nat
  | bool _ => 0
  | int32 _ => 1
  | int64 _ => 2
  | uint32 _ => 3
  | uint64 _ => 4
  | string _ => 5

/-- The value of a key, as a number, for the kinds that have numbers. -/
def numericPart : MapKey → Int
  | bool b => if b then 1 else 0
  | int32 n => n.toInt
  | int64 n => n.toInt
  | uint32 n => n.toNat
  | uint64 n => n.toNat
  | string _ => 0

/-- The value of a key, as a text, for the kind that has texts. -/
def textPart : MapKey → String
  | string s => s
  | _ => ""

instance : Ord MapKey where
  compare a b :=
    (compare a.kindIndex b.kindIndex).then
      ((compare a.numericPart b.numericPart).then (compare a.textPart b.textPart))

/-- A key as it stands before a member of a JSON object. -/
def text : MapKey → String
  | bool b => if b then "true" else "false"
  | int32 n => toString n.toInt
  | int64 n => toString n.toInt
  | uint32 n => toString n.toNat
  | uint64 n => toString n.toNat
  | string s => s

end MapKey

end WireCodec
