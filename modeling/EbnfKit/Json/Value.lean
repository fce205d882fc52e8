import EbnfKit.Text.Basic

/-! # JSON values

    Structured output and configurations are JSON.  A number is kept as it is written,
    since nothing here computes with one that was read; the fields of an object keep
    their order. -/

namespace EbnfKit.Json

/-- A JSON value. -/
inductive Value
  | null
  | bool (b : Bool)
  | number (digits : Text)
  | string (text : Text)
  | array (items : List Value)
  | object (fields : List (Text × Value))

namespace Value

/-- A natural number. -/
def ofNat (n : Nat) : Value :=
  .number (Text.ofNat n)

/-- A string. -/
def ofString (s : String) : Value :=
  .string s.toList

/-- A value that may be missing. -/
def ofOption {α : Type} (f : α → Value) : Option α → Value
  | none => .null
  | some a => f a

/-- An object with the given fields in the given order. -/
def record (fields : List (String × Value)) : Value :=
  .object (fields.map fun field => (field.1.toList, field.2))

end Value

end EbnfKit.Json
