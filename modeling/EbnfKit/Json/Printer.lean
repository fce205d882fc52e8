import EbnfKit.Json.Value

/-! # Writing JSON — on one line or over many

    The compact form has no white space.  The indented form puts every item and every
    field on a line of its own, two blanks deeper than what holds it, and writes
    empty containers as a pair of brackets.  Strings escape quotes, backslashes and
    control characters, nothing else. -/

namespace EbnfKit.Json

/-- The character as it stands in a string. -/
def escapeChar (c : Char) : Text :=
  if c = '"' then ['\\', '"']
  else if c = '\\' then ['\\', '\\']
  else if c = '\x08' then ['\\', 'b']
  else if c = '\t' then ['\\', 't']
  else if c = '\n' then ['\\', 'n']
  else if c = '\x0c' then ['\\', 'f']
  else if c = '\r' then ['\\', 'r']
  else if c.toNat < 0x10 then ['\\', 'u', '0', '0', '0'] ++ Nat.toDigits 16 c.toNat
  else if c.toNat < 0x20 then ['\\', 'u', '0', '0'] ++ Nat.toDigits 16 c.toNat
  else [c]

/-- The string in its quotes. -/
def quote (text : Text) : Text :=
  '"' :: text.flatMap escapeChar ++ ['"']

/-- A truth value. -/
def boolText : Bool → Text
  | true => ['t', 'r', 'u', 'e']
  | false => ['f', 'a', 'l', 's', 'e']

mutual

/-- The value on one line. -/
def Value.compact : Value → Text
  | .array items => '[' :: compactItems items ++ [']']
  | .object fields => '\x7b' :: compactFields fields ++ ['\x7d']
  | .null => ['n', 'u', 'l', 'l']
  | .bool b => boolText b
  | .number digits => digits
  | .string text => quote text

/-- Items with commas between them. -/
def compactItems : List Value → Text
  | [] => []
  | [v] => v.compact
  | v :: vs => v.compact ++ ',' :: compactItems vs

/-- Fields with commas between them. -/
def compactFields : List (Text × Value) → Text
  | [] => []
  | [(name, v)] => quote name ++ ':' :: v.compact
  | (name, v) :: fields => quote name ++ ':' :: v.compact ++ ',' :: compactFields fields

end

/-- The start of a line at the given depth. -/
def newLine (depth : Nat) : Text :=
  '\n' :: List.replicate (2 * depth) ' '

mutual

/-- The value over several lines, inside containers of the given depth. -/
def Value.indented (depth : Nat) : Value → Text
  | .array [] => ['[', ']']
  | .array (v :: vs) => '[' :: indentedItems (depth + 1) (v :: vs) ++ newLine depth ++ [']']
  | .object [] => ['\x7b', '\x7d']
  | .object (f :: fs) =>
      '\x7b' :: indentedFields (depth + 1) (f :: fs) ++ newLine depth ++ ['\x7d']
  | .null => ['n', 'u', 'l', 'l']
  | .bool b => boolText b
  | .number digits => digits
  | .string text => quote text

/-- Items, each on a line of its own. -/
def indentedItems (depth : Nat) : List Value → Text
  | [] => []
  | [v] => newLine depth ++ v.indented depth
  | v :: vs => newLine depth ++ v.indented depth ++ ',' :: indentedItems depth vs

/-- Fields, each on a line of its own. -/
def indentedFields (depth : Nat) : List (Text × Value) → Text
  | [] => []
  | [(name, v)] => newLine depth ++ quote name ++ ':' :: ' ' :: v.indented depth
  | (name, v) :: fields =>
      newLine depth ++ quote name ++ ':' :: ' ' :: v.indented depth ++
        ',' :: indentedFields depth fields

end

/-- The value over several lines. -/
def Value.pretty (v : Value) : Text :=
  v.indented 0

end EbnfKit.Json
