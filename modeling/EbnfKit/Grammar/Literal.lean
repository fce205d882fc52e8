import EbnfKit.Text.Basic

/-! # Literals — quoted texts and counts as they are written

    A string literal is split at its quotes; its escapes stay as written.  A count is
    a decimal number that fits in 32 bits. -/

namespace EbnfKit

/-- The parts of a string literal. -/
structure Quoted where
  quote : Char
  text : Text
  /-- The closing quote is there. -/
  closed : Bool
deriving DecidableEq

/-- The literal split at its quotes.  It is closed when it ends in its first character
    and an even number of backslashes stands in front of that. -/
def Quoted.ofText : Text → Quoted
  | [] => ⟨'"', [], false⟩
  | q :: body =>
      let content := body.dropLast
      if body.getLast? = some q ∧ (content.reverse.takeWhile (· == '\\')).length % 2 = 0 then
        ⟨q, content, true⟩
      else ⟨q, body, false⟩

/-- The number written by decimal digits. -/
def Text.decimal (digits : Text) : Nat :=
  digits.foldl (fun n d => 10 * n + (d.toNat - '0'.toNat)) 0

/-- The count that a text writes: decimal digits, perhaps after a plus sign, for a
    number below 2 to the 32. -/
def Text.count? (text : Text) : Option Nat :=
  let digits := if text.head? = some '+' then text.tail else text
  if digits ≠ [] ∧ digits.all Char.isDigit ∧ Text.decimal digits < UInt32.size then
    some (Text.decimal digits)
  else none

end EbnfKit
