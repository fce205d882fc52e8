import EbnfKit.Text.Basic
import EbnfKit.Unicode.Combining
import EbnfKit.Unicode.Unprintable

/-! # Escapes — characters by number, written and read

    Text quoted in a message is written so that every character can be seen: the
    usual backslash escapes, and `\u{hex}` for a character without a form of its
    own.  Two forms are in use.  The bare form stands between quotes the message
    supplies; it escapes both kinds of quote, and a combining character only in front.
    The quoted form brings its own double quotes, leaves single ones alone, and
    escapes combining characters everywhere.

    Escapes in the quoted texts of configurations name a character by its number, in a
    fixed count of hexadecimal digits.  Not every number is one of a character. -/

namespace EbnfKit.Text

/-! ## Written -/

/-- The number of `c` in lower-case hexadecimal digits, between braces. -/
def numberedEscape (c : Char) : Text :=
  "\\u\x7b".toList ++ Nat.toDigits 16 c.toNat ++ ['\x7d']

/-- Which characters a form escapes beyond the unprintable ones. -/
structure EscapeForm where
  singleQuote : Bool
  doubleQuote : Bool
  combining : Bool

/-- One character in the given form. -/
def escapeChar (form : EscapeForm) (c : Char) : Text :=
  if c = '\x00' then ['\\', '0']
  else if c = '\t' then ['\\', 't']
  else if c = '\r' then ['\\', 'r']
  else if c = '\n' then ['\\', 'n']
  else if c = '\\' then ['\\', '\\']
  else if c = '\'' then if form.singleQuote then ['\\', '\''] else ['\'']
  else if c = '"' then if form.doubleQuote then ['\\', '"'] else ['"']
  else if form.combining && Unicode.isCombining c then numberedEscape c
  else if Unicode.isUnprintable c then numberedEscape c
  else [c]

/-- The bare form: a combining character is escaped only where it comes first. -/
def escaped : Text → Text
  | [] => []
  | c :: cs => escapeChar ⟨true, true, true⟩ c ++ cs.flatMap (escapeChar ⟨true, true, false⟩)

/-- The quoted form, with its quotes. -/
def quoted (cs : Text) : Text :=
  '"' :: cs.flatMap (escapeChar ⟨false, true, true⟩) ++ ['"']

/-! ## Read -/

/-- The value of a hexadecimal digit. -/
def hexDigit? (c : Char) : Option Nat :=
  if '0' ≤ c ∧ c ≤ '9' then some (c.toNat - '0'.toNat)
  else if 'a' ≤ c ∧ c ≤ 'f' then some (c.toNat - 'a'.toNat + 10)
  else if 'A' ≤ c ∧ c ≤ 'F' then some (c.toNat - 'A'.toNat + 10)
  else none

/-- The number that the first `n` characters write after `high`, and what follows. -/
def takeHex? (high : Nat) : Nat → Text → Option (Nat × Text)
  | 0, cs => some (high, cs)
  | _ + 1, [] => none
  | n + 1, c :: cs => (hexDigit? c).bind fun d => takeHex? (16 * high + d) n cs

/-- The character with the given number. -/
def charOfNumber? (n : Nat) : Option Char :=
  if n.isValidChar then some (Char.ofNat n) else none

end EbnfKit.Text
