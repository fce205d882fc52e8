import EbnfKit.Text.Span
import EbnfKit.Unicode.Basic

/-! # Text — characters and their byte offsets

    A text is the list of its characters.  A place in it is a byte offset into its
    UTF-8 encoding, so only some offsets are boundaries between characters: `cut?`
    finds the two halves of a text at such an offset, and everything that slices text
    or replaces a part of it is built from it. -/

namespace EbnfKit

/-- A text, character by character. -/
abbrev Text := List Char

namespace Text

/-- Number of bytes of the UTF-8 encoding. -/
def size : Text → Nat
  | [] => 0
  | c :: cs => c.utf8Size + size cs

/-- The halves of a text at a byte offset; none past the end or inside a character. -/
def cut? : Text → Nat → Option (Text × Text)
  | cs, 0 => some ([], cs)
  | [], _ + 1 => none
  | c :: cs, n + 1 =>
      if c.utf8Size ≤ n + 1 then
        (cut? cs (n + 1 - c.utf8Size)).map fun halves => (c :: halves.1, halves.2)
      else none

/-- `offset` is a boundary between characters of `cs`, or one of its ends. -/
def isBoundary (cs : Text) (offset : Nat) : Bool :=
  (cut? cs offset).isSome

/-- The text under a span whose ends are boundaries in the right order. -/
def slice? (cs : Text) (s : Span) : Option Text :=
  if s.start ≤ s.stop then
    (cut? cs s.start).bind fun halves =>
      (cut? halves.2 (s.stop - s.start)).map (·.1)
  else none

/-- `cs` without the white space at its ends. -/
def trim (cs : Text) : Text :=
  ((cs.dropWhile Unicode.isWhiteSpace).reverse.dropWhile Unicode.isWhiteSpace).reverse

/-- The pieces of `cs` between separators; there is always one more than there are
    separators. -/
def splitOn (separator : Char) : Text → List Text
  | [] => [[]]
  | c :: cs =>
      match splitOn separator cs with
      | [] => [[c]]
      | piece :: pieces =>
          if c = separator then [] :: piece :: pieces
          else (c :: piece) :: pieces

/-- Decimal digits of `n`. -/
def ofNat (n : Nat) : Text :=
  Nat.toDigits 10 n

/-- Texts in the order of their characters, which is the order of their UTF-8 bytes. -/
def before : Text → Text → Bool
  | _, [] => false
  | [], _ :: _ => true
  | a :: as, b :: bs => a.toNat < b.toNat || (a == b && before as bs)

end Text

end EbnfKit
