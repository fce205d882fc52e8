import EbnfKit.Text.Basic

/-! # Line indexes — lines and columns

    Offsets are shown to people as a line and a column, both counted from one.
    Only a line feed ends a line, and a column counts characters, not bytes.  An
    offset inside a character stands for the start of that character, and one past
    the end for the end.

    An index holds the byte offset at which each line starts, and is made once for a
    text.  A position is looked up in it: bisection finds the last line that starts no
    later than the offset, and the column counts the characters from there on.

    Looking up fails where there is no such line, where no text lies between its start
    and the offset, and where counting from one leaves the 32 bits of a number. -/

namespace EbnfKit

/-- A line and a column, counted from one. -/
structure Position where
  line : Nat
  column : Nat
deriving DecidableEq

namespace Position

/-- Where every text begins. -/
def first : Position :=
  ⟨1, 1⟩

/-- Written `line:column`. -/
def display (p : Position) : String :=
  s!"{p.line}:{p.column}"

end Position

namespace Text

/-- The bytes of the UTF-8 encoding. -/
def bytes (cs : Text) : List UInt8 :=
  cs.flatMap String.utf8EncodeChar

/-- The last boundary that is not behind `offset`. -/
def floor? (cs : Text) : Nat → Option Nat
  | 0 => if cs.isBoundary 0 then some 0 else none
  | n + 1 => if cs.isBoundary (n + 1) then some (n + 1) else floor? cs n

end Text

/-- The offsets at which the lines of a text start, in order. -/
structure LineIndex where
  starts : Array Nat

namespace LineIndex

/-- The byte that ends a line. -/
def lineFeed : UInt8 := 10

/-- The offsets just behind the line feeds among bytes of which the first stands at
    `offset`. -/
def behindFeeds (offset : Nat) (bytes : List UInt8) : List Nat :=
  ((bytes.zipIdx offset).filter fun b => b.1 == lineFeed).map fun b => b.2 + 1

/-- The index of a text: the first line starts at 0, the others behind line feeds. -/
def ofText (cs : Text) : LineIndex :=
  ⟨(0 :: behindFeeds 0 cs.bytes).toArray⟩

/-- Number of lines. -/
def lineCount (index : LineIndex) : Nat :=
  index.starts.size

/-- The first place from `lo` on whose entry is not below `offset`, or else `hi`. -/
def lowerBound (starts : Array Nat) (offset lo hi : Nat) (hhi : hi ≤ starts.size) : Nat :=
  if hlt : lo < hi then
    have hmid : lo + (hi - lo) / 2 < starts.size := by omega
    if starts[lo + (hi - lo) / 2] < offset then
      lowerBound starts offset (lo + (hi - lo) / 2 + 1) hi hhi
    else lowerBound starts offset lo (lo + (hi - lo) / 2) (by omega)
  else lo
termination_by hi - lo

/-- The place at which `offset` stands among the starts, or (as an error) the one at which
    it could be put in. -/
def search (index : LineIndex) (offset : Nat) : Except Nat Nat :=
  let place := lowerBound index.starts offset 0 index.starts.size (Nat.le_refl _)
  if index.starts[place]? = some offset then .ok place else .error place

/-- The place of the line that `offset` is in: the line that starts there, or else the one
    in front of where such a line would be. -/
def line? (index : LineIndex) (offset : Nat) : Option Nat :=
  match index.search offset with
  | .ok place => some place
  | .error 0 => none
  | .error (place + 1) => some place

/-- A place counted from one.  Places are kept in 32 bits, higher ones are lost; counting
    fails if its result does not fit. -/
def ordinal? (place : Nat) : Option Nat :=
  if place % UInt32.size + 1 < UInt32.size then some (place % UInt32.size + 1) else none

/-- The position of a byte offset in the text that the index was made for. -/
def position? (index : LineIndex) (cs : Text) (offset : Nat) : Option Position := do
  let place ← cs.floor? (min offset cs.size)
  let line ← index.line? place
  let start ← index.starts[line]?
  let before ← cs.slice? ⟨start, place⟩
  return ⟨← ordinal? line, ← ordinal? before.length⟩

/-- The position of a byte offset for a listing.  Looking it up fails in texts only that are too
    long to be counted in 32 bits; there the first position stands in. -/
def position (index : LineIndex) (cs : Text) (offset : Nat) : Position :=
  (index.position? cs offset).getD .first

end LineIndex

end EbnfKit
