/-! # Spans — half-open ranges of byte offsets

    Every token and every node of a tree carries the range of the text it was
    read from: `start` is the offset of its first byte, `stop` the offset just
    past its last one.  Spans order by `start`, then by `stop`. -/

namespace EbnfKit

/-- The bytes from `start` up to, but not including, `stop`. -/
structure Span where
  start : Nat
  stop : Nat
deriving DecidableEq, Inhabited

namespace Span

/-- The span from `start` to `stop`, if that is no backward range. -/
def ofBounds? (start stop : Nat) : Option Span :=
  if start ≤ stop then some ⟨start, stop⟩ else none

/-- The empty span at `offset`. -/
def point (offset : Nat) : Span :=
  ⟨offset, offset⟩

/-- Number of bytes covered. -/
def length (s : Span) : Nat :=
  s.stop - s.start

/-- `s` stops before it starts, and so is the range of no text. -/
def isBackward (s : Span) : Bool :=
  s.stop < s.start

/-- `s` covers no byte. -/
def isEmpty (s : Span) : Bool :=
  s.start == s.stop

/-- The smallest span that covers both `a` and `b`. -/
def join (a b : Span) : Span :=
  ⟨min a.start b.start, max a.stop b.stop⟩

/-- `inner` lies within `outer`. -/
def contains (outer inner : Span) : Bool :=
  outer.start ≤ inner.start && inner.stop ≤ outer.stop

/-- `a` comes before `b`: it starts earlier, or starts alike and stops earlier. -/
def before (a b : Span) : Bool :=
  a.start < b.start || (a.start == b.start && a.stop < b.stop)

/-- `a` and `b` share a byte, or one is an insertion strictly inside the other, or
    they are the same span. -/
def overlaps (a b : Span) : Bool :=
  (a.start < b.stop && b.start < a.stop) || a == b

/-- The same span in a text with `n` more bytes in front. -/
def shift (n : Nat) (s : Span) : Span :=
  ⟨s.start + n, s.stop + n⟩

/-- Written `start..stop`. -/
def display (s : Span) : String :=
  s!"{s.start}..{s.stop}"

end Span

end EbnfKit
