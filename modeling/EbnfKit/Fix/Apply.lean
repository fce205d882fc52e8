import EbnfKit.Fix.Basic
import EbnfKit.Sorting

/-! # Applying fixes — all replacements at once

    Fixes apply together, whatever their order: each span of the text is replaced and
    all else stays.  The last one in the text is applied first, so that the spans of the
    others still stand where they did.  Fixes are refused if one of them does not fit the
    text or if two get in each other's way. -/

namespace EbnfKit.Fix

/-- `a` comes no later in the text than `b`. -/
def le (a b : Fix) : Bool :=
  !b.span.before a.span

/-- The span ends at boundaries of the text. -/
def fits (source : Text) (f : Fix) : Bool :=
  source.isBoundary f.span.start && source.isBoundary f.span.stop

/-- The first two neighbours that overlap. -/
def clash? : List Fix → Option (Span × Span)
  | a :: b :: fs =>
      if a.span.overlaps b.span then some (a.span, b.span) else clash? (b :: fs)
  | _ => none

/-- The text with what is under the span replaced. -/
def replace (f : Fix) (source : Text) : Text :=
  let front := (source.cut? f.span.start).getD (source, [])
  let back := (source.cut? f.span.stop).getD (source, [])
  front.1 ++ f.replacement ++ back.2

/-- The text with all fixes applied. -/
def apply (source : Text) (fixes : List Fix) : Except FixError Text :=
  let ordered := stableSort le fixes
  match ordered.find? fun f => !f.fits source with
  | some f => .error (.outOfBounds f.span source.size)
  | none =>
      match clash? ordered with
      | some (first, second) => .error (.overlap first second)
      | none =>
          match ordered.find? fun f => f.span.isBackward with
          | some f => .error (.backwards f.span)
          | none => .ok (ordered.foldr replace source)

end EbnfKit.Fix
