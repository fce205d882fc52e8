import EbnfKit.Check.Report
import EbnfKit.Fix.Apply
import EbnfKit.Token.Scan

/-! # Offering fixes — what can be done about a diagnostic

    Three kinds of diagnostic have a fix: a rule that nothing needs is removed, a
    group that adds nothing loses its parentheses, and a run is written once with a
    count.  A fix that would lose a comment is not offered.  A broken grammar has no
    fixes at all: the rules that could not be read are missing, so what only they need
    looks unneeded. -/

namespace EbnfKit

namespace Fix

/-- How many bytes a line break takes that stands here, perhaps behind blanks; none if
    something else comes first. -/
def lineBreak? (rest : Text) : Option Nat :=
  let blanks := (rest.takeWhile fun c => c == ' ' || c == '\t').length
  match rest.drop blanks with
  | '\r' :: '\n' :: _ => some (blanks + 2)
  | '\n' :: _ => some (blanks + 1)
  | _ => none

/-- The span and the line break behind it, if one follows. -/
def withLineBreak (source : Text) (s : Span) : Span :=
  let rest := ((source.cut? s.stop).map (·.2)).getD []
  match lineBreak? rest with
  | some n => ⟨s.start, s.stop + n⟩
  | none => s

/-- There is a comment under the span. -/
def holdsComment (source : Text) (s : Span) : Bool :=
  (tokenize ((source.slice? s).getD [])).any (·.is .commentStart)

/-- Removes a rule with its line. -/
def removeRule (source : Text) (r : Rule Span) : Fix :=
  { title := s!"Remove unreachable rule `{String.ofList r.name}`"
    span := withLineBreak source r.mark
    replacement := [] }

/-- Leaves the inner factor of a group. -/
def dropParentheses (r : RedundantGroup) : Fix :=
  ⟨"Remove redundant parentheses", r.span, r.inner.render⟩

/-- Writes a run once. -/
def countRun (r : Run) : Fix :=
  ⟨s!"Replace with `{String.ofList r.counted}`", r.span, r.counted⟩

/-- The places of a grammar that can be written in another form. -/
structure Places where
  groups : List RedundantGroup
  runs : List Run

/-- The places of a grammar that can be written in another form, found once for all
    diagnostics. -/
def Places.of (g : Grammar) : Places :=
  ⟨g.redundantGroups, g.repeatedRuns⟩

/-- The fix for a diagnostic of a grammar without syntax errors, comments not
    considered; an error if there is nothing of its kind where it points. -/
def find (g : Grammar) (places : Places) (d : Diagnostic) : Except FixError (Option Fix) :=
  let stale := FixError.stale d.problem d.span
  match d.problem with
  | .unreachableRule =>
      match g.rules.find? fun r => r.nameMark == d.span with
      | some r => .ok (some (removeRule g.source r))
      | none => .error stale
  | .redundantParentheses =>
      match places.groups.find? fun r => r.span == d.span with
      | some r => .ok (some (dropParentheses r))
      | none => .error stale
  | .simplifiableRepetition =>
      match places.runs.find? fun r => r.span == d.span with
      | some r => .ok (some (countRun r))
      | none => .error stale
  | _ => .ok none

/-- A fix of this kind keeps what it covers in another form, so it must not lose a comment
    there. -/
def keepsComments : Problem → Bool
  | .redundantParentheses | .simplifiableRepetition => true
  | _ => false

/-- The fix for a diagnostic, if there is one, given the places of the grammar. -/
def offerAt (g : Grammar) (places : Places) (d : Diagnostic) : Except FixError (Option Fix) :=
  if g.isBroken then .error (.syntaxErrors g.diagnostics.length)
  else
    match find g places d with
    | .error e => .error e
    | .ok none => .ok none
    | .ok (some fix) =>
        if keepsComments d.problem && holdsComment g.source fix.span then .ok none
        else .ok (some fix)

/-- The fix for a diagnostic, if there is one. -/
def offer (g : Grammar) (d : Diagnostic) : Except FixError (Option Fix) :=
  offerAt g (.of g) d

/-- `fix` after those kept so far, unless it overlaps one of them. -/
def keep (kept : List Fix) (fix : Fix) : List Fix :=
  if kept.any fun f => f.span.overlaps fix.span then kept else kept ++ [fix]

/-- The fixes for several diagnostics, after those kept so far. -/
def offerAfter (g : Grammar) (places : Places) (kept : List Fix) :
    List Diagnostic → Except FixError (List Fix)
  | [] => .ok kept
  | d :: ds =>
      match offerAt g places d with
      | .error e => .error e
      | .ok none => offerAfter g places kept ds
      | .ok (some fix) => offerAfter g places (keep kept fix) ds

/-- The fixes for several diagnostics; one that overlaps an earlier one is left for
    another round. -/
def offerAll (g : Grammar) (ds : List Diagnostic) : Except FixError (List Fix) :=
  offerAfter g (.of g) [] ds

end Fix

end EbnfKit
