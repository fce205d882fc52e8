import EbnfKit.Grammar.Printer

/-! # Parentheses — groups that add nothing

    A group around a single factor can be dropped unless both that factor and the one
    that holds the group carry a count or an exception, for then the text would not
    read back.  Options and repetitions mean something and always stay. -/

namespace EbnfKit

/-- A group that can be dropped: where it is, and the factor inside. -/
structure RedundantGroup where
  span : Span
  inner : Factor Span

namespace RedundantGroup

/-- The group that `p` is, if it can be dropped.  `plain` says that `p` is all there is
    to the factor that holds it. -/
def ofPrimary? (plain : Bool) : Primary Span → Option RedundantGroup
  | .bracketed m .group (.mk _ (.mk _ f []) []) => if plain || f.isPlain then some ⟨m, f⟩ else none
  | _ => none

/-- The groups to drop right inside a factor: its primary, its exception, or both. -/
def ofFactor (f : Factor Span) : List RedundantGroup :=
  (ofPrimary? f.isPlain f.primary).toList ++ (f.exception.bind (ofPrimary? false)).toList

end RedundantGroup

/-- The groups that can be dropped, in source order. -/
def Grammar.redundantGroups (g : Grammar) : List RedundantGroup :=
  (g.nodes.filterMap (·.factor?)).flatMap RedundantGroup.ofFactor

namespace Check

/-- The warning for a group that can be dropped. -/
def redundantGroup (r : RedundantGroup) : Diagnostic :=
  let inner := String.ofList r.inner.render
  ⟨.redundantParentheses, r.span, s!"redundant parentheses around `{inner}`"⟩

/-- A warning for every group that can be dropped. -/
def redundantGroups (g : Grammar) : List Diagnostic :=
  g.redundantGroups.map redundantGroup

end Check

end EbnfKit
