import EbnfKit.Grammar.References

/-! # References — rules that are missing, defined twice, or never needed

    A name that is used but has no definition is an error wherever it is used; a
    definition after the first is an error at its name, and says where the first
    one stands.

    A rule needs the names that the body of its definition uses, and what those need
    in turn.  Names without a definition lead nowhere.  The set of names needed is
    found by saturation: round by round the names that the latest ones need are added,
    until no new one turns up, which takes no more rounds than there are rules.  A rule
    that the start rule never needs gets a warning. -/

namespace EbnfKit.Check

/-! ## Undefined and duplicate rules -/

/-- The error for a use of an undefined name. -/
def undefinedRule (site : Site) : Diagnostic :=
  ⟨.undefinedRule, site.span, s!"undefined rule `{String.ofList site.name}`"⟩

/-- An error at every use of an undefined name. -/
def undefinedRules (g : Grammar) : List Diagnostic :=
  (g.sites.filter fun site => !g.isDefined site.name).map undefinedRule

/-- The error for a definition after the first. -/
def duplicateRule (g : Grammar) (d : Duplicate) : Diagnostic :=
  let name := String.ofList d.duplicate.name
  let first := g.position d.first.nameMark.start
  ⟨.duplicateRule, d.duplicate.nameMark,
    s!"rule `{name}` is already defined at line {first.line}, column {first.column}"⟩

/-- An error at the name of every definition after the first. -/
def duplicateRules (g : Grammar) : List Diagnostic :=
  g.duplicates.map (duplicateRule g)

/-! ## Reachability -/

/-- The rule that reachability starts from: the one asked for if it is defined, else the
    first. -/
def startRule? (g : Grammar) (asked : Option Text) : Option (Rule Span) :=
  match asked.bind g.definition? with
  | some r => some r
  | none => g.firstRule?

/-- The start rule asked for has no definition, so that another one is used. -/
def startRuleMissing (g : Grammar) (asked : Option Text) : Bool :=
  asked.any fun name => !g.isDefined name

/-- The defined names that the definition of a name uses. -/
def neededBy (g : Grammar) (name : Text) : List Text :=
  match g.definition? name with
  | some r => r.dependencies.filter g.isDefined
  | none => []

/-- The names that the fresh ones need and that are not known yet. -/
def frontier (g : Grammar) (known fresh : List Text) : List Text :=
  (distinctNames (fresh.flatMap (neededBy g))).filter fun name => !known.contains name

/-- The names found in at most `n` rounds.  Of those known only the fresh ones can need
    something new. -/
def saturate (g : Grammar) : Nat → List Text → List Text → List Text
  | 0, known, _ => known
  | n + 1, known, fresh =>
      match frontier g known fresh with
      | [] => known
      | name :: names => saturate g n (known ++ name :: names) (name :: names)

/-- The names needed from `start` on, its own included. -/
def reachable (g : Grammar) (start : Rule Span) : List Text :=
  saturate g g.rules.length [start.name] [start.name]

/-- The warning for a rule that is not needed. -/
def unreachableRule (start r : Rule Span) : Diagnostic :=
  let name := String.ofList r.name
  let top := String.ofList start.name
  ⟨.unreachableRule, r.nameMark, s!"rule `{name}` is not reachable from start rule `{top}`"⟩

/-- A warning at the name of every rule that is not needed. -/
def unreachableRules (g : Grammar) (asked : Option Text) : List Diagnostic :=
  match startRule? g asked with
  | none => []
  | some start =>
      let reached := reachable g start
      (g.rules.filter fun r => !reached.contains r.name).map (unreachableRule start)

end EbnfKit.Check
