import EbnfKit.Diagnostic
import EbnfKit.Text.LineIndex
import EbnfKit.Tree

/-! # Grammars — rules with the text they came from

    A grammar holds its rules in source order, the text, the syntax errors found in
    it, and the comment directly above each rule.  Rules refer to each other only by
    name; where a name is defined more than once the first definition counts. -/

namespace EbnfKit

/-- `name = body ;`, with a mark for the name and one for the whole rule. -/
structure Rule (α : Type) where
  name : Text
  nameMark : α
  body : Expression α
  mark : α

/-- The rule with `f` applied to every mark. -/
def Rule.map {α β : Type} (f : α → β) (r : Rule α) : Rule β :=
  ⟨r.name, f r.nameMark, r.body.map f, f r.mark⟩

/-- What a text says, as far as it could be read. -/
structure Grammar where
  rules : List (Rule Span)
  source : Text
  diagnostics : List Diagnostic
  /-- Comments by the offset of the rule that they document, in source order. -/
  comments : List (Nat × Text)

namespace Grammar

/-- No rule was read. -/
def isEmpty (g : Grammar) : Bool :=
  g.rules.isEmpty

/-- Rule names in source order, each as often as it is defined. -/
def names (g : Grammar) : List Text :=
  g.rules.map (·.name)

/-- The first rule. -/
def firstRule? (g : Grammar) : Option (Rule Span) :=
  g.rules.head?

/-- The first definition of a name. -/
def definition? (g : Grammar) (name : Text) : Option (Rule Span) :=
  g.rules.find? fun r => r.name == name

/-- The name has a definition. -/
def isDefined (g : Grammar) (name : Text) : Bool :=
  (g.definition? name).isSome

/-- The comment directly above a rule, without its marks. -/
def comment? (g : Grammar) (r : Rule Span) : Option Text :=
  g.comments.lookup r.mark.start

/-- The text has syntax errors. -/
def isBroken (g : Grammar) : Bool :=
  !g.diagnostics.isEmpty

/-- Where the lines of the source start. -/
def lines (g : Grammar) : LineIndex :=
  .ofText g.source

/-- The position of a byte offset in the source. -/
def position (g : Grammar) (offset : Nat) : Position :=
  g.lines.position g.source offset

/-- All nodes of all rules, in source order. -/
def nodes (g : Grammar) : List (Node Span) :=
  g.rules.flatMap fun r => r.body.nodes

end Grammar

end EbnfKit
