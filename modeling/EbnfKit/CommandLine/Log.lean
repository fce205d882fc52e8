import EbnfKit.Check.Report
import EbnfKit.Fix.Round

/-! # Logs — what happens inside, on request

    Operations are pure and say nothing.  What a log would show of one is computed
    from the same arguments, so a command lists the entries of the operations that it
    runs, in order. -/

namespace EbnfKit.CommandLine

/-- How much to log; entries up to the level are shown. -/
inductive Level
  | off
  | error
  | warn
  | info
  | debug
  | trace
deriving DecidableEq

namespace Level

/-- Every level, from nothing to everything. -/
def all : List Level :=
  [off, error, warn, info, debug, trace]

/-- The place of the level in the order. -/
def rank : Level → Nat
  | off => 0
  | error => 1
  | warn => 2
  | info => 3
  | debug => 4
  | trace => 5

/-- The name of the level as an argument. -/
def name : Level → String
  | off => "off"
  | error => "error"
  | warn => "warn"
  | info => "info"
  | debug => "debug"
  | trace => "trace"

/-- What marks an entry of the level. -/
def tag : Level → String
  | off => ""
  | error => "[ERROR] "
  | warn => " [WARN] "
  | info => " [INFO] "
  | debug => "[DEBUG] "
  | trace => "[TRACE] "

end Level

/-- One entry of a log. -/
structure Entry where
  level : Level
  message : String

namespace Entry

/-- The entry as it is shown. -/
def display (e : Entry) : String :=
  e.level.tag ++ e.message

/-- A text was scanned. -/
def scanned (source : Text) : Entry :=
  let tokens := (tokenize source).length
  ⟨.debug, s!"lexed {source.size} bytes into {tokens} token(s)"⟩

/-- The parser gave up rules: an entry for each, with the numbers of the first token of
    the rule and of the one where reading goes on. -/
def recovered (offset : Nat) : List Parser.Section → List Entry
  | [] => []
  | s :: ss =>
      let next := offset + s.tokens.length
      match s.outcome with
      | .ok _ => recovered next ss
      | .error _ =>
          ⟨.trace, s!"recovered from rule at token {offset} to token {next}"⟩ :: recovered next ss

/-- A text was parsed. -/
def parsed (source : Text) (g : Grammar) : List Entry :=
  scanned source :: recovered 0 (Parser.sectionsOf (tokenize source)) ++
    [⟨.debug, s!"parsed {g.rules.length} rule(s) with {g.diagnostics.length} syntax diagnostic(s)"⟩]

/-- The names of a grammar were indexed. -/
def indexed (g : Grammar) : Entry :=
  let index := g.index
  let definitions := index.definitions.length
  let names := index.references.length
  let duplicates := index.duplicates.length
  ⟨.debug, s!"indexed {definitions} definition(s), {names} referenced name(s), "
    ++ s!"{duplicates} duplicate(s)"⟩

/-- The start rule asked for is not there. -/
def noStartRule (name : Text) : Entry :=
  ⟨.warn, s!"start rule `{String.ofList name}` is not defined; using the first rule instead"⟩

/-- One check ran. -/
def passRan (g : Grammar) (config : Config) (pass : Pass) : List Entry :=
  let found := (pass.run g config.startRule).length
  let warning :=
    if pass = .unreachableRule ∧ Check.startRuleMissing g config.startRule then
      (config.startRule.map noStartRule).toList
    else []
  warning ++ [⟨.debug, s!"pass {pass.name} produced {found} diagnostic(s)"⟩]

/-- The selected checks ran. -/
def checked (g : Grammar) (config : Config) : List Entry :=
  config.passes.flatMap (passRan g config)

/-- A fix was looked for under a span: the text there is scanned for comments. -/
def lookedForComment (source : Text) (s : Span) : List Entry :=
  scanned ((source.slice? s).getD []) ::
    if Fix.holdsComment source s then
      [⟨.debug, s!"no fix at {s.display}: it would drop a comment"⟩]
    else []

/-- A fix was found; it is put off if it overlaps one of those kept. -/
def keptOrPutOff (kept : List Fix) : Option Fix → List Entry
  | some fix =>
      if kept.any fun f => f.span.overlaps fix.span then
        [⟨.debug, s!"skipping overlapping fix at {fix.span.display}"⟩]
      else []
  | none => []

/-- Fixes were looked for, one diagnostic after the other. -/
def offered (g : Grammar) (places : Fix.Places) (kept : List Fix) : List Diagnostic → List Entry
  | [] => []
  | d :: ds =>
      let look :=
        match Fix.find g places d with
        | .ok (some fix) =>
            if Fix.keepsComments d.problem then lookedForComment g.source fix.span else []
        | _ => []
      let fix := (Fix.offerAt g places d).toOption.join
      look ++ keptOrPutOff kept fix ++
        offered g places ((fix.map (Fix.keep kept)).getD kept) ds

/-- Rounds of fixes were made, the first one with the given number. -/
def rounds (number : Nat) : Nat → Grammar → List Entry
  | 0, _ => []
  | left + 1, g =>
      let looked := indexed g :: offered g (.of g) [] g.analyze
      match Fix.round g g.analyze with
      | .error _ => looked
      | .ok ([], _) => looked
      | .ok (fixes, text) =>
          let next := Grammar.parse text
          looked ++ ⟨.debug, s!"fix round {number}: {fixes.length} fix(es)"⟩ :: parsed text next ++
            if next.isBroken then
              [⟨.warn, s!"fix round {number} produced unparsable text:\n{String.ofList text}"⟩]
            else rounds (number + 1) left next

end Entry

end EbnfKit.CommandLine
