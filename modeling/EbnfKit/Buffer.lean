import EbnfKit.Fix.Round
import EbnfKit.Grammar.Printer

/-! # Buffers — a text edited step by step

    An editing session holds one text.  Each step looks at it or replaces it; a step
    that fails leaves it alone. -/

namespace EbnfKit.Buffer

/-- What to check, as asked for: a list of checks, all of them unless given, and the
    start rule. -/
structure Request where
  passes : Option Text
  startRule : Option Text

/-- The configuration asked for. -/
def Request.config (r : Request) : Except SelectionError Config :=
  match r.passes with
  | none => .ok { startRule := r.startRule }
  | some list => (Pass.parseList list).map fun passes => { passes, startRule := r.startRule }

/-- One step of a session. -/
inductive Step
  | set (text : Text)
  | append (text : Text)
  | edit (span : Span) (text : Text)
  | format
  | fix (request : Request)
  | check (request : Request)
  | names

/-- What a step answers. -/
inductive Answer
  /-- The text was replaced. -/
  | changed
  /-- So many fixes were applied. -/
  | applied (count : Nat)
  /-- The grammar was checked. -/
  | report (grammar : Grammar) (report : Report)
  /-- The rules have these names. -/
  | names (names : List Text)

/-- Why a step fails. -/
inductive Failure
  | selection (error : SelectionError)
  | fix (error : FixError)

/-- The diagnostics that a round of fixes goes by: those of all checks, or the report on
    the checks asked for. -/
def roundDiagnostics (g : Grammar) (request : Request) : Except SelectionError (List Diagnostic) :=
  match request.passes with
  | none => .ok g.analyze
  | some _ => request.config.map fun config => (g.check config).diagnostics

/-- The text after a step, and the answer. -/
def step (text : Text) : Step → Except Failure (Text × Answer)
  | .set replacement => .ok (replacement, .changed)
  | .append more => .ok (text ++ more, .changed)
  | .edit span replacement =>
      match Fix.apply text [⟨"", span, replacement⟩] with
      | .ok edited => .ok (edited, .changed)
      | .error e => .error (.fix e)
  | .format => .ok ((Grammar.parse text).render, .changed)
  | .fix request =>
      let g := Grammar.parse text
      match roundDiagnostics g request with
      | .error e => .error (.selection e)
      | .ok ds =>
          match Fix.round g ds with
          | .error e => .error (.fix e)
          | .ok (fixes, fixed) => .ok (fixed, .applied fixes.length)
  | .check request =>
      match request.config with
      | .error e => .error (.selection e)
      | .ok config =>
          let g := Grammar.parse text
          .ok (text, .report g (g.check config))
  | .names => .ok (text, .names (Grammar.parse text).names)

end EbnfKit.Buffer
