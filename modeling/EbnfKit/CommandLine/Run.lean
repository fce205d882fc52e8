import EbnfKit.CommandLine.Arguments
import EbnfKit.CommandLine.Listing
import EbnfKit.CommandLine.Path
import EbnfKit.CommandLine.Script
import EbnfKit.Config.Toml
import EbnfKit.Json.Printer

/-! # Commands — what each one does

    Every command reads one file.  `check` also reads a configuration, the one asked
    for or the one beside the file, and `fix` may write the file back.  Nothing is
    changed unless all of it could be read: `fmt` and `fix` refuse a grammar with
    syntax errors. -/

namespace EbnfKit.CommandLine

/-- Why a command gives up. -/
inductive CommandError
  | read (path : Text) (error : FileError)
  | write (path : Text) (error : FileError)
  | config (path : Text)
  | selection (error : SelectionError)
  | fix (error : FixError)
  | syntaxErrors (path : Text) (count : Nat)
  | brokenRound (round count : Nat)

/-- The error in words. -/
def CommandError.message : CommandError → String
  | read path error => s!"cannot read {String.ofList path}: {error.message}"
  | write path error => s!"cannot write {String.ofList path}: {error.message}"
  | config path => s!"invalid config {String.ofList path}: not a configuration"
  | selection error => error.message
  | fix error => s!"cannot apply fixes: {error.message}"
  | syntaxErrors path count =>
      s!"{String.ofList path} has {count} syntax error(s); refusing to rewrite it"
  | brokenRound round count =>
      s!"fix round {round} would introduce {count} syntax error(s); nothing was changed"

/-- The error as it is shown. -/
def CommandError.display (format : Format) (e : CommandError) : String :=
  match format with
  | .text => "error: " ++ e.message
  | .json => String.ofList (Json.Value.record [("error", .ofString e.message)]).compact

/-- Gives up, after some notices. -/
def Script.fail (format : Format) (notices : List Notice) (e : CommandError) : Script :=
  .finish ⟨notices ++ [.line (e.display format)], [], false⟩

/-- Log entries as notices. -/
def logged (entries : List Entry) : List Notice :=
  entries.map .log

/-- A value as output. -/
def jsonOutput (v : Json.Value) : Text :=
  v.pretty ++ ['\n']

/-- Reads the file of a command, or gives up. -/
def withSource (format : Format) (notices : List Notice) (file : Text) (next : Text → Script) :
    Script :=
  .read file fun contents =>
    match contents with
    | .error e => .fail format notices (.read file e)
    | .ok source => next source

/-- Gives up on a broken grammar with a line for each syntax error. -/
def refuseBroken (format : Format) (notices : List Notice) (file : Text) (g : Grammar) : Script :=
  .fail format (notices ++ g.diagnostics.map fun d => .line (diagnosticLine file g d))
    (.syntaxErrors file g.diagnostics.length)

/-- Lists the tokens of a file. -/
def tokensScript (format : Format) (file : Text) : Script :=
  withSource format [] file fun source =>
    let tokens := tokenize source
    .finish {
      notices := logged [Entry.scanned source]
      output :=
        match format with
        | .text => tokenTable source tokens
        | .json => jsonOutput (.array (tokens.map tokenValue))
      success := true }

/-- Shows the tree of a file; it is a failure if the file has syntax errors. -/
def parseScript (format : Format) (file : Text) : Script :=
  withSource format [] file fun source =>
    let g := Grammar.parse source
    let log := logged (Entry.parsed source g)
    .finish {
      notices :=
        match format with
        | .text => log ++ g.diagnostics.map fun d => .line (diagnosticLine file g d)
        | .json => log
      output :=
        match format with
        | .text => outline g
        | .json => jsonOutput (grammarValue g)
      success := !g.isBroken }

/-- Reads a configuration file, or gives up. -/
def loadConfig (format : Format) (path : Text) (next : List Notice → Config → Script) : Script :=
  let loading : List Notice :=
    [.log ⟨.debug, s!"loading analysis config from {String.ofList path}"⟩]
  withSource format loading path fun text =>
    match Config.parseToml? text with
    | none => .fail format loading (.config path)
    | some config => next loading config

/-- Finds the configuration for a file: the one asked for, else the one beside the file,
    else the default. -/
def withConfig (format : Format) (file : Text) (asked : Option Text)
    (next : List Notice → Config → Script) : Script :=
  match asked with
  | some path => loadConfig format path next
  | none =>
      let path := Path.configBeside file
      .isFile path fun found => if found then loadConfig format path next else next [] {}

/-- The configuration with the checks asked for. -/
def selectPasses (config : Config) (asked : Option Text) : Except SelectionError Config :=
  match asked with
  | none => .ok config
  | some list => (Pass.parseList list).map fun passes => { config with passes }

/-- A report in text: a line for each diagnostic, and the counts. -/
def reportText (file : Text) (g : Grammar) (r : Report) : Text :=
  (r.diagnostics.flatMap fun d => (diagnosticLine file g d).toList ++ ['\n']) ++
    s!"{r.errors} error(s), {r.warnings} warning(s)\n".toList

/-- Checks a file; it is a failure if there are errors. -/
def checkScript (format : Format) (file : Text) (passes config : Option Text) : Script :=
  withConfig format file config fun loading config =>
    match selectPasses config passes with
    | .error e => .fail format loading (.selection e)
    | .ok config =>
        withSource format loading file fun source =>
          let g := Grammar.parse source
          let report := g.check config
          .finish {
            notices := loading ++
              logged (Entry.parsed source g ++ Entry.indexed g :: Entry.checked g config)
            output :=
              match format with
              | .text => reportText file g report
              | .json => jsonOutput (reportValue report)
            success := !report.hasErrors }

/-- Shows the canonical text of a file. -/
def formatScript (format : Format) (file : Text) : Script :=
  withSource format [] file fun source =>
    let g := Grammar.parse source
    let log := logged (Entry.parsed source g)
    if g.isBroken then refuseBroken format log file g
    else
      .finish {
        notices := log
        output :=
          match format with
          | .text => g.render
          | .json => jsonOutput (.record [("formatted", .string g.render)])
        success := true }

/-- What to show after fixing. -/
def fixOutput (format : Format) (write : Bool) (file : Text) (fixed : Fix.Fixed) : Text :=
  match format, write with
  | .json, true =>
      jsonOutput (.record [("applied", .ofNat fixed.applied), ("path", .string file)])
  | .json, false =>
      jsonOutput (.record [("applied", .ofNat fixed.applied), ("source", .string fixed.text)])
  | .text, true => s!"applied {fixed.applied} fix(es) to {String.ofList file}\n".toList
  | .text, false => fixed.text

/-- Fixes a file round by round, and shows the text or writes it back. -/
def fixScript (format : Format) (file : Text) (write : Bool) : Script :=
  withSource format [] file fun source =>
    let g := Grammar.parse source
    let log := logged (Entry.parsed source g)
    if g.isBroken then refuseBroken format log file g
    else
      let log := log ++ logged (Entry.rounds 1 Fix.maxRounds g)
      match Fix.rounds 1 Fix.maxRounds g with
      | .error (.fix e) => .fail format log (.fix e)
      | .error (.broken round count) => .fail format log (.brokenRound round count)
      | .ok fixed =>
          let done := Script.finish ⟨log, fixOutput format write file fixed, true⟩
          if write && fixed.text != source then
            .write file fixed.text fun failure =>
              match failure with
              | some e => .fail format log (.write file e)
              | none => done
          else done

/-- The script of a command. -/
def Command.script (format : Format) : Command → Script
  | .tokens file => tokensScript format file
  | .parse file => parseScript format file
  | .check file passes config => checkScript format file passes config
  | .format file => formatScript format file
  | .fix file write => fixScript format file write

/-! ## Outcomes -/

/-- What a run leaves behind besides files: an exit code and two texts. -/
structure Outcome where
  code : Nat
  stdout : Text
  stderr : Text

/-- A notice as the settings have it. -/
def Settings.show (s : Settings) : Notice → Text
  | .log entry => if entry.level.rank ≤ s.level.rank then entry.display.toList ++ ['\n'] else []
  | .line text => if s.quiet then [] else text.toList ++ ['\n']

/-- What a command says, as the settings have it. -/
def Settings.outcome (s : Settings) (r : Result) : Outcome :=
  { code := if r.success then 0 else 1
    stdout := if s.quiet then [] else r.output
    stderr := r.notices.flatMap s.show }

/-- The outcome of asking for the version. -/
def Outcome.version : Outcome :=
  ⟨0, "ebnf 0.1.0\n".toList, []⟩

/-- The outcome of a command line that makes no sense. -/
def UsageError.outcome (e : UsageError) : Outcome :=
  ⟨2, [], s!"error: {e.message}\n".toList⟩

/-- The script of an invocation. -/
def Invocation.script (i : Invocation) : Script :=
  i.command.script i.settings.format

end EbnfKit.CommandLine
