import EbnfKit.CommandLine.Log

/-! # Arguments — what the command line asks for

    A command line names a command, a file, and options.  The options for the form of
    the output, for quiet and for the log may stand before the command or after it, and
    the later place wins; the others belong to one command and stand after it.  An
    option is given once at most in either place, and its value follows it, or stands in
    the same argument behind an equals sign.  In place of a command the version of the
    program may be asked for.  Arguments are read from left to right, and the first that
    makes no sense, or asks for the version, decides. -/

namespace EbnfKit.CommandLine

/-- The form of the output. -/
inductive Format
  | text
  | json
deriving DecidableEq

/-- What to do. -/
inductive Command
  | tokens (file : Text)
  | parse (file : Text)
  | check (file : Text) (passes config : Option Text)
  | format (file : Text)
  | fix (file : Text) (write : Bool)
deriving DecidableEq

/-- How to show what a command has to say. -/
structure Settings where
  format : Format := .text
  quiet : Bool := false
  level : Level := .warn
deriving DecidableEq

/-- A command and how to show what it says. -/
structure Invocation where
  settings : Settings
  command : Command
deriving DecidableEq

/-- What a command line asks for. -/
inductive Request
  /-- The version of the program. -/
  | version
  /-- A command. -/
  | run (invocation : Invocation)
deriving DecidableEq

/-- Why a command line makes no sense. -/
inductive UsageError
  | noCommand
  | unknownCommand (name : Text)
  | noFile
  | unexpected (argument : Text)
  | noValue (name : String)
  | badValue (name : String) (value : Text)
  | repeated (name : String)
deriving DecidableEq

/-- The error in words. -/
def UsageError.message : UsageError → String
  | noCommand => "a command is required"
  | unknownCommand name => s!"unknown command `{String.ofList name}`"
  | noFile => "a file is required"
  | unexpected argument => s!"unexpected argument `{String.ofList argument}`"
  | noValue name => s!"a value is required for `--{name}`"
  | badValue name value => s!"invalid value `{String.ofList value}` for `--{name}`"
  | repeated name => s!"`--{name}` is given more than once"

/-! ## Values -/

/-- The form of the output by its name. -/
def Format.ofText? (value : Text) : Option Format :=
  if value = "text".toList then some .text
  else if value = "json".toList then some .json
  else none

/-- The log level by its name. -/
def Level.ofText? (value : Text) : Option Level :=
  Level.all.find? fun level => level.name.toList == value

/-! ## Options -/

/-- The options. -/
inductive OptionName
  | output
  | quiet
  | logLevel
  | passes
  | config
  | write
deriving DecidableEq

namespace OptionName

/-- The name without its dashes. -/
def name : OptionName → String
  | output => "output"
  | quiet => "quiet"
  | logLevel => "log-level"
  | passes => "passes"
  | config => "config"
  | write => "write"

/-- The option has a value. -/
def takesValue : OptionName → Bool
  | output | logLevel | passes | config => true
  | quiet | write => false

/-- The text can be the value of the option; a path is not empty. -/
def accepts : OptionName → Text → Bool
  | output, value => (Format.ofText? value).isSome
  | logLevel, value => (Level.ofText? value).isSome
  | config, value => !value.isEmpty
  | _, _ => true

/-- The options that may stand anywhere. -/
def everywhere : List OptionName :=
  [output, quiet, logLevel]

/-- The option of the given name among those that are allowed. -/
def find? (allowed : List OptionName) (text : Text) : Option OptionName :=
  allowed.find? fun o => o.name.toList == text

end OptionName

/-- What is given in one place: options with their values, and the other arguments. -/
structure Given where
  options : List (OptionName × Text) := []
  positional : List Text := []
deriving DecidableEq

namespace Given

/-- The value of an option, if it is given. -/
def value? (g : Given) (o : OptionName) : Option Text :=
  g.options.lookup o

/-- One more option, which must not be given yet and must accept its value. -/
def withOption (g : Given) (o : OptionName) (value : Text) : Except UsageError Given :=
  if (g.value? o).isSome then .error (.repeated o.name)
  else if !o.accepts value then .error (.badValue o.name value)
  else .ok { g with options := g.options ++ [(o, value)] }

/-- One more argument that is no option. -/
def withPositional (g : Given) (argument : Text) : Given :=
  { g with positional := g.positional ++ [argument] }

end Given

/-- The argument looks like an option: it begins with a dash and goes on. -/
def isDashed : Text → Bool
  | '-' :: _ :: _ => true
  | _ => false

/-- The name of an option and the value in the same argument, if there is one; the dashes
    are gone already. -/
def splitOption (body : Text) : Text × Option Text :=
  let name := body.takeWhile (· != '=')
  match body.drop name.length with
  | [] => (name, none)
  | _ :: value => (name, some value)

/-- The value of an option and the arguments after it. -/
def optionValue (o : OptionName) (inline : Option Text) (rest : List Text) :
    Except UsageError (Text × List Text) :=
  match o.takesValue, inline, rest with
  | true, some value, _ => .ok (value, rest)
  | true, none, value :: rest => if isDashed value then .error (.noValue o.name) else .ok (value, rest)
  | true, none, [] => .error (.noValue o.name)
  | false, some value, _ => .error (.badValue o.name value)
  | false, none, _ => .ok ([], rest)

/-- Whether reading stops at the first argument that is no option. -/
inductive Extent
  | toCommand
  | toEnd
deriving DecidableEq

/-- What reading arguments in one place came to. -/
inductive Reading
  /-- The version is asked for. -/
  | version
  /-- What is given, and the arguments not read yet. -/
  | given (given : Given) (rest : List Text)
deriving DecidableEq

/-- The argument asks for the version. -/
def asksVersion : Text → Bool
  | '-' :: 'V' :: _ => true
  | argument => argument == "--version".toList

/-- Reads arguments in one place; only in front of the command the version may be asked
    for.  After two dashes alone no argument is an option.  Every step takes an
    argument. -/
def readArguments (allowed : List OptionName) (extent : Extent) :
    Nat → Given → List Text → Except UsageError Reading
  | 0, given, args => .ok (.given given args)
  | _ + 1, given, [] => .ok (.given given [])
  | fuel + 1, given, arg :: rest =>
      if extent = .toCommand ∧ asksVersion arg then .ok .version
      else
        match arg with
        | ['-', '-'] =>
            match extent with
            | .toCommand => .error (.unexpected arg)
            | .toEnd => .ok (.given (rest.foldl Given.withPositional given) [])
        | '-' :: '-' :: body =>
            match OptionName.find? allowed (splitOption body).1 with
            | none => .error (.unexpected arg)
            | some o =>
                match optionValue o (splitOption body).2 rest with
                | .error e => .error e
                | .ok (value, rest) =>
                    match given.withOption o value with
                    | .error e => .error e
                    | .ok given => readArguments allowed extent fuel given rest
        | _ =>
            if isDashed arg then .error (.unexpected arg)
            else
              match extent with
              | .toCommand => .ok (.given given (arg :: rest))
              | .toEnd => readArguments allowed extent fuel (given.withPositional arg) rest

/-- The settings that options give, where others already hold. -/
def Settings.update (s : Settings) (g : Given) : Settings :=
  { format := ((g.value? .output).bind Format.ofText?).getD s.format
    quiet := s.quiet || (g.value? .quiet).isSome
    level := ((g.value? .logLevel).bind Level.ofText?).getD s.level }

/-! ## Commands -/

/-- The commands by name, with the options of each. -/
inductive CommandName
  | tokens
  | parse
  | check
  | format
  | fix
deriving DecidableEq

namespace CommandName

/-- The command of the given name. -/
def ofText? (text : Text) : Option CommandName :=
  if text = "tokens".toList then some tokens
  else if text = "parse".toList then some parse
  else if text = "check".toList then some check
  else if text = "fmt".toList then some format
  else if text = "fix".toList then some fix
  else none

/-- The options that may stand after the command. -/
def options : CommandName → List OptionName
  | tokens | parse | format => OptionName.everywhere
  | check => OptionName.everywhere ++ [.passes, .config]
  | fix => OptionName.everywhere ++ [.write]

/-- The command on a file with the given options. -/
def command (name : CommandName) (file : Text) (given : Given) : Command :=
  match name with
  | tokens => .tokens file
  | parse => .parse file
  | check => .check file (given.value? .passes) (given.value? .config)
  | format => .format file
  | fix => .fix file (given.value? .write).isSome

end CommandName

/-- The file that is given, the only argument besides options. -/
def fileOf (given : Given) : Except UsageError Text :=
  match given.positional with
  | [] => .error .noFile
  | [file] => if file.isEmpty then .error .noFile else .ok file
  | _ :: extra :: _ => .error (.unexpected extra)

/-- The command of the given name, with the arguments after it and the settings in front
    of it. -/
def Invocation.ofCommand (outer : Settings) (name : CommandName) (args : List Text) :
    Except UsageError Request :=
  match readArguments name.options .toEnd args.length {} args with
  | .error e => .error e
  | .ok .version => .ok .version
  | .ok (.given after _) =>
      (fileOf after).map fun file => .run ⟨outer.update after, name.command file after⟩

/-- What a command line asks for. -/
def Request.ofArguments (args : List Text) : Except UsageError Request :=
  match readArguments OptionName.everywhere .toCommand args.length {} args with
  | .error e => .error e
  | .ok .version => .ok .version
  | .ok (.given _ []) => .error .noCommand
  | .ok (.given before (word :: rest)) =>
      match CommandName.ofText? word with
      | none => .error (.unknownCommand word)
      | some name => Invocation.ofCommand (Settings.update {} before) name rest

end EbnfKit.CommandLine
