import EbnfKit.Check.Pass
import EbnfKit.Text.Escapes

/-! # Configurations in TOML

    A configuration file gives each setting on a line of its own as `key = value`.  A
    setting is a string or an array of strings, which may run over several lines;
    comments run from a number sign to the end of the line.  No setting is a number, a
    truth value, a date or a table, so none of these is read. -/

namespace EbnfKit.Toml

/-- What a setting can be. -/
inductive Value
  | string (text : Text)
  | strings (texts : List Text)
deriving DecidableEq

/-- White space within a line. -/
def isBlank (c : Char) : Bool :=
  c == ' ' || c == '\t'

/-- A control character that may not stand in a file as it is. -/
def isControl (c : Char) : Bool :=
  (c.toNat < 0x20 && c != '\t') || c == '\x7f'

/-- The text without the blanks in front. -/
def skipBlanks (cs : Text) : Text :=
  cs.dropWhile isBlank

/-- What follows the line break that stands here. -/
def lineBreak? : Text → Option Text
  | '\n' :: cs => some cs
  | '\r' :: '\n' :: cs => some cs
  | _ => none

/-- What follows a comment, from the line break on. -/
def afterComment? : Text → Option Text
  | [] => some []
  | '\n' :: cs => some ('\n' :: cs)
  | '\r' :: '\n' :: cs => some ('\r' :: '\n' :: cs)
  | c :: cs => if isControl c then none else afterComment? cs

/-- What is left of a line after blanks and a comment, from the line break on. -/
def lineRest? (cs : Text) : Option Text :=
  match skipBlanks cs with
  | '#' :: rest => afterComment? rest
  | rest => some rest

/-- What follows blanks, comments and line breaks. -/
def skipLines? : Nat → Text → Option Text
  | 0, cs => some cs
  | fuel + 1, cs =>
      (lineRest? cs).bind fun rest =>
        match lineBreak? rest with
        | some next => skipLines? fuel next
        | none => some rest

/-- The character of an escape and what follows it, the backslash already taken. -/
def escapedChar? : Text → Option (Char × Text)
  | 'b' :: cs => some ('\x08', cs)
  | 't' :: cs => some ('\t', cs)
  | 'n' :: cs => some ('\n', cs)
  | 'f' :: cs => some ('\x0c', cs)
  | 'r' :: cs => some ('\r', cs)
  | '"' :: cs => some ('"', cs)
  | '\\' :: cs => some ('\\', cs)
  | 'u' :: cs =>
      (Text.takeHex? 0 4 cs).bind fun (n, rest) => (Text.charOfNumber? n).map fun c => (c, rest)
  | 'U' :: cs =>
      (Text.takeHex? 0 8 cs).bind fun (n, rest) => (Text.charOfNumber? n).map fun c => (c, rest)
  | _ => none

/-- The rest of a string with escapes after its opening quote, and what follows it. -/
def basicTail? : Nat → Text → Option (Text × Text)
  | 0, _ => none
  | _ + 1, [] => none
  | fuel + 1, c :: cs =>
      if c = '"' then some ([], cs)
      else if c = '\\' then
        (escapedChar? cs).bind fun (d, rest) =>
          (basicTail? fuel rest).map fun (s, rest) => (d :: s, rest)
      else if isControl c then none
      else (basicTail? fuel cs).map fun (s, rest) => (c :: s, rest)

/-- The rest of a string without escapes after its opening quote, and what follows it. -/
def literalTail? : Text → Option (Text × Text)
  | [] => none
  | c :: cs =>
      if c = '\'' then some ([], cs)
      else if isControl c then none
      else (literalTail? cs).map fun (s, rest) => (c :: s, rest)

/-- A string at the front of the text, and what follows it. -/
def string? : Text → Option (Text × Text)
  | '"' :: cs => basicTail? (cs.length + 1) cs
  | '\'' :: cs => literalTail? cs
  | _ => none

/-- The strings of an array through its closing bracket.  A comma may follow the last
    one. -/
def strings? : Nat → Text → Option (List Text × Text)
  | 0, _ => none
  | fuel + 1, cs =>
      (skipLines? cs.length cs).bind fun here =>
        match here with
        | ']' :: rest => some ([], rest)
        | _ =>
            (string? here).bind fun (s, rest) =>
              (skipLines? rest.length rest).bind fun next =>
                match next with
                | ']' :: rest => some ([s], rest)
                | ',' :: rest => (strings? fuel rest).map fun (ss, rest) => (s :: ss, rest)
                | _ => none

/-- A value at the front of the text, and what follows it. -/
def value? (cs : Text) : Option (Value × Text) :=
  match cs with
  | '[' :: rest => (strings? (rest.length + 1) rest).map fun (ss, rest) => (.strings ss, rest)
  | _ => (string? cs).map fun (s, rest) => (.string s, rest)

/-- A character of a key without quotes. -/
def isKeyChar (c : Char) : Bool :=
  c.isAlphanum || c == '-' || c == '_'

/-- A key at the front of the text, and what follows it. -/
def key? (cs : Text) : Option (Text × Text) :=
  let bare := cs.takeWhile isKeyChar
  if bare.isEmpty then string? cs else some (bare, cs.drop bare.length)

/-- One setting at the front of the text, and what follows its line. -/
def setting? (cs : Text) : Option ((Text × Value) × Text) :=
  (key? cs).bind fun (key, rest) =>
    match skipBlanks rest with
    | '=' :: rest =>
        (value? (skipBlanks rest)).bind fun (value, rest) =>
          (lineRest? rest).bind fun rest =>
            if rest.isEmpty then some ((key, value), [])
            else (lineBreak? rest).map fun rest => ((key, value), rest)
    | _ => none

/-- The settings of a file, in order. -/
def settings? : Nat → Text → Option (List (Text × Value))
  | 0, _ => none
  | fuel + 1, cs =>
      (skipLines? cs.length cs).bind fun here =>
        if here.isEmpty then some []
        else (setting? here).bind fun (setting, rest) =>
          (settings? fuel rest).map fun more => setting :: more

/-- The text without the byte order mark that a file may begin with. -/
def withoutMark : Text → Text
  | '\ufeff' :: cs => cs
  | cs => cs

end EbnfKit.Toml

namespace EbnfKit.Config

/-- The configuration with one more setting. -/
def withSetting? (config : Config) (key : Text) (value : Toml.Value) : Option Config :=
  if key = "passes".toList then
    match value with
    | .strings names =>
        (names.mapM fun name => Pass.ofName? (String.ofList name)).map fun chosen =>
          { config with passes := Pass.ordered chosen }
    | .string _ => none
  else if key = "start-rule".toList then
    match value with
    | .string name => some { config with startRule := some name }
    | .strings _ => none
  else none

/-- The configuration with the given settings; those left out keep their defaults, and
    none may be given twice. -/
def ofSettings? : List (Text × Toml.Value) → Option Config
  | [] => some {}
  | (key, value) :: settings =>
      if settings.any fun setting => setting.1 == key then none
      else (ofSettings? settings).bind fun config => withSetting? config key value

/-- The configuration that a TOML text describes. -/
def parseToml? (text : Text) : Option Config :=
  let settings := Toml.withoutMark text
  (Toml.settings? (settings.length + 1) settings).bind ofSettings?

end EbnfKit.Config
