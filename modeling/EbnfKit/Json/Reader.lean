import EbnfKit.Json.Value
import EbnfKit.Text.Escapes

/-! # Reading JSON

    The reader takes the whole text or nothing.  Every step takes a character, so
    fuel of the length of the text is enough. -/

namespace EbnfKit.Json

/-- White space of JSON. -/
def isSpace (c : Char) : Bool :=
  c == ' ' || c == '\t' || c == '\n' || c == '\r'

/-- The text without the white space in front. -/
def skipSpace (cs : Text) : Text :=
  cs.dropWhile isSpace

/-- The character of an escape by number and what follows, the mark itself already
    taken.  A character beyond the first 65536 is written by two such escapes. -/
def numberedChar? (cs : Text) : Option (Char × Text) :=
  match Text.takeHex? 0 4 cs with
  | none => none
  | some (high, rest) =>
      if 0xD800 ≤ high ∧ high < 0xDC00 then
        match rest with
        | '\\' :: 'u' :: rest =>
            match Text.takeHex? 0 4 rest with
            | some (low, rest) =>
                if 0xDC00 ≤ low ∧ low < 0xE000 then
                  (Text.charOfNumber? (0x10000 + (high - 0xD800) * 0x400 + (low - 0xDC00))).map
                    fun c => (c, rest)
                else none
            | none => none
        | _ => none
      else (Text.charOfNumber? high).map fun c => (c, rest)

/-- The character that follows a backslash, unless it is written by number. -/
def escapedChar? : Char → Option Char
  | '"' => some '"'
  | '\\' => some '\\'
  | '/' => some '/'
  | 'b' => some '\x08'
  | 'f' => some '\x0c'
  | 'n' => some '\n'
  | 'r' => some '\r'
  | 't' => some '\t'
  | _ => none

/-- The rest of a string after its opening quote, and what follows it. -/
def stringTail? : Nat → Text → Option (Text × Text)
  | 0, _ => none
  | _ + 1, [] => none
  | fuel + 1, c :: cs =>
      if c = '"' then some ([], cs)
      else if c = '\\' then
        let unescaped :=
          match cs with
          | 'u' :: rest => numberedChar? rest
          | e :: rest => (escapedChar? e).map fun d => (d, rest)
          | [] => none
        unescaped.bind fun (d, rest) => (stringTail? fuel rest).map fun (s, rest) => (d :: s, rest)
      else if c.toNat < 0x20 then none
      else (stringTail? fuel cs).map fun (s, rest) => (c :: s, rest)

/-- A fixed word. -/
def word? (w : String) (v : Value) (cs : Text) : Option (Value × Text) :=
  if w.toList.isPrefixOf cs then some (v, cs.drop w.length) else none

/-- Digits, at least one, and what follows them. -/
def digits? (cs : Text) : Option (Text × Text) :=
  let run := cs.takeWhile Char.isDigit
  if run.isEmpty then none else some (run, cs.drop run.length)

/-- A fraction, or nothing. -/
def fraction? (cs : Text) : Option (Text × Text) :=
  match cs with
  | '.' :: rest => (digits? rest).map fun (ds, rest) => ('.' :: ds, rest)
  | _ => some ([], cs)

/-- An exponent, or nothing. -/
def exponent? (cs : Text) : Option (Text × Text) :=
  match cs with
  | e :: rest =>
      if e = 'e' ∨ e = 'E' then
        let sign := rest.takeWhile fun c => c == '+' || c == '-'
        if sign.length ≤ 1 then
          (digits? (rest.drop sign.length)).map fun (ds, rest) => (e :: sign ++ ds, rest)
        else none
      else some ([], cs)
  | [] => some ([], [])

/-- A number; one that starts with a zero has no further digits in front of the point. -/
def number? (cs : Text) : Option (Value × Text) :=
  let sign := if cs.head? = some '-' then ['-'] else []
  (digits? (cs.drop sign.length)).bind fun (whole, rest) =>
    if whole.head? = some '0' ∧ whole.length > 1 then none
    else (fraction? rest).bind fun (part, rest) =>
      (exponent? rest).map fun (power, rest) => (.number (sign ++ whole ++ part ++ power), rest)

mutual

/-- A value at the front of the text, and what follows it. -/
def value? : Nat → Text → Option (Value × Text)
  | 0, _ => none
  | fuel + 1, cs =>
      match skipSpace cs with
      | '"' :: rest => (stringTail? rest.length rest).map fun (s, rest) => (.string s, rest)
      | '[' :: rest =>
          match skipSpace rest with
          | ']' :: rest => some (.array [], rest)
          | rest => (items? fuel rest).map fun (vs, rest) => (.array vs, rest)
      | '\x7b' :: rest =>
          match skipSpace rest with
          | '\x7d' :: rest => some (.object [], rest)
          | rest => (fields? fuel rest).map fun (fs, rest) => (.object fs, rest)
      | 'n' :: rest => word? "null" .null ('n' :: rest)
      | 't' :: rest => word? "true" (.bool true) ('t' :: rest)
      | 'f' :: rest => word? "false" (.bool false) ('f' :: rest)
      | rest => number? rest

/-- The items of an array through its closing bracket, at least one. -/
def items? : Nat → Text → Option (List Value × Text)
  | 0, _ => none
  | fuel + 1, cs =>
      (value? fuel cs).bind fun (v, rest) =>
        match skipSpace rest with
        | ']' :: rest => some ([v], rest)
        | ',' :: rest => (items? fuel rest).map fun (vs, rest) => (v :: vs, rest)
        | _ => none

/-- The fields of an object through its closing bracket, at least one. -/
def fields? : Nat → Text → Option (List (Text × Value) × Text)
  | 0, _ => none
  | fuel + 1, cs =>
      match skipSpace cs with
      | '"' :: rest =>
          (stringTail? rest.length rest).bind fun (name, rest) =>
            match skipSpace rest with
            | ':' :: rest =>
                (value? fuel rest).bind fun (v, rest) =>
                  match skipSpace rest with
                  | '\x7d' :: rest => some ([(name, v)], rest)
                  | ',' :: rest =>
                      (fields? fuel rest).map fun (fs, rest) => ((name, v) :: fs, rest)
                  | _ => none
            | _ => none
      | _ => none

end

/-- The value that a text writes. -/
def Value.ofText? (cs : Text) : Option Value :=
  match value? (cs.length + 1) cs with
  | some (v, rest) => if (skipSpace rest).isEmpty then some v else none
  | none => none

end EbnfKit.Json
