import EbnfKit.Diagnostic
import EbnfKit.Text.Escapes
import EbnfKit.Token.Basic

/-! # Replies — reading a value off the front of a token list

    A reader takes tokens off the front of a list and replies with a value or with the
    one error that stopped it.  Either way it says what is left, because recovery goes
    on from there, and which lesser problems it met on the way.  Where the tokens run
    out stands the end of the input, an empty span that readers are told.

    A span that is put together from two tokens may come out backward, but only where
    the spans of the tokens are out of order, as those of a scanned text never are.
    Reading goes on, and the reply tells. -/

namespace EbnfKit

/-- What reading came to. -/
structure Reply (α : Type) where
  /-- Problems that did not stop the reading, in the order met. -/
  notes : List Diagnostic
  /-- The spans put together that are backward, in the order met. -/
  backward : List Span
  /-- The value, or the error that stopped the reading. -/
  result : Except Diagnostic α
  /-- The tokens not yet taken. -/
  rest : List Token

/-- A reader, given the span of the end of the input and the tokens in front of it. -/
abbrev Reader (α : Type) := Span → List Token → Reply α

namespace Reader

variable {α β : Type}

/-- Takes nothing. -/
def pure (a : α) : Reader α :=
  fun _ ts => ⟨[], [], .ok a, ts⟩

/-- `p`, then what follows from its value; the notes and the backward spans of both add
    up. -/
def bind (p : Reader α) (f : α → Reader β) : Reader β :=
  fun stop ts =>
    match p stop ts with
    | ⟨notes, backward, .error e, rest⟩ => ⟨notes, backward, .error e, rest⟩
    | ⟨notes, backward, .ok a, rest⟩ =>
        let later := f a stop rest
        ⟨notes ++ later.notes, backward ++ later.backward, later.result, later.rest⟩

instance : Monad Reader where
  pure := Reader.pure
  bind := Reader.bind

/-- Stops with an error. -/
def fail (d : Diagnostic) : Reader α :=
  fun _ ts => ⟨[], [], .error d, ts⟩

/-- Notes a problem and goes on. -/
def note (d : Diagnostic) : Reader Unit :=
  fun _ ts => ⟨[d], [], .ok (), ts⟩

/-- Puts a span together, and tells if it is backward. -/
def span (start stop : Nat) : Reader Span :=
  fun _ ts =>
    let s : Span := ⟨start, stop⟩
    ⟨[], if s.isBackward then [s] else [], .ok s, ts⟩

/-- The span of the next token, or of the end of the input. -/
def here : Reader Span :=
  fun stop ts => ⟨[], [], .ok ((ts.head?.map (·.span)).getD stop), ts⟩

/-- Takes the next token if it is of the given kind. -/
def accept (kind : TokenKind) : Reader (Option Token) :=
  fun _ ts =>
    match ts with
    | t :: rest => if t.kind = kind then ⟨[], [], .ok (some t), rest⟩ else ⟨[], [], .ok none, ts⟩
    | [] => ⟨[], [], .ok none, []⟩

/-- The next token in the words of a message; none is the end of the input. -/
def found : Option Token → String
  | none => TokenKind.endOfInput.describe
  | some t =>
      match t.kind with
      | .identifier => s!"rule name `{String.ofList t.text}`"
      | .stringLiteral => s!"string literal {String.ofList t.text}"
      | .number => s!"number `{String.ofList t.text}`"
      | .badCharacter => s!"unexpected character `{String.ofList t.text.escaped}`"
      | kind => kind.describe

/-- Stops at the next token, which is not what was expected. -/
def unexpected (expected : String) : Reader α :=
  fun stop ts =>
    let span := (ts.head?.map (·.span)).getD stop
    ⟨[], [], .error (.syntaxError span s!"expected {expected}, found {found ts.head?}"), ts⟩

/-- Takes the next token, which must be of the given kind. -/
def expect (kind : TokenKind) : Reader Token := do
  match ← accept kind with
  | some t => return t
  | none => unexpected kind.describe

/-- At most `n` further items, each after a separator. -/
def others (separator : TokenKind) (item : Reader α) : Nat → Reader (List α)
  | 0 => Reader.pure []
  | n + 1 => do
      match ← accept separator with
      | none => return []
      | some _ => return (← item) :: (← others separator item n)

/-- Items with separators between them, at least one.  Each further item takes a token,
    so there are at most as many as tokens are left. -/
def separated (separator : TokenKind) (item : Reader α) : Reader (α × List α) := do
  let first ← item
  let more ← fun stop ts => others separator item ts.length stop ts
  return (first, more)

end Reader

end EbnfKit
