import EbnfKit.Text.Basic

/-! # Tokens — the lexical vocabulary of EBNF

    A token is a kind, a span and the exact text under that span.  White space and
    comments are tokens too, so that the tokens of a text tile it; they are the
    trivia, which the grammar does not see. -/

namespace EbnfKit

/-- What a token is. -/
inductive TokenKind
  | identifier
  | stringLiteral
  | number
  | commentStart
  | comment
  | commentEnd
  | equals
  | semicolon
  | comma
  | verticalBar
  | leftParen
  | rightParen
  | leftBrace
  | rightBrace
  | leftBracket
  | rightBracket
  | repetitionSymbol
  | exceptionSymbol
  | whitespace
  | badCharacter
  | endOfInput
deriving DecidableEq, Inhabited

namespace TokenKind

/-- Every kind, once. -/
def all : List TokenKind :=
  [identifier, stringLiteral, number, commentStart, comment, commentEnd, equals, semicolon,
    comma, verticalBar, leftParen, rightParen, leftBrace, rightBrace, leftBracket,
    rightBracket, repetitionSymbol, exceptionSymbol, whitespace, badCharacter, endOfInput]

/-- The name under which listings show the kind. -/
def label : TokenKind → String
  | identifier => "Identifier"
  | stringLiteral => "StringLiteral"
  | number => "Number"
  | commentStart => "CommentStart"
  | comment => "Comment"
  | commentEnd => "CommentEnd"
  | equals => "Equals"
  | semicolon => "Semicolon"
  | comma => "Comma"
  | verticalBar => "VerticalBar"
  | leftParen => "LeftParen"
  | rightParen => "RightParen"
  | leftBrace => "LeftBrace"
  | rightBrace => "RightBrace"
  | leftBracket => "LeftBracket"
  | rightBracket => "RightBracket"
  | repetitionSymbol => "RepetitionSymbol"
  | exceptionSymbol => "ExceptionSymbol"
  | whitespace => "Whitespace"
  | badCharacter => "BadCharacter"
  | endOfInput => "EndOfInput"

/-- The kind shown as `text`. -/
def ofLabel? (text : String) : Option TokenKind :=
  all.find? fun kind => kind.label == text

/-- The kind in the words of a message. -/
def describe : TokenKind → String
  | identifier => "rule name"
  | stringLiteral => "string literal"
  | number => "number"
  | commentStart => "`(*`"
  | comment => "comment"
  | commentEnd => "`*)`"
  | equals => "`=`"
  | semicolon => "`;`"
  | comma => "`,`"
  | verticalBar => "`|`"
  | leftParen => "`(`"
  | rightParen => "`)`"
  | leftBrace => "`\x7b`"
  | rightBrace => "`\x7d`"
  | leftBracket => "`[`"
  | rightBracket => "`]`"
  | repetitionSymbol => "`*`"
  | exceptionSymbol => "`-`"
  | whitespace => "whitespace"
  | badCharacter => "unexpected character"
  | endOfInput => "end of input"

/-- White space and comments: what stands between the tokens of a grammar. -/
def isTrivia : TokenKind → Bool
  | whitespace | commentStart | comment | commentEnd => true
  | _ => false

/-- The kind of a character that is a token by itself. -/
def ofChar : Char → TokenKind
  | '=' => equals
  | ';' => semicolon
  | ',' => comma
  | '|' => verticalBar
  | '(' => leftParen
  | ')' => rightParen
  | '\x7b' => leftBrace
  | '\x7d' => rightBrace
  | '[' => leftBracket
  | ']' => rightBracket
  | '*' => repetitionSymbol
  | '-' => exceptionSymbol
  | _ => badCharacter

end TokenKind

/-- A piece of a text: its kind, where it stands, and how it is written. -/
structure Token where
  kind : TokenKind
  span : Span
  text : Text
deriving DecidableEq, Inhabited

namespace Token

/-- The token is of the given kind. -/
def is (t : Token) (kind : TokenKind) : Bool :=
  t.kind == kind

/-- The empty token that ends a text of `offset` bytes. -/
def atEnd (offset : Nat) : Token :=
  ⟨.endOfInput, .point offset, []⟩

/-- The same token in a text with `n` more bytes in front. -/
def shift (n : Nat) (t : Token) : Token :=
  { t with span := t.span.shift n }

end Token

end EbnfKit
