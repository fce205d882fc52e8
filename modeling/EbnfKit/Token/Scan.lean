import EbnfKit.Token.Basic
import EbnfKit.Unicode.Alphabetic
import EbnfKit.Unicode.Basic

/-! # Scanning — from a text to its tokens

    Scanning never fails: a character that starts no token becomes a token of its
    own, and a string or a comment that is never closed runs to the end of the text.

    The work is split in three.  `munch` takes the first lexemes off a text that is
    not empty, always at least one; `lexemes` repeats it; `place` turns lexemes into
    tokens by adding up their sizes.  A comment comes off in one bite, as its opening
    mark, its body unless empty, and its closing mark unless missing, so the scanner
    carries no state from one bite to the next. -/

namespace EbnfKit

/-- A kind and the text of that kind, not yet placed. -/
structure Lexeme where
  kind : TokenKind
  text : Text
deriving DecidableEq

namespace Lexeme

/-- A character that may continue a rule name. -/
def isNameChar (c : Char) : Bool :=
  Unicode.isAlphabetic c || Unicode.isNumeral c || c == '_'

/-- An ASCII decimal digit. -/
def isDigit (c : Char) : Bool :=
  '0' ≤ c && c ≤ '9'

/-- What belongs to a string after its opening quote: everything through the closing
    quote, or all of `cs`.  A backslash keeps the character after it from closing the
    string. -/
def stringTail (quote : Char) : Text → Text
  | [] => []
  | [c] => [c]
  | c :: d :: cs =>
      if c = '\\' then c :: d :: stringTail quote cs
      else if c = quote then [c]
      else c :: stringTail quote (d :: cs)

/-- What follows a string, given the text after its opening quote. -/
def afterString (quote : Char) : Text → Text
  | [] => []
  | [_] => []
  | c :: d :: cs =>
      if c = '\\' then afterString quote cs
      else if c = quote then d :: cs
      else afterString quote (d :: cs)

/-- The body of a comment: everything before the first closing mark, or all of `cs`. -/
def commentBody : Text → Text
  | [] => []
  | [c] => [c]
  | c :: d :: cs => if c = '*' ∧ d = ')' then [] else c :: commentBody (d :: cs)

/-- What follows the body of a comment: nothing, or its closing mark and the rest. -/
def afterBody : Text → Text
  | [] => []
  | [_] => []
  | c :: d :: cs => if c = '*' ∧ d = ')' then c :: d :: cs else afterBody (d :: cs)

/-- The lexemes of a comment whose opening mark has been seen, and what follows it. -/
def comment (cs : Text) : List Lexeme × Text :=
  (⟨.commentStart, ['(', '*']⟩ ::
    (if (commentBody cs).isEmpty then [] else [⟨.comment, commentBody cs⟩]) ++
    (if (afterBody cs).isEmpty then [] else [⟨.commentEnd, ['*', ')']⟩]),
   (afterBody cs).drop 2)

/-- The longest run of `c :: cs` all of whose characters after `c` satisfy `p`. -/
def run (kind : TokenKind) (p : Char → Bool) (c : Char) (cs : Text) : List Lexeme × Text :=
  ([⟨kind, c :: cs.takeWhile p⟩], cs.dropWhile p)

/-- The first lexemes of `c :: cs`, and what follows them. -/
def munch (c : Char) (cs : Text) : List Lexeme × Text :=
  if Unicode.isWhiteSpace c then run .whitespace Unicode.isWhiteSpace c cs
  else if Unicode.isAlphabetic c then run .identifier isNameChar c cs
  else if isDigit c then run .number isDigit c cs
  else if c = '"' ∨ c = '\'' then ([⟨.stringLiteral, c :: stringTail c cs⟩], afterString c cs)
  else if c = '(' ∧ cs.head? = some '*' then comment cs.tail
  else ([⟨.ofChar c, [c]⟩], cs)

theorem afterString_length (quote : Char) (cs : Text) :
    (afterString quote cs).length ≤ cs.length := by
  fun_induction afterString quote cs <;> simp_all <;> omega

theorem afterBody_length (cs : Text) : (afterBody cs).length ≤ cs.length := by
  fun_induction afterBody cs <;> simp_all
  omega

theorem comment_length (cs : Text) : (comment cs).2.length ≤ cs.length := by
  have h := afterBody_length cs
  simp only [comment, List.length_drop]
  omega

theorem run_length (kind : TokenKind) (p : Char → Bool) (c : Char) (cs : Text) :
    (run kind p c cs).2.length ≤ cs.length :=
  (List.dropWhile_sublist p).length_le

/-- A bite is never empty-handed: what it leaves is no longer than what stood after
    the first character. -/
theorem munch_length (c : Char) (cs : Text) : (munch c cs).2.length ≤ cs.length := by
  unfold munch
  split
  · exact run_length ..
  split
  · exact run_length ..
  split
  · exact run_length ..
  split
  · exact afterString_length ..
  split
  · exact Nat.le_trans (comment_length _) (by simp)
  · exact Nat.le_refl _

end Lexeme

/-- All lexemes of a text, in order. -/
def lexemes : Text → List Lexeme
  | [] => []
  | c :: cs => (Lexeme.munch c cs).1 ++ lexemes (Lexeme.munch c cs).2
termination_by cs => cs.length
decreasing_by exact Nat.lt_succ_of_le (Lexeme.munch_length c cs)

/-- Lexemes as tokens of a text in which the first one starts at `offset`, with the
    end of the text after the last one. -/
def place (offset : Nat) : List Lexeme → List Token
  | [] => [.atEnd offset]
  | l :: ls =>
      ⟨l.kind, ⟨offset, offset + Text.size l.text⟩, l.text⟩ ::
        place (offset + Text.size l.text) ls

/-- The tokens of a text.  Their texts add up to it, and the last one, alone, is the
    end of input. -/
def tokenize (cs : Text) : List Token :=
  place 0 (lexemes cs)

end EbnfKit
