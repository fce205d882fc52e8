import EbnfKit.Token.Scan

/-! # Lexing — where one lexeme ends and the next begins

    Scanning has no memory: what follows a lexeme is scanned as if it stood alone.  The
    one thing to know at a boundary is that the lexeme in front of it does not run on.

      lexemes (x ++ y) = lexemes x ++ lexemes y     if the last lexeme of x ends there

    `Ends` says when: a run of letters, digits or blanks ends before another character, a
    string once its quote is closed, and an opening parenthesis unless an asterisk makes
    it the start of a comment.  `Lexical` says what the text of a lexeme looks like, and
    every lexeme that scanning finds is like that. -/

namespace EbnfKit

open Unicode

/-! ## Strings -/

namespace Lexeme

/-- A quote that no backslash escapes closes the string whose opening quote stands in
    front. -/
def closes (quote : Char) : Text → Bool
  | [] => false
  | [c] => c != '\\' && c == quote
  | c :: d :: cs =>
      if c = '\\' then closes quote cs
      else if c = quote then true
      else closes quote (d :: cs)

/-- The string with this text is closed. -/
def isClosed : Text → Bool
  | [] => false
  | quote :: body => closes quote body

theorem stringTail_append_afterString (quote : Char) (cs : Text) :
    stringTail quote cs ++ afterString quote cs = cs := by
  fun_induction stringTail quote cs with
  | case1 => rfl
  | case2 => rfl
  | case3 d cs ih => rw [afterString, if_pos rfl, List.cons_append, List.cons_append, ih]
  | case4 d cs hc => rw [afterString, if_neg hc, if_pos rfl]; rfl
  | case5 c d cs hc hq ih => rw [afterString, if_neg hc, if_neg hq, List.cons_append, ih]

/-- Only a closed string has something behind it. -/
theorem closes_of_afterString_ne_nil {quote : Char} {cs : Text}
    (h : afterString quote cs ≠ []) : closes quote cs = true := by
  fun_induction afterString quote cs with
  | case1 => exact absurd rfl h
  | case2 => exact absurd rfl h
  | case3 d cs ih => rw [closes, if_pos rfl]; exact ih h
  | case4 d cs hc => rw [closes, if_neg hc, if_pos rfl]
  | case5 c d cs hc hq ih => rw [closes, if_neg hc, if_neg hq]; exact ih h

/-- A string that is closed stays as it is, whatever follows. -/
theorem string_append {quote : Char} {cs : Text} (h : closes quote cs = true) (y : Text) :
    stringTail quote (cs ++ y) = stringTail quote cs ∧
      afterString quote (cs ++ y) = afterString quote cs ++ y := by
  fun_induction closes quote cs with
  | case1 => cases h
  | case2 c =>
      obtain ⟨hc, hq⟩ : c ≠ '\\' ∧ c = quote := by simpa using h
      cases y with
      | nil => exact ⟨rfl, rfl⟩
      | cons d y =>
          show stringTail quote (c :: d :: y) = [c] ∧ afterString quote (c :: d :: y) = d :: y
          rw [stringTail, afterString, if_neg hc, if_neg hc, if_pos hq, if_pos hq]
          exact ⟨rfl, rfl⟩
  | case3 d cs ih =>
      obtain ⟨h1, h2⟩ := ih h
      show stringTail quote ('\\' :: d :: (cs ++ y)) = _ ∧
        afterString quote ('\\' :: d :: (cs ++ y)) = _
      simp only [stringTail, afterString, if_pos, h1, h2, and_self]
  | case4 d cs hc =>
      show stringTail quote (quote :: d :: (cs ++ y)) = _ ∧
        afterString quote (quote :: d :: (cs ++ y)) = _
      simp only [stringTail, afterString, if_neg hc, if_pos, List.cons_append, and_self]
  | case5 c d cs hc hq ih =>
      obtain ⟨h1, h2⟩ := ih h
      show stringTail quote (c :: d :: (cs ++ y)) = _ ∧
        afterString quote (c :: d :: (cs ++ y)) = _
      simp only [stringTail, afterString, if_neg hc, if_neg hq]
      exact ⟨congrArg (c :: ·) h1, h2⟩

/-- Whether a string is closed shows in its own text. -/
theorem closes_stringTail (quote : Char) (cs : Text) :
    closes quote (stringTail quote cs) = closes quote cs := by
  fun_induction stringTail quote cs with
  | case1 => rfl
  | case2 => rfl
  | case3 d cs ih => rw [closes, closes, if_pos rfl, if_pos rfl, ih]
  | case4 d cs hc => simp [closes, hc]
  | case5 c d cs hc hq ih =>
      -- `c` decides nothing, with the tail behind it or alone
      rw [closes.eq_3, if_neg hc, if_neg hq, ← ih]
      cases hs : stringTail quote (d :: cs) with
      | nil => simp [closes, hq]
      | cons a as => rw [closes, if_neg hc, if_neg hq]

/-- The text of a string is the whole of its own tail. -/
theorem stringTail_stringTail (quote : Char) (cs : Text) :
    stringTail quote (stringTail quote cs) = stringTail quote cs := by
  fun_induction stringTail quote cs with
  | case1 => rfl
  | case2 => rfl
  | case3 d cs ih => rw [stringTail, if_pos rfl, ih]
  | case4 d cs hc => rfl
  | case5 c d cs hc hq ih =>
      cases hs : stringTail quote (d :: cs) with
      | nil => rfl
      | cons a as => rw [stringTail, if_neg hc, if_neg hq, ← hs, ih]

/-! ## Comments -/

theorem commentBody_append_afterBody (cs : Text) : commentBody cs ++ afterBody cs = cs := by
  fun_induction commentBody cs with
  | case1 => rfl
  | case2 => rfl
  | case3 c d cs h => rw [afterBody, if_pos h]; rfl
  | case4 c d cs h ih => rw [afterBody, if_neg h, List.cons_append, ih]

/-- What follows the body of a comment is nothing or begins with the closing mark. -/
theorem afterBody_eq (cs : Text) :
    afterBody cs = [] ∨ ∃ rest, afterBody cs = '*' :: ')' :: rest := by
  fun_induction afterBody cs with
  | case1 => exact Or.inl rfl
  | case2 => exact Or.inl rfl
  | case3 c d cs h => exact Or.inr ⟨cs, by rw [h.1, h.2]⟩
  | case4 c d cs h ih => exact ih

/-- A comment that is closed stays as it is, whatever follows. -/
theorem comment_append {cs : Text} (h : afterBody cs ≠ []) (y : Text) :
    commentBody (cs ++ y) = commentBody cs ∧ afterBody (cs ++ y) = afterBody cs ++ y := by
  fun_induction afterBody cs with
  | case1 => exact absurd rfl h
  | case2 => exact absurd rfl h
  | case3 c d cs hc =>
      show commentBody (c :: d :: (cs ++ y)) = _ ∧ afterBody (c :: d :: (cs ++ y)) = _
      simp only [commentBody, afterBody, if_pos hc, List.cons_append, and_self]
  | case4 c d cs hc ih =>
      obtain ⟨h1, h2⟩ := ih h
      show commentBody (c :: d :: (cs ++ y)) = _ ∧ afterBody (c :: d :: (cs ++ y)) = _
      simp only [commentBody, afterBody, if_neg hc]
      exact ⟨congrArg (c :: ·) h1, h2⟩

/-- The mark that closes a comment. -/
def closing : Text := ['*', ')']

/-- A text without the closing mark, such as the body of a comment. -/
def Unmarked (cs : Text) : Prop := commentBody (cs ++ closing) = cs

/-! ## Boundaries -/

/-- `l` ends where `following` begins: it would not run on into it. -/
def Ends (l : Lexeme) (following : Text) : Prop :=
  match l.kind with
  | .whitespace => ∀ c ∈ following.head?, isWhiteSpace c = false
  | .identifier => ∀ c ∈ following.head?, isNameChar c = false
  | .number => ∀ c ∈ following.head?, isDigit c = false
  | .stringLiteral => isClosed l.text = true
  | .commentStart | .comment => False
  | .leftParen => following.head? ≠ some '*'
  | _ => True

/-- A run that stops, or that what follows does not go on with, stays as it is. -/
theorem run_append (kind : TokenKind) {p : Char → Bool} (c : Char) {cs y : Text}
    (h : (run kind p c cs).2 ≠ [] ∨ ∀ d ∈ y.head?, p d = false) :
    run kind p c (cs ++ y) = ((run kind p c cs).1, (run kind p c cs).2 ++ y) := by
  have hsplit : ∀ cs : Text, (cs.dropWhile p ≠ [] ∨ ∀ d ∈ y.head?, p d = false) →
      (cs ++ y).takeWhile p = cs.takeWhile p ∧ (cs ++ y).dropWhile p = cs.dropWhile p ++ y := by
    intro cs hcs
    induction cs with
    | nil =>
        cases y with
        | nil => exact ⟨rfl, rfl⟩
        | cons d y =>
            have hd : p d = false := by
              rcases hcs with hne | hd
              · exact absurd rfl hne
              · exact hd d rfl
            simp [hd]
    | cons a as ih =>
        cases ha : p a with
        | false => simp [ha]
        | true =>
            rw [List.dropWhile_cons, ha, if_pos rfl] at hcs
            obtain ⟨h1, h2⟩ := ih hcs
            simp [ha, h1, h2]
  obtain ⟨h1, h2⟩ := hsplit cs h
  rw [run, run, h1, h2]

/-- Only a comment that is closed ends, or has something behind it. -/
theorem afterBody_ne_nil {cs y : Text}
    (h : (comment cs).2 ≠ [] ∨ ∀ l ∈ (comment cs).1.getLast?, l.Ends y) : afterBody cs ≠ [] := by
  intro hnil
  rcases h with hne | hlast
  · exact hne (by simp [comment, hnil])
  · simp only [comment, hnil] at hlast
    cases hb : (commentBody cs).isEmpty with
    | true => simp [hb, Ends] at hlast
    | false => simp [hb, Ends] at hlast

/-- The first bite of a text is the same, whatever follows: either it leaves some of the
    text, or its last lexeme ends there. -/
theorem munch_append {c : Char} {cs y : Text}
    (h : (munch c cs).2 ≠ [] ∨ ∀ l ∈ (munch c cs).1.getLast?, l.Ends y) :
    munch c (cs ++ y) = ((munch c cs).1, (munch c cs).2 ++ y) := by
  -- one case for each test of the scanner, in its order
  unfold munch at h ⊢
  split
  · rename_i hw
    rw [if_pos hw] at h
    exact run_append _ c (h.imp_right fun hl => hl _ rfl)
  rename_i hw
  rw [if_neg hw] at h
  split
  · rename_i ha
    rw [if_pos ha] at h
    exact run_append _ c (h.imp_right fun hl => hl _ rfl)
  rename_i ha
  rw [if_neg ha] at h
  split
  · rename_i hd
    rw [if_pos hd] at h
    exact run_append _ c (h.imp_right fun hl => hl _ rfl)
  rename_i hd
  rw [if_neg hd] at h
  split
  · rename_i hq
    rw [if_pos hq] at h
    have hclosed : closes c cs = true := by
      rcases h with hne | hl
      · exact closes_of_afterString_ne_nil hne
      · rw [← closes_stringTail]
        exact hl _ rfl
    obtain ⟨h1, h2⟩ := string_append hclosed y
    rw [h1, h2]
  rename_i hq
  rw [if_neg hq] at h
  by_cases hc : c = '(' ∧ cs.head? = some '*'
  · rw [if_pos hc] at h
    obtain ⟨cs, rfl⟩ := List.head?_eq_some_iff.mp hc.2
    rw [if_pos hc, if_pos ⟨hc.1, rfl⟩]
    show comment (cs ++ y) = ((comment cs).1, (comment cs).2 ++ y)
    have hne : afterBody cs ≠ [] := afterBody_ne_nil h
    obtain ⟨h1, h2⟩ := comment_append hne y
    obtain ⟨rest, hrest⟩ := (afterBody_eq cs).resolve_left hne
    simp only [comment, h1, h2, hrest, List.cons_append, List.isEmpty_cons, List.drop_succ_cons,
      List.drop_zero]
  · -- an opening parenthesis at the end might still run on into an asterisk
    rw [if_neg hc] at h
    have hc' : ¬(c = '(' ∧ (cs ++ y).head? = some '*') := by
      rintro ⟨rfl, hstar⟩
      cases cs with
      | cons d ds => exact hc ⟨rfl, hstar⟩
      | nil =>
          rcases h with hne | hl
          · exact absurd rfl hne
          · exact hl _ rfl hstar
    rw [if_neg hc, if_neg hc']

end Lexeme

theorem lexemes_nil : lexemes [] = [] := by
  rw [lexemes]

theorem lexemes_cons (c : Char) (cs : Text) :
    lexemes (c :: cs) = (Lexeme.munch c cs).1 ++ lexemes (Lexeme.munch c cs).2 := by
  rw [lexemes]

/-- **Lexing splits at boundaries**: where the last lexeme of `x` ends, what follows is
    scanned as if it stood alone. -/
theorem lexemes_append {x y : Text} (h : ∀ l ∈ (lexemes x).getLast?, l.Ends y) :
    lexemes (x ++ y) = lexemes x ++ lexemes y := by
  induction x using lexemes.induct with
  | case1 => rw [lexemes_nil]; rfl
  | case2 c cs ih =>
      rw [lexemes_cons] at h
      have hbite : Lexeme.munch c (cs ++ y)
          = ((Lexeme.munch c cs).1, (Lexeme.munch c cs).2 ++ y) := by
        refine Lexeme.munch_append ?_
        by_cases hne : (Lexeme.munch c cs).2 = []
        · right
          rw [hne, lexemes_nil, List.append_nil] at h
          exact h
        · exact Or.inl hne
      have hrest : ∀ l ∈ (lexemes (Lexeme.munch c cs).2).getLast?, l.Ends y := by
        intro l hl
        refine h l ?_
        rw [List.getLast?_append, hl]
        rfl
      rw [List.cons_append, lexemes_cons, lexemes_cons, hbite, List.append_assoc, ih hrest]

/-! ## What lexemes look like -/

namespace Lexeme

/-- A character that starts no run and no string, so that it is a lexeme by itself. -/
structure Single (c : Char) : Prop where
  notBlank : isWhiteSpace c = false
  notLetter : isAlphabetic c = false
  notDigit : isDigit c = false
  notQuote : c ≠ '"' ∧ c ≠ '\''

/-- The text of `l` is as its kind says. -/
def Lexical (l : Lexeme) : Prop :=
  match l.kind with
  | .whitespace => l.text ≠ [] ∧ ∀ c ∈ l.text, isWhiteSpace c = true
  | .identifier => ∃ c cs, l.text = c :: cs ∧ isWhiteSpace c = false ∧ isAlphabetic c = true ∧
      ∀ d ∈ cs, isNameChar d = true
  | .number => l.text ≠ [] ∧ ∀ c ∈ l.text, isDigit c = true
  | .stringLiteral => ∃ quote body, l.text = quote :: body ∧ (quote = '"' ∨ quote = '\'') ∧
      stringTail quote body = body
  | .commentStart => l.text = ['(', '*']
  | .comment => l.text ≠ [] ∧ Unmarked l.text
  | .commentEnd => l.text = closing
  | .endOfInput => False
  | kind => ∃ c, l.text = [c] ∧ TokenKind.ofChar c = kind ∧ Single c

theorem Lexical.ne_endOfInput {l : Lexeme} (h : l.Lexical) : l.kind ≠ .endOfInput := by
  intro hkind
  rw [Lexical, hkind] at h
  exact h

theorem Lexical.ne_nil {l : Lexeme} (h : l.Lexical) : l.text ≠ [] := by
  obtain ⟨kind, text⟩ := l
  cases kind <;> simp only [Lexical] at h
  case whitespace | number | comment => exact h.1
  case identifier => obtain ⟨c, cs, heq, -⟩ := h; rw [heq]; simp
  case stringLiteral => obtain ⟨q, cs, heq, -⟩ := h; rw [heq]; simp
  case commentStart | commentEnd => rw [h]; simp [closing]
  all_goals obtain ⟨c, heq, -⟩ := h; rw [heq]; simp

/-- The digits are neither blanks nor letters. -/
theorem digit_not_blank_not_letter {c : Char} (h : isDigit c = true) :
    isWhiteSpace c = false ∧ isAlphabetic c = false := by
  obtain ⟨hlo, hhi⟩ : '0' ≤ c ∧ c ≤ '9' := by simpa [isDigit] using h
  have hlo' : 48 ≤ c.toNat := hlo
  have hhi' : c.toNat ≤ 57 := hhi
  -- ten code points, looked up in both tables
  have hall : ∀ n, 48 ≤ n → n ≤ 57 →
      whiteSpace.has n = false ∧ alphabetic.has n = false := by
    intro n h1 h2
    obtain ⟨k, hk, rfl⟩ : ∃ k, k < 10 ∧ n = 48 + k := ⟨n - 48, by omega, by omega⟩
    revert k
    decide
  exact hall _ hlo' hhi'

/-- The body of a comment is empty or begins as the text does. -/
theorem commentBody_cons (d : Char) (cs : Text) :
    commentBody (d :: cs) = [] ∨ ∃ rest, commentBody (d :: cs) = d :: rest := by
  cases cs with
  | nil => exact Or.inr ⟨[], rfl⟩
  | cons e cs =>
      rw [commentBody]
      split
      · exact Or.inl rfl
      · exact Or.inr ⟨_, rfl⟩

theorem unmarked_commentBody (cs : Text) : Unmarked (commentBody cs) := by
  unfold Unmarked
  fun_induction commentBody cs with
  | case1 => rfl
  | case2 c => simp [closing, commentBody]
  | case3 c d cs h => rfl
  | case4 c d cs h ih =>
      -- `c` still has `d` behind it, or now the closing mark: no asterisk before `)` either way
      rcases commentBody_cons d cs with hb | ⟨rest, hb⟩
      · rw [hb]
        simp [closing, commentBody]
      · rw [hb] at ih ⊢
        show commentBody (c :: d :: (rest ++ closing)) = c :: d :: rest
        rw [commentBody, if_neg h]
        exact congrArg (c :: ·) ih

/-- The opening mark of a comment with its body, unless that is empty. -/
def opened (body : Text) : List Lexeme :=
  ⟨.commentStart, ['(', '*']⟩ :: if body.isEmpty then [] else [⟨.comment, body⟩]

/-- What a bite can be: the text, the lexemes at its front, and the rest. -/
inductive Bite : Text → List Lexeme → Text → Prop
  | blanks {b rest} : b ≠ [] → (∀ c ∈ b, isWhiteSpace c = true) →
      (∀ c ∈ rest.head?, isWhiteSpace c = false) → Bite (b ++ rest) [⟨.whitespace, b⟩] rest
  | solid {l rest} : l.Lexical → l.kind.isTrivia = false →
      ((l.kind = .stringLiteral ∧ rest = []) ∨ l.Ends rest) → Bite (l.text ++ rest) [l] rest
  | comment {body rest} : Unmarked body →
      Bite ('(' :: '*' :: (body ++ closing ++ rest)) (opened body ++ [⟨.commentEnd, closing⟩]) rest
  | openComment {body} : Unmarked body → Bite ('(' :: '*' :: body) (opened body) []

theorem run_bite (p : Char → Bool) (c : Char) (cs : Text) :
    (c :: cs.takeWhile p) ++ cs.dropWhile p = c :: cs ∧
      (∀ d ∈ cs.takeWhile p, p d = true) ∧ ∀ d ∈ (cs.dropWhile p).head?, p d = false := by
  refine ⟨?_, fun d hd => List.all_eq_true.mp List.all_takeWhile d hd, ?_⟩
  · rw [List.cons_append, List.takeWhile_append_dropWhile]
  · intro d hd
    have := List.head?_dropWhile_not p cs
    rw [Option.mem_def.mp hd] at this
    simpa using this

/-- A character by itself is a lexeme that ends before anything, but for an opening
    parenthesis before an asterisk. -/
theorem ofChar_bite {c : Char} {cs : Text} (h : Single c) (hc : ¬(c = '(' ∧ cs.head? = some '*')) :
    Bite (c :: cs) [⟨.ofChar c, [c]⟩] cs := by
  have hkind : ∀ kind, TokenKind.ofChar c = kind → Bite (c :: cs) [⟨kind, [c]⟩] cs := by
    intro kind hk
    -- one case for each sign, and one for the characters that are none
    unfold TokenKind.ofChar at hk
    split at hk <;> subst hk <;>
      refine @Bite.solid ⟨_, [_]⟩ cs ⟨_, rfl, by simp_all [TokenKind.ofChar], h⟩ rfl (Or.inr ?_)
    all_goals first | trivial | exact fun hs => hc ⟨rfl, hs⟩
  exact hkind _ rfl

/-- **Every bite is one of these.** -/
theorem munch_bite (c : Char) (cs : Text) : Bite (c :: cs) (munch c cs).1 (munch c cs).2 := by
  -- one case for each test of the scanner, as in `munch_append`
  unfold munch
  split
  · rename_i hw
    obtain ⟨htext, hall, hnext⟩ := run_bite isWhiteSpace c cs
    have := @Bite.blanks (c :: cs.takeWhile isWhiteSpace) (cs.dropWhile isWhiteSpace)
      (List.cons_ne_nil _ _) (List.forall_mem_cons.mpr ⟨hw, hall⟩) hnext
    rwa [htext] at this
  rename_i hw
  split
  · rename_i ha
    obtain ⟨htext, hall, hnext⟩ := run_bite isNameChar c cs
    have := @Bite.solid ⟨.identifier, c :: cs.takeWhile isNameChar⟩ (cs.dropWhile isNameChar)
      ⟨c, _, rfl, by simpa using hw, ha, hall⟩ rfl (Or.inr hnext)
    rwa [htext] at this
  rename_i ha
  split
  · rename_i hd
    obtain ⟨htext, hall, hnext⟩ := run_bite isDigit c cs
    have := @Bite.solid ⟨.number, c :: cs.takeWhile isDigit⟩ (cs.dropWhile isDigit)
      ⟨List.cons_ne_nil _ _, List.forall_mem_cons.mpr ⟨hd, hall⟩⟩ rfl (Or.inr hnext)
    rwa [htext] at this
  rename_i hd
  split
  · rename_i hq
    have htext := stringTail_append_afterString c cs
    have := @Bite.solid ⟨.stringLiteral, c :: stringTail c cs⟩ (afterString c cs)
      ⟨c, _, rfl, hq, stringTail_stringTail c cs⟩ rfl ?_
    · rwa [List.cons_append, htext] at this
    · -- a string ends at its quote, or with the text
      by_cases hnil : afterString c cs = []
      · exact Or.inl ⟨rfl, hnil⟩
      · refine Or.inr ?_
        show closes c (stringTail c cs) = true
        rw [closes_stringTail]
        exact closes_of_afterString_ne_nil hnil
  rename_i hq
  split
  · rename_i hc
    obtain ⟨cs, rfl⟩ := List.head?_eq_some_iff.mp hc.2
    have hb := commentBody_append_afterBody cs
    rw [hc.1, List.tail_cons, comment]
    rcases afterBody_eq cs with hnil | ⟨rest, hrest⟩
    · rw [hnil, List.append_nil] at hb
      have := Bite.openComment (unmarked_commentBody cs)
      rw [hnil]
      simpa [opened, hb] using this
    · rw [hrest] at hb
      have := @Bite.comment (commentBody cs) rest (unmarked_commentBody cs)
      rw [hrest]
      simpa [opened, closing, hb] using this
  · rename_i hc
    exact ofChar_bite ⟨by simpa using hw, by simpa using ha, by simpa using hd, by simpa using hq⟩ hc

/-- The lexemes of a comment without its closing mark. -/
theorem mem_opened {body : Text} {l : Lexeme} (h : l ∈ opened body) :
    l = ⟨.commentStart, ['(', '*']⟩ ∨ (l = ⟨.comment, body⟩ ∧ body ≠ []) := by
  rcases List.mem_cons.mp h with heq | hmem
  · exact Or.inl heq
  · split at hmem
    · cases hmem
    · rename_i hne
      exact Or.inr ⟨List.mem_singleton.mp hmem, by simpa using hne⟩

theorem opened_texts (body : Text) : (opened body).flatMap (·.text) = '(' :: '*' :: body := by
  rw [opened, List.flatMap_cons]
  split <;> simp_all

theorem opened_lexical {body : Text} (h : Unmarked body) : ∀ l ∈ opened body, l.Lexical := by
  intro l hl
  rcases mem_opened hl with rfl | ⟨rfl, hne⟩
  · rfl
  · exact ⟨hne, h⟩

namespace Bite

variable {x rest : Text} {ls : List Lexeme}

/-- Whatever a bite finds looks as its kind says. -/
theorem lexical (h : Bite x ls rest) : ∀ l ∈ ls, l.Lexical := by
  intro l hl
  cases h with
  | blanks hne hall _ =>
      rw [List.mem_singleton.mp hl]
      exact ⟨hne, hall⟩
  | solid hlex _ _ =>
      rw [List.mem_singleton.mp hl]
      exact hlex
  | comment hbody =>
      rcases List.mem_append.mp hl with hopen | hclose
      · exact opened_lexical hbody l hopen
      · rw [List.mem_singleton.mp hclose]
        rfl
  | openComment hbody => exact opened_lexical hbody l hl

/-- The lexemes of a bite spell what was bitten off. -/
theorem texts (h : Bite x ls rest) : ls.flatMap (·.text) ++ rest = x := by
  cases h with
  | blanks _ _ _ => simp
  | solid _ _ _ => simp
  | comment _ => simp [opened_texts]
  | openComment _ => simp [opened_texts]

theorem ne_nil (h : Bite x ls rest) : ls ≠ [] := by
  cases h <;> simp [opened]

end Bite

end Lexeme

theorem lexemes_eq_nil_iff {x : Text} : lexemes x = [] ↔ x = [] := by
  cases x with
  | nil => simp [lexemes_nil]
  | cons c cs => simp [lexemes_cons, (Lexeme.munch_bite c cs).ne_nil]

/-- Every lexeme of a text looks as its kind says. -/
theorem lexemes_lexical (x : Text) : ∀ l ∈ lexemes x, l.Lexical := by
  induction x using lexemes.induct with
  | case1 => rw [lexemes_nil]; intro l hl; cases hl
  | case2 c cs ih =>
      rw [lexemes_cons]
      intro l hl
      rcases List.mem_append.mp hl with hbite | hrest
      · exact (Lexeme.munch_bite c cs).lexical l hbite
      · exact ih l hrest

/-- The lexemes of a text spell it. -/
theorem lexemes_texts (x : Text) : (lexemes x).flatMap (·.text) = x := by
  induction x using lexemes.induct with
  | case1 => rw [lexemes_nil]; rfl
  | case2 c cs ih => rw [lexemes_cons, List.flatMap_append, ih, (Lexeme.munch_bite c cs).texts]

/-! ## What may be open -/

/-- Every opening mark of a comment has a closing one behind it, with nothing but the body
    of the comment in between. -/
def CommentsClosed (kinds : List TokenKind) : Prop :=
  ∀ xs ys, kinds = xs ++ .commentStart :: ys →
    ∃ body rest, ys = body ++ .commentEnd :: rest ∧ ∀ k ∈ body, k = .comment

theorem CommentsClosed.append {ks ms : List TokenKind} (hk : CommentsClosed ks)
    (hm : CommentsClosed ms) : CommentsClosed (ks ++ ms) := by
  intro xs ys heq
  -- the mark stands among the `ms`, or among the `ks` with its comment
  rcases List.append_eq_append_iff.mp heq with ⟨as, hxs, hms⟩ | ⟨bs, hks, hys⟩
  · exact hm as ys hms
  · cases bs with
    | nil => exact hm [] ys hys.symm
    | cons b bs =>
        obtain ⟨rfl, rfl⟩ := List.cons.inj hys
        obtain ⟨body, rest, rfl, hbody⟩ := hk xs bs hks
        exact ⟨body, rest ++ ms, by simp, hbody⟩

theorem commentsClosed_of_not_mem {kinds : List TokenKind} (h : .commentStart ∉ kinds) :
    CommentsClosed kinds := by
  intro xs ys heq
  rw [heq] at h
  exact absurd (List.mem_append_right xs List.mem_cons_self) h

namespace Lexeme

theorem kind_of_mem_opened {body : Text} {l : Lexeme} (h : l ∈ opened body) :
    l.kind = .commentStart ∨ l.kind = .comment := by
  rcases mem_opened h with rfl | ⟨rfl, -⟩
  · exact Or.inl rfl
  · exact Or.inr rfl

/-- A comment with its closing mark is closed. -/
theorem commentsClosed_comment (body : Text) :
    CommentsClosed ((opened body ++ [(⟨.commentEnd, closing⟩ : Lexeme)]).map (·.kind)) := by
  intro xs ys heq
  rw [opened] at heq
  -- only the first lexeme is an opening mark, so nothing can stand before it
  by_cases hb : body.isEmpty = true
  · simp only [if_pos hb, List.map_append, List.map_cons, List.map_nil] at heq
    rcases xs with _ | ⟨x, _ | ⟨y, xs⟩⟩
    · exact ⟨[], [], (List.cons.inj heq).2.symm, fun _ h => nomatch h⟩
    · simp at heq
    · simp at heq
  · simp only [if_neg hb, List.map_append, List.map_cons, List.map_nil] at heq
    rcases xs with _ | ⟨x, _ | ⟨y, _ | ⟨z, xs⟩⟩⟩
    · exact ⟨[.comment], [], (List.cons.inj heq).2.symm, by simp⟩
    · simp at heq
    · simp at heq
    · simp at heq

/-- A comment without its closing mark is not finished. -/
theorem not_ends_opened (body : Text) : ∃ l ∈ (opened body).getLast?, ¬l.Ends [] := by
  rw [opened]
  by_cases hb : body.isEmpty = true
  · exact ⟨⟨.commentStart, ['(', '*']⟩, by rw [if_pos hb]; rfl, id⟩
  · exact ⟨⟨.comment, body⟩, by rw [if_neg hb]; rfl, id⟩

/-- A comment without its closing mark is open at the end of a text. -/
theorem not_commentsClosed_opened (body : Text) :
    ¬CommentsClosed ((opened body).map (·.kind) ++ [.endOfInput]) := by
  intro h
  obtain ⟨cs, rest, heq, -⟩ := h [] ((opened body).tail.map (·.kind) ++ [.endOfInput]) rfl
  have hmem : TokenKind.commentEnd ∈ (opened body).tail.map (·.kind) ++ [.endOfInput] := by
    rw [heq]
    exact List.mem_append_right cs List.mem_cons_self
  rcases List.mem_append.mp hmem with hmem | hmem
  · obtain ⟨l, hl, hk⟩ := List.mem_map.mp hmem
    rcases kind_of_mem_opened (List.mem_of_mem_tail hl) with h | h <;> rw [h] at hk <;> cases hk
  · cases List.mem_singleton.mp hmem

namespace Bite

variable {x rest : Text} {ls : List Lexeme}

/-- The last bite of a text is finished, unless it leaves a string or a comment open. -/
theorem finished (h : Bite x ls rest) (hrest : rest = [])
    (hcomments : CommentsClosed (ls.map (·.kind) ++ [.endOfInput]))
    (hstrings : ∀ l ∈ ls, l.kind = .stringLiteral → isClosed l.text = true) :
    ∀ l ∈ ls.getLast?, l.Ends [] := by
  intro l hl
  have hmem := List.mem_of_getLast? hl
  cases h with
  | blanks _ _ _ =>
      rw [List.mem_singleton.mp hmem]
      intro c hc
      cases hc
  | solid _ _ hends =>
      subst hrest
      rw [List.mem_singleton.mp hmem]
      rcases hends with ⟨hk, -⟩ | hends
      · rw [Ends, hk]
        exact hstrings _ List.mem_cons_self hk
      · exact hends
  | comment _ =>
      rw [List.getLast?_concat] at hl
      rw [← Option.some.inj hl]
      trivial
  | @openComment body _ => exact absurd hcomments (not_commentsClosed_opened body)

/-- A bite that is finished closes its comment. -/
theorem commentsClosed (h : Bite x ls rest) (hends : rest ≠ [] ∨ ∀ l ∈ ls.getLast?, l.Ends []) :
    CommentsClosed (ls.map (·.kind)) := by
  cases h with
  | blanks _ _ _ => exact commentsClosed_of_not_mem (by simp)
  | @solid l _ _ hkind _ =>
      refine commentsClosed_of_not_mem ?_
      intro hmem
      have hk : .commentStart = l.kind := List.mem_singleton.mp hmem
      rw [← hk] at hkind
      cases hkind
  | @comment body _ _ => exact commentsClosed_comment body
  | @openComment body _ =>
      rcases hends with hrest | hends
      · exact absurd rfl hrest
      · obtain ⟨l, hl, hno⟩ := not_ends_opened body
        exact absurd (hends l hl) hno

/-- A bite with something behind it closes its string. -/
theorem strings (h : Bite x ls rest) :
    (ls.Pairwise fun l _ => l.kind = .stringLiteral → isClosed l.text = true) ∧
      (rest ≠ [] → ∀ l ∈ ls, l.kind = .stringLiteral → isClosed l.text = true) := by
  have hopened : ∀ {body : Text}, ∀ l ∈ opened body, l.kind ≠ .stringLiteral := by
    intro body l hl hk
    rcases kind_of_mem_opened hl with h | h <;> rw [h] at hk <;> cases hk
  have hcomment : ∀ {body : Text},
      ∀ l ∈ opened body ++ [⟨.commentEnd, closing⟩], l.kind ≠ .stringLiteral := by
    intro body l hl
    rcases List.mem_append.mp hl with hl | hl
    · exact hopened l hl
    · rw [List.mem_singleton.mp hl]
      exact fun hk => nomatch hk
  have hpair : ∀ {ls : List Lexeme}, (∀ l ∈ ls, l.kind ≠ .stringLiteral) →
      ls.Pairwise fun l _ => l.kind = .stringLiteral → isClosed l.text = true := by
    intro ls hno
    induction ls with
    | nil => exact List.Pairwise.nil
    | cons l ls ih =>
        obtain ⟨h1, h2⟩ := List.forall_mem_cons.mp hno
        exact List.Pairwise.cons (fun _ _ hk => absurd hk h1) (ih h2)
  cases h with
  | blanks _ _ _ =>
      refine ⟨List.pairwise_singleton _ _, ?_⟩
      intro _ l hl hk
      rw [List.mem_singleton.mp hl] at hk
      cases hk
  | @solid l _ hlex _ hends =>
      refine ⟨List.pairwise_singleton _ _, ?_⟩
      intro hrest m hm hk
      rw [List.mem_singleton.mp hm] at hk ⊢
      have := hends.resolve_left fun h => hrest h.2
      rwa [Ends, hk] at this
  | comment _ =>
      exact ⟨hpair hcomment, fun _ l hl hk => absurd hk (hcomment l hl)⟩
  | openComment _ =>
      exact ⟨hpair hopened, fun _ l hl hk => absurd hk (hopened l hl)⟩

end Bite

end Lexeme

/-- The text does not end within a string or a comment. -/
def Finished (x : Text) : Prop :=
  ∀ l ∈ (lexemes x).getLast?, l.Ends []

/-- All that scanning leaves is as finished as the text. -/
theorem Finished.rest {c : Char} {cs : Text} (h : Finished (c :: cs)) :
    Finished (Lexeme.munch c cs).2 := by
  intro l hl
  refine h l ?_
  rw [lexemes_cons, List.getLast?_append, hl]
  rfl

/-- Where nothing is left, the bite is finished. -/
theorem Finished.bite {c : Char} {cs : Text} (h : Finished (c :: cs)) :
    (Lexeme.munch c cs).2 ≠ [] ∨ ∀ l ∈ (Lexeme.munch c cs).1.getLast?, l.Ends [] := by
  by_cases hrest : (Lexeme.munch c cs).2 = []
  · right
    rw [Finished, lexemes_cons, hrest, lexemes_nil, List.append_nil] at h
    exact h
  · exact Or.inl hrest

/-- Only the last comment of a text can be open. -/
theorem Finished.commentsClosed {x : Text} (h : Finished x) :
    CommentsClosed ((lexemes x).map (·.kind)) := by
  induction x using lexemes.induct with
  | case1 => rw [lexemes_nil]; exact commentsClosed_of_not_mem (List.not_mem_nil)
  | case2 c cs ih =>
      rw [lexemes_cons, List.map_append]
      exact ((Lexeme.munch_bite c cs).commentsClosed h.bite).append (ih h.rest)

theorem CommentsClosed.right {ks ms : List TokenKind} (h : CommentsClosed (ks ++ ms)) :
    CommentsClosed ms := by
  intro xs ys heq
  exact h (ks ++ xs) ys (by rw [heq, List.append_assoc])

/-- A text is finished if it leaves no string and no comment open. -/
theorem finished_of_closed {x : Text}
    (hcomments : CommentsClosed ((lexemes x).map (·.kind) ++ [.endOfInput]))
    (hstrings : ∀ l ∈ lexemes x, l.kind = .stringLiteral → Lexeme.isClosed l.text = true) :
    Finished x := by
  induction x using lexemes.induct with
  | case1 =>
      intro l hl
      rw [lexemes_nil] at hl
      cases hl
  | case2 c cs ih =>
      rw [lexemes_cons] at hcomments hstrings
      obtain ⟨hfirst, hlater⟩ := List.forall_mem_append.mp hstrings
      rw [List.map_append, List.append_assoc] at hcomments
      have hfinished := ih hcomments.right hlater
      have hbite := Lexeme.munch_bite c cs
      intro l hl
      rw [lexemes_cons, List.getLast?_append] at hl
      cases hlast : (lexemes (Lexeme.munch c cs).2).getLast? with
      | some m =>
          rw [hlast, Option.some_or] at hl
          exact hfinished l (hlast.trans hl)
      | none =>
          -- nothing is left behind the last bite
          have hnil := lexemes_eq_nil_iff.mp (List.getLast?_eq_none_iff.mp hlast)
          rw [hlast, Option.none_or] at hl
          rw [hnil, lexemes_nil] at hcomments
          exact hbite.finished hnil hcomments hfirst l hl

/-- Only the last string of a text can be open. -/
theorem lexemes_strings (x : Text) : (lexemes x).Pairwise fun l _ =>
    l.kind = .stringLiteral → Lexeme.isClosed l.text = true := by
  induction x using lexemes.induct with
  | case1 => rw [lexemes_nil]; exact List.Pairwise.nil
  | case2 c cs ih =>
      obtain ⟨hpair, hall⟩ := (Lexeme.munch_bite c cs).strings
      rw [lexemes_cons]
      refine List.pairwise_append.mpr ⟨hpair, ih, ?_⟩
      -- the lexeme `m` stands behind this bite, so the bite left some of the text
      intro l hl m hm
      refine hall ?_ l hl
      intro hnil
      rw [hnil, lexemes_nil] at hm
      cases hm

end EbnfKit
