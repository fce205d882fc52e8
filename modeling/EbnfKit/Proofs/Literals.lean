import EbnfKit.Proofs.Derivation

/-! # Literals — strings and counts as they are written

    A string is closed when an unescaped quote ends it, and the split at the quotes
    recognises that by its end alone: the last character is the quote, with an even number
    of backslashes in front.  A number is a count when it fits in 32 bits. -/

namespace EbnfKit

/-! ## Strings -/

/-- Number of backslashes at the end of a text. -/
def backslashes (cs : Text) : Nat :=
  (cs.reverse.takeWhile (· == '\\')).length

theorem backslashes_cons {c : Char} (hc : c ≠ '\\') (cs : Text) :
    backslashes (c :: cs) = backslashes cs := by
  have hskip : ∀ l : Text, (l ++ [c]).takeWhile (· == '\\') = l.takeWhile (· == '\\') := by
    intro l
    induction l with
    | nil => simp [hc]
    | cons a l ih => simp [List.takeWhile_cons, ih]
  rw [backslashes, backslashes, List.reverse_cons, hskip]

/-- A backslash and the character behind it do not change the parity. -/
theorem backslashes_escape (d : Char) (cs : Text) :
    backslashes ('\\' :: d :: cs) % 2 = backslashes cs % 2 := by
  have hskip : ∀ l : Text, ((l ++ [d, '\\']).takeWhile (· == '\\')).length % 2
      = (l.takeWhile (· == '\\')).length % 2 := by
    intro l
    induction l with
    | nil =>
        by_cases hd : d = '\\'
        · simp [hd]
        · simp [hd]
    | cons a l ih =>
        by_cases ha : a = '\\'
        · simp only [ha, List.cons_append, List.takeWhile_cons, beq_self_eq_true, if_true,
            List.length_cons]
          omega
        · simp [ha]
  rw [backslashes, backslashes, List.reverse_cons, List.reverse_cons, List.append_assoc]
  exact hskip cs.reverse

/-- A whole string ends in an unescaped quote exactly if an even number of backslashes
    stands in front of the quote at its end. -/
theorem closes_iff {quote : Char} (hq : quote ≠ '\\') {body : Text}
    (hwhole : Lexeme.stringTail quote body = body) :
    Lexeme.closes quote body = true ↔
      body.getLast? = some quote ∧ backslashes body.dropLast % 2 = 0 := by
  fun_induction Lexeme.closes quote body with
  | case1 => simp
  | case2 c =>
      constructor
      · intro h
        obtain ⟨-, rfl⟩ : c ≠ '\\' ∧ c = quote := by simpa using h
        exact ⟨rfl, rfl⟩
      · rintro ⟨h, -⟩
        obtain rfl : c = quote := Option.some.inj h
        simpa [Lexeme.closes] using hq
  | case3 d cs ih =>
      rw [Lexeme.stringTail, if_pos rfl] at hwhole
      injection hwhole with _ hwhole
      injection hwhole with _ hwhole
      rw [ih hwhole]
      cases cs with
      | nil => simp [backslashes]
      | cons e cs =>
          rw [List.getLast?_cons_cons, List.getLast?_cons_cons, List.dropLast_cons_cons,
            List.dropLast_cons_cons, backslashes_escape]
  | case4 d cs hc =>
      rw [Lexeme.stringTail, if_neg hc, if_pos rfl] at hwhole
      injection hwhole with _ hwhole
      cases hwhole
  | case5 c d cs hc hcq ih =>
      rw [Lexeme.stringTail, if_neg hc, if_neg hcq] at hwhole
      injection hwhole with _ hwhole
      rw [ih hwhole, List.getLast?_cons_cons, List.dropLast_cons_cons, backslashes_cons hc]

/-- A string literal is split where its quotes are. -/
theorem quotes_ofText {l : Lexeme} (hl : l.Lexical) (hk : l.kind = .stringLiteral) :
    Quotes l.text (Quoted.ofText l.text).quote (Quoted.ofText l.text).text ∧
      (Quoted.ofText l.text).closed = Lexeme.isClosed l.text := by
  rw [Lexeme.Lexical, hk] at hl
  obtain ⟨quote, body, htext, hq, hwhole⟩ := hl
  have hne : quote ≠ '\\' := by rcases hq with rfl | rfl <;> decide
  have hcl := closes_iff hne hwhole
  rw [htext, Quotes, Lexeme.isClosed, Quoted.ofText]
  cases hb : Lexeme.closes quote body with
  | true =>
      rw [hb] at hcl
      obtain ⟨h1, h2⟩ := hcl.mp rfl
      rw [backslashes] at h2
      obtain ⟨init, rfl⟩ := List.getLast?_eq_some_iff.mp h1
      rw [List.dropLast_concat] at h2 ⊢
      rw [if_pos ⟨h1, h2⟩]
      exact ⟨rfl, rfl⟩
  | false =>
      have hno : ¬(body.getLast? = some quote ∧
          (body.dropLast.reverse.takeWhile (· == '\\')).length % 2 = 0) := by
        intro h
        rw [hb] at hcl
        exact Bool.noConfusion (hcl.mpr h)
      rw [if_neg hno]
      exact ⟨(List.append_nil _).symm, rfl⟩

theorem Quotes.unique {written : Text} {q q' : Char} {s s' : Text} (h : Quotes written q s)
    (h' : Quotes written q' s') : q = q' ∧ s = s' := by
  rw [Quotes] at h h'
  have heq := h.symm.trans h'
  obtain ⟨rfl, htail⟩ := List.cons.inj heq
  exact ⟨rfl, List.append_cancel_right htail⟩

/-! ## Counts -/

/-- A number is a count if it fits in 32 bits. -/
theorem count?_eq {l : Lexeme} (hl : l.Lexical) (hk : l.kind = .number) :
    l.text.count?
      = if Text.decimal l.text < UInt32.size then some (Text.decimal l.text) else none := by
  rw [Lexeme.Lexical, hk] at hl
  obtain ⟨hne, hdigits⟩ := hl
  have hhead : l.text.head? ≠ some '+' := by
    intro h
    have := hdigits '+' (List.mem_of_mem_head? h)
    exact absurd this (by decide)
  have hall : l.text.all Char.isDigit = true := by
    rw [List.all_eq_true]
    intro c hc
    have hc : '0' ≤ c ∧ c ≤ '9' := by simpa [Lexeme.isDigit] using hdigits c hc
    have hval : 48 ≤ c.val ∧ c.val ≤ 57 := hc
    simpa [Char.isDigit] using hval
  rw [Text.count?, if_neg hhead]
  simp [hne, hall]

end EbnfKit
