import EbnfKit.Proofs.Placement

/-! # Spelling — texts that write given lexemes

    A text is laid out in pieces: blanks, whole comments, and lexemes that are no trivia.
    It writes the lexemes among its pieces, in order.  Writing is closed under putting texts
    together, and scanning undoes it:

      x writes ls  and  y writes ms    imply   x ++ y writes ls ++ ms
      x writes ls  and  ls is loose    imply   the lexemes of x but trivia are ls
      x is finished                    implies x writes its lexemes but trivia

    `Loose` says that no lexeme would run on into the next, were there nothing between
    them.  What is printed or edited is a text of which the pieces are known, so the way
    back to lexemes goes through here. -/

namespace EbnfKit

open Unicode

/-- A code point in the set lies in one of its ranges. -/
theorem Unicode.CodePoints.mem_of_has {ranges : CodePoints} {n : Nat} (h : ranges.has n = true) :
    ∃ r ∈ ranges, r.1 ≤ n ∧ n ≤ r.2 := by
  induction ranges with
  | nil => cases h
  | cons r rs ih =>
      rw [CodePoints.has] at h
      by_cases hlo : n < r.1
      · rw [if_pos hlo] at h
        cases h
      · rw [if_neg hlo] at h
        by_cases hhi : n ≤ r.2
        · exact ⟨r, List.mem_cons_self, by omega, hhi⟩
        · rw [if_neg hhi] at h
          obtain ⟨q, hq, hin⟩ := ih h
          exact ⟨q, List.mem_cons_of_mem r hq, hin⟩

/-! ## Pieces -/

/-- A piece of the layout of a text. -/
inductive Piece
  | blank (c : Char)
  | comment (body : Text)
  | lexeme (l : Lexeme)

namespace Piece

/-- The text of the piece. -/
def text : Piece → Text
  | blank c => [c]
  | comment body => '(' :: '*' :: (body ++ Lexeme.closing)
  | lexeme l => l.text

/-- The lexeme, if the piece is one. -/
def lexeme? : Piece → Option Lexeme
  | lexeme l => some l
  | _ => none

/-- A blank is blank, a comment is one comment, and a lexeme is a lexeme and no trivia. -/
def Valid : Piece → Prop
  | blank c => isWhiteSpace c = true
  | comment body => Lexeme.Unmarked body
  | lexeme l => l.Lexical ∧ l.kind.isTrivia = false

theorem Valid.text_ne_nil {p : Piece} (h : p.Valid) : p.text ≠ [] := by
  cases p with
  | blank c => exact List.cons_ne_nil _ _
  | comment body => exact List.cons_ne_nil _ _
  | lexeme l => exact h.1.ne_nil

/-- The tokens among pieces of which the first starts at `offset`. -/
def tokensAt (offset : Nat) : List Piece → List Token
  | [] => []
  | p :: ps =>
      (p.lexeme?.map fun l =>
        ⟨l.kind, ⟨offset, offset + Text.size l.text⟩, l.text⟩).toList ++
        tokensAt (offset + Text.size p.text) ps

theorem tokensAt_append (offset : Nat) (ps qs : List Piece) :
    tokensAt offset (ps ++ qs)
      = tokensAt offset ps ++ tokensAt (offset + Text.size (ps.flatMap text)) qs := by
  induction ps generalizing offset with
  | nil => rfl
  | cons p ps ih =>
      rw [List.cons_append, tokensAt, tokensAt, ih, List.flatMap_cons, Text.size_append,
        Nat.add_assoc, List.append_assoc]

/-- There are no tokens in white space. -/
theorem tokensAt_blanks (offset : Nat) (w : Text) : tokensAt offset (w.map blank) = [] := by
  induction w generalizing offset with
  | nil => rfl
  | cons c w ih => rw [List.map_cons, tokensAt, ih]; rfl

theorem text_blanks (w : Text) : (w.map blank).flatMap text = w := by
  rw [List.flatMap_map]
  exact List.flatMap_singleton' w

end Piece

/-- The text is made of pieces, and the lexemes among them are `ls`. -/
def Writes (x : Text) (ls : List Lexeme) : Prop :=
  ∃ ps : List Piece, (∀ p ∈ ps, p.Valid) ∧ ps.flatMap Piece.text = x ∧
    ps.filterMap Piece.lexeme? = ls

namespace Writes

variable {x y : Text} {ls ms : List Lexeme}

theorem nil : Writes [] [] :=
  ⟨[], fun _ h => (nomatch h), rfl, rfl⟩

theorem append (hx : Writes x ls) (hy : Writes y ms) : Writes (x ++ y) (ls ++ ms) := by
  obtain ⟨ps, hps, rfl, rfl⟩ := hx
  obtain ⟨qs, hqs, rfl, rfl⟩ := hy
  exact ⟨ps ++ qs, List.forall_mem_append.mpr ⟨hps, hqs⟩, List.flatMap_append,
    List.filterMap_append⟩

theorem piece {p : Piece} (h : p.Valid) : Writes p.text p.lexeme?.toList := by
  refine ⟨[p], ?_, List.append_nil _, ?_⟩
  · intro q hq
    rw [List.mem_singleton.mp hq]
    exact h
  · cases p <;> rfl

theorem blank {c : Char} (h : isWhiteSpace c = true) : Writes [c] [] :=
  @piece (.blank c) h

theorem comment {body : Text} (h : Lexeme.Unmarked body) :
    Writes ('(' :: '*' :: (body ++ Lexeme.closing)) [] :=
  @piece (.comment body) h

end Writes

/-! ## From pieces to lexemes -/

namespace Lexeme

/-- Only the first character that follows matters. -/
theorem Ends.congr {l : Lexeme} {x y : Text} (h : l.Ends x) (hxy : x.head? = y.head?) :
    l.Ends y := by
  unfold Ends at h ⊢
  split <;> simp_all

/-- What ends before something ends before nothing. -/
theorem Ends.nil {l : Lexeme} {x : Text} (h : l.Ends x) : l.Ends [] := by
  unfold Ends at h ⊢
  split <;> simp_all

/-- White space continues no name and no number. -/
theorem isWhiteSpace_apart {c : Char} (h : isWhiteSpace c = true) :
    isNameChar c = false ∧ isDigit c = false ∧ c ≠ '*' := by
  -- there are few blanks: the tables are asked about each of them
  have hfew : ∀ r ∈ whiteSpace, ∀ k < r.2 - r.1 + 1, alphabetic.has (r.1 + k) = false ∧
      numeral.has (r.1 + k) = false ∧ r.1 + k ≠ '_'.toNat ∧ r.1 + k ≠ '*'.toNat ∧
      ¬('0'.toNat ≤ r.1 + k ∧ r.1 + k ≤ '9'.toNat) := by
    decide +kernel
  obtain ⟨r, hr, hlo, hhi⟩ := CodePoints.mem_of_has h
  obtain ⟨ha, hn, hunderscore, hstar, hdigit⟩ := hfew r hr (c.toNat - r.1) (by omega)
  rw [show r.1 + (c.toNat - r.1) = c.toNat by omega] at ha hn hunderscore hstar hdigit
  refine ⟨?_, ?_, ?_⟩
  · simp only [isNameChar, isAlphabetic, isNumeral, ha, hn, Bool.or_self, Bool.false_or,
      beq_eq_false_iff_ne]
    rintro rfl
    exact hunderscore rfl
  · rw [isDigit]
    refine Bool.eq_false_iff.mpr fun hd => hdigit ?_
    obtain ⟨h1, h2⟩ : '0' ≤ c ∧ c ≤ '9' := by simpa using hd
    exact ⟨h1, h2⟩
  · rintro rfl
    exact hstar rfl

/-- What ends before nothing ends before a blank and before a comment. -/
theorem Ends.separator {l : Lexeme} (h : l.Ends []) {c : Char} (hc : isWhiteSpace c = true ∨ c = '(')
    (hl : l.kind.isTrivia = false) (y : Text) : l.Ends (c :: y) := by
  have hapart : isNameChar c = false ∧ isDigit c = false ∧ c ≠ '*' := by
    rcases hc with hc | rfl
    · exact isWhiteSpace_apart hc
    · decide
  unfold Ends at h ⊢
  split <;> simp_all [TokenKind.isTrivia]

/-- A bite that takes the whole text is its only one. -/
theorem lexemes_of_munch {l : Lexeme} {c : Char} {cs : Text} (htext : l.text = c :: cs)
    (hmunch : munch c cs = ([l], [])) : lexemes l.text = [l] := by
  rw [htext, lexemes_cons, hmunch, lexemes_nil]
  rfl

/-- A run takes whatever it goes on with. -/
theorem run_all {kind : TokenKind} {p : Char → Bool} {c : Char} {cs : Text}
    (hall : ∀ d ∈ cs, p d = true) : run kind p c cs = ([⟨kind, c :: cs⟩], []) := by
  have htake := @List.takeWhile_append_dropWhile _ p cs
  have hdrop : cs.dropWhile p = [] := by
    have := @List.dropWhile_append_of_pos _ p cs [] hall
    rwa [List.append_nil] at this
  rw [hdrop, List.append_nil] at htake
  rw [run, htake, hdrop]

/-- A lexeme that is no trivia is the only one of its text. -/
theorem lexemes_text {l : Lexeme} (h : l.Lexical) (hk : l.kind.isTrivia = false) :
    lexemes l.text = [l] := by
  obtain ⟨kind, text⟩ := l
  have htrivia : ∀ {k}, kind = k → k.isTrivia = true → False := by
    rintro _ rfl hk'
    exact absurd (hk.symm.trans hk') (by decide)
  -- one case for each kind; those of blanks and comments are out
  unfold Lexical at h
  split at h
  · rename_i hkind
    exact (htrivia hkind rfl).elim
  · rename_i hkind
    obtain ⟨c, cs, rfl, hw, ha, hall⟩ := h
    refine lexemes_of_munch rfl ?_
    obtain rfl : kind = .identifier := hkind
    rw [munch, if_neg (by simp [hw]), if_pos ha]
    exact run_all hall
  · rename_i hkind
    obtain ⟨hne, hall⟩ := h
    obtain ⟨c, cs, rfl⟩ := List.exists_cons_of_ne_nil hne
    obtain ⟨hc, hcs⟩ := List.forall_mem_cons.mp hall
    obtain ⟨hw, ha⟩ := digit_not_blank_not_letter hc
    refine lexemes_of_munch rfl ?_
    obtain rfl : kind = .number := hkind
    rw [munch, if_neg (by simp [hw]), if_neg (by simp [ha]), if_pos hc]
    exact run_all hcs
  · rename_i hkind
    obtain ⟨q, body, rfl, hq, hwhole⟩ := h
    refine lexemes_of_munch rfl ?_
    obtain rfl : kind = .stringLiteral := hkind
    -- the body is the whole tail of the string, so that nothing is behind it
    have hrest : afterString q body = [] := by
      have := stringTail_append_afterString q body
      rw [hwhole] at this
      exact List.append_right_eq_self.mp this
    have hchar : isWhiteSpace q = false ∧ isAlphabetic q = false ∧ isDigit q = false := by
      rcases hq with rfl | rfl <;> decide +kernel
    rw [munch, if_neg (by simp [hchar.1]), if_neg (by simp [hchar.2.1]),
      if_neg (by simp [hchar.2.2]), if_pos hq, hwhole, hrest]
  · rename_i hkind
    exact (htrivia hkind rfl).elim
  · rename_i hkind
    exact (htrivia hkind rfl).elim
  · rename_i hkind
    exact (htrivia hkind rfl).elim
  · exact h.elim
  · obtain ⟨c, rfl, hkind, hsingle⟩ := h
    refine lexemes_of_munch rfl ?_
    obtain rfl : TokenKind.ofChar c = kind := hkind
    rw [munch, if_neg (by simp [hsingle.notBlank]), if_neg (by simp [hsingle.notLetter]),
      if_neg (by simp [hsingle.notDigit]), if_neg (by simpa using hsingle.notQuote),
      if_neg (by simp)]

theorem isTrivia_comment {body : Text} :
    ∀ l ∈ opened body ++ [⟨.commentEnd, closing⟩], l.kind.isTrivia = true := by
  intro l hl
  rcases List.mem_append.mp hl with hl | hl
  · rcases kind_of_mem_opened hl with hk | hk <;> rw [hk] <;> rfl
  · rw [List.mem_singleton.mp hl]
    rfl

/-- A comment comes off in one bite. -/
theorem munch_comment {body : Text} (h : Unmarked body) (y : Text) :
    munch '(' ('*' :: (body ++ closing ++ y)) = (opened body ++ [⟨.commentEnd, closing⟩], y) := by
  have hchar : isWhiteSpace '(' = false ∧ isAlphabetic '(' = false ∧ isDigit '(' = false := by
    decide +kernel
  -- the body does not close the comment, so the mark behind it does
  have hafter : afterBody (body ++ closing) = closing := by
    have := commentBody_append_afterBody (body ++ closing)
    rw [h] at this
    exact List.append_cancel_left this
  obtain ⟨h1, h2⟩ := @comment_append (body ++ closing) (by rw [hafter]; exact List.cons_ne_nil _ _) y
  rw [munch, if_neg (by simp [hchar.1]), if_neg (by simp [hchar.2.1]),
    if_neg (by simp [hchar.2.2]), if_neg (by simp), if_pos ⟨rfl, rfl⟩, List.tail_cons, comment, h1,
    h2, h, hafter]
  rfl

end Lexeme

/-- What the lexemes of a comment spell. -/
theorem spelled_comment (body : Text) :
    spelled (Lexeme.opened body ++ [⟨.commentEnd, Lexeme.closing⟩])
      = '(' :: '*' :: (body ++ Lexeme.closing) := by
  rw [spelled_append, spelled, Lexeme.opened_texts]
  rfl

theorem lexemes_comment {body : Text} (h : Lexeme.Unmarked body) (y : Text) :
    lexemes ('(' :: '*' :: (body ++ Lexeme.closing ++ y))
      = (Lexeme.opened body ++ [⟨.commentEnd, Lexeme.closing⟩]) ++ lexemes y := by
  rw [lexemes_cons, Lexeme.munch_comment h]

/-- A lexeme that does not run on is scanned as it is. -/
theorem lexemes_lexeme {l : Lexeme} (h : l.Lexical) (hk : l.kind.isTrivia = false) {y : Text}
    (hends : l.Ends y) : lexemes (l.text ++ y) = l :: lexemes y := by
  have hone := Lexeme.lexemes_text h hk
  rw [lexemes_append, hone, List.singleton_append]
  intro m hm
  rw [hone] at hm
  rw [← Option.some.inj hm]
  exact hends

/-- A blank in front changes nothing but the white space. -/
theorem lexemes_blank {c : Char} (h : isWhiteSpace c = true) (x : Text) :
    lexemes (c :: x) = ⟨.whitespace, c :: x.takeWhile isWhiteSpace⟩ ::
      lexemes (x.dropWhile isWhiteSpace) := by
  rw [lexemes_cons, Lexeme.munch, if_pos h]
  rfl

/-- The white space at the front of a text, and then the rest. -/
theorem lexemes_blanks (x : Text) :
    lexemes x = (if x.takeWhile isWhiteSpace = [] then []
      else [⟨.whitespace, x.takeWhile isWhiteSpace⟩]) ++ lexemes (x.dropWhile isWhiteSpace) := by
  cases x with
  | nil => rw [List.takeWhile_nil, List.dropWhile_nil, if_pos rfl, List.nil_append]
  | cons c cs =>
      by_cases hc : isWhiteSpace c = true
      · rw [lexemes_blank hc, List.takeWhile_cons, List.dropWhile_cons, if_pos hc, if_pos hc,
          if_neg (List.cons_ne_nil _ _)]
        rfl
      · rw [List.takeWhile_cons, List.dropWhile_cons, if_neg hc, if_neg hc, if_pos rfl]
        rfl

/-- White space that ends there is one lexeme. -/
theorem lexemes_white {b y : Text} (hne : b ≠ []) (hb : ∀ c ∈ b, isWhiteSpace c = true)
    (hy : ∀ c ∈ y.head?, isWhiteSpace c = false) :
    lexemes (b ++ y) = ⟨.whitespace, b⟩ :: lexemes y := by
  have htake : y.takeWhile isWhiteSpace = [] := by
    cases y with
    | nil => rfl
    | cons c cs => rw [List.takeWhile_cons, if_neg (by simp [hy c rfl])]
  have hdrop : y.dropWhile isWhiteSpace = y := by
    cases y with
    | nil => rfl
    | cons c cs => rw [List.dropWhile_cons, if_neg (by simp [hy c rfl])]
  rw [lexemes_blanks, List.takeWhile_append_of_pos hb, List.dropWhile_append_of_pos hb, htake,
    hdrop, List.append_nil, if_neg hne]
  rfl

/-- No lexeme would run on into the next. -/
def Loose : List Lexeme → Prop
  | [] => True
  | l :: ls => l.Ends (spelled ls) ∧ Loose ls

/-- What the pieces begin with ends the lexeme in front of them. -/
theorem ends_pieces {l : Lexeme} {ps : List Piece} (hl : l.kind.isTrivia = false)
    (hps : ∀ p ∈ ps, p.Valid) (h : l.Ends (spelled (ps.filterMap Piece.lexeme?))) :
    l.Ends (ps.flatMap Piece.text) := by
  cases ps with
  | nil => exact h
  | cons p ps =>
      have hp := hps p List.mem_cons_self
      cases p with
      | blank c => exact h.nil.separator (Or.inl hp) hl _
      | comment body => exact h.nil.separator (Or.inr rfl) hl _
      | lexeme m =>
          -- only its first character matters
          obtain ⟨c, cs, hm⟩ := List.exists_cons_of_ne_nil hp.1.ne_nil
          refine h.congr ?_
          show (m.text ++ _).head? = (m.text ++ _).head?
          rw [hm]
          rfl

/-- What holds of the last of two lists holds of the last of both together. -/
theorem forall_getLast?_append {α : Type} {q : α → Prop} {as bs : List α}
    (ha : ∀ a ∈ as.getLast?, q a) (hb : ∀ b ∈ bs.getLast?, q b) :
    ∀ c ∈ (as ++ bs).getLast?, q c := by
  intro c hc
  rw [List.getLast?_append] at hc
  cases hlast : bs.getLast? with
  | none => rw [hlast] at hc; exact ha c hc
  | some b => rw [hlast] at hc; exact hb c (hlast ▸ hc)

/-- **Scanning undoes writing**: where nothing runs on, the lexemes of a text are those
    that it writes, and the text is finished. -/
theorem Writes.lexemes {x : Text} {ls : List Lexeme} (h : Writes x ls) (hloose : Loose ls) :
    (lexemes x).filter (fun l => !l.kind.isTrivia) = ls ∧ Finished x := by
  obtain ⟨ps, hps, rfl, rfl⟩ := h
  -- on the pieces: each of them comes off the front, but a blank with those behind it
  induction ps with
  | nil =>
      rw [List.flatMap_nil, Finished, lexemes_nil]
      exact ⟨rfl, fun _ h => by cases h⟩
  | cons p ps ih =>
      obtain ⟨hp, hrest⟩ := List.forall_mem_cons.mp hps
      rw [List.flatMap_cons, Finished]
      generalize hy : ps.flatMap Piece.text = y at ih
      cases p with
      | blank c =>
          obtain ⟨hfilter, hfinished⟩ := ih hrest hloose
          rw [lexemes_blanks, List.filter_append] at hfilter
          show (EbnfKit.lexemes (c :: y)).filter _ = ps.filterMap _ ∧
            ∀ l ∈ (EbnfKit.lexemes (c :: y)).getLast?, l.Ends []
          rw [lexemes_blank hp]
          constructor
          · rw [List.filter_cons_of_neg (by simp [TokenKind.isTrivia]), ← hfilter]
            split <;> simp [TokenKind.isTrivia]
          · refine @forall_getLast?_append _ _ [_] _ ?_ ?_
            · intro l hl
              rw [← Option.some.inj hl]
              exact fun _ h => by cases h
            · intro l hl
              refine hfinished l ?_
              rw [lexemes_blanks, List.getLast?_append, hl]
              rfl
      | comment body =>
          obtain ⟨hfilter, hfinished⟩ := ih hrest hloose
          have hcut : EbnfKit.lexemes ((Piece.comment body).text ++ y)
              = (Lexeme.opened body ++ [⟨.commentEnd, Lexeme.closing⟩]) ++ EbnfKit.lexemes y :=
            lexemes_comment hp y
          have htrivia : ∀ l ∈ Lexeme.opened body ++ [⟨.commentEnd, Lexeme.closing⟩],
              ¬(!l.kind.isTrivia) = true := by
            intro l hl
            rw [Lexeme.isTrivia_comment l hl]
            decide
          rw [hcut]
          constructor
          · rw [List.filter_append, List.filter_eq_nil_iff.mpr htrivia, hfilter]
            rfl
          · refine forall_getLast?_append ?_ hfinished
            intro l hl
            rw [List.getLast?_concat] at hl
            rw [← Option.some.inj hl]
            trivial
      | lexeme l =>
          have hends : l.Ends (spelled (ps.filterMap Piece.lexeme?)) := hloose.1
          obtain ⟨hfilter, hfinished⟩ := ih hrest hloose.2
          have hnext : l.Ends y := hy ▸ ends_pieces hp.2 hrest hends
          have hcut : EbnfKit.lexemes ((Piece.lexeme l).text ++ y) = [l] ++ EbnfKit.lexemes y :=
            lexemes_lexeme hp.1 hp.2 hnext
          rw [hcut]
          constructor
          · rw [List.singleton_append, List.filter_cons_of_pos (by simp [hp.2]), hfilter]
            rfl
          · refine forall_getLast?_append ?_ hfinished
            intro m hm
            rw [← Option.some.inj hm]
            exact hnext.nil

/-! ## From lexemes to pieces -/

/-- The tokens of a list that are no trivia. -/
abbrev withoutTrivia (ts : List Token) : List Token :=
  ts.filter fun t => !t.kind.isTrivia

theorem map_lexeme_withoutTrivia (offset : Nat) (ls : List Lexeme) :
    (withoutTrivia (tokensAt offset ls)).map Token.lexeme
      = ls.filter fun l => !l.kind.isTrivia := by
  have hfilter : ∀ ts : List Token, (withoutTrivia ts).map Token.lexeme
      = (ts.map Token.lexeme).filter fun l => !l.kind.isTrivia := by
    intro ts
    rw [List.filter_map]
    rfl
  rw [hfilter, map_lexeme_tokensAt]

theorem withoutTrivia_append (ts us : List Token) :
    withoutTrivia (ts ++ us) = withoutTrivia ts ++ withoutTrivia us :=
  List.filter_append ..

theorem withoutTrivia_eq_nil {ls : List Lexeme} (h : ∀ l ∈ ls, l.kind.isTrivia = true)
    (offset : Nat) : withoutTrivia (tokensAt offset ls) = [] := by
  refine List.filter_eq_nil_iff.mpr ?_
  intro t ht
  have hkind : t.kind.isTrivia = true := h _ (mem_tokensAt ht).1
  rw [hkind]
  decide

namespace Lexeme

/-- A bite that is finished is laid out in pieces. -/
theorem Bite.pieces {x rest : Text} {ls : List Lexeme} (h : Bite x ls rest)
    (hends : rest ≠ [] ∨ ∀ l ∈ ls.getLast?, l.Ends []) :
    ∃ ps : List Piece, (∀ p ∈ ps, p.Valid) ∧ ps.flatMap Piece.text ++ rest = x ∧
      ∀ offset, Piece.tokensAt offset ps = withoutTrivia (EbnfKit.tokensAt offset ls) := by
  cases h with
  | @blanks b _ _ hall _ =>
      refine ⟨b.map .blank, ?_, ?_, ?_⟩
      · intro p hp
        obtain ⟨c, hc, rfl⟩ := List.mem_map.mp hp
        exact hall c hc
      · rw [Piece.text_blanks]
      · intro offset
        rw [Piece.tokensAt_blanks]
        rfl
  | @solid l _ hlex hkind _ =>
      refine ⟨[.lexeme l], ?_, by simp [Piece.text], ?_⟩
      · intro p hp
        rw [List.mem_singleton.mp hp]
        exact ⟨hlex, hkind⟩
      · intro offset
        simp [Piece.tokensAt, Piece.lexeme?, EbnfKit.tokensAt, hkind]
  | @comment body _ hbody =>
      refine ⟨[.comment body], ?_, by simp [Piece.text], ?_⟩
      · intro p hp
        rw [List.mem_singleton.mp hp]
        exact hbody
      · intro offset
        rw [withoutTrivia_eq_nil isTrivia_comment]
        rfl
  | @openComment body _ =>
      -- an open comment is no piece, and it is not finished
      rcases hends with hrest | hends
      · exact absurd rfl hrest
      · obtain ⟨l, hl, hno⟩ := not_ends_opened body
        exact absurd (hends l hl) hno

end Lexeme

/-- A finished text is laid out in pieces, with its tokens where they are. -/
theorem Finished.pieces {x : Text} (h : Finished x) :
    ∃ ps : List Piece, (∀ p ∈ ps, p.Valid) ∧ ps.flatMap Piece.text = x ∧
      ∀ offset, Piece.tokensAt offset ps = withoutTrivia (tokensAt offset (lexemes x)) := by
  induction x using lexemes.induct with
  | case1 =>
      refine ⟨[], List.forall_mem_nil _, rfl, ?_⟩
      intro offset
      rw [lexemes_nil]
      rfl
  | case2 c cs ih =>
      have hbite := Lexeme.munch_bite c cs
      obtain ⟨ps, hps, htext, htokens⟩ := hbite.pieces h.bite
      obtain ⟨qs, hqs, hrest, htokens'⟩ := ih h.rest
      have hsame : ps.flatMap Piece.text = spelled (Lexeme.munch c cs).1 :=
        List.append_cancel_right (htext.trans hbite.texts.symm)
      refine ⟨ps ++ qs, List.forall_mem_append.mpr ⟨hps, hqs⟩, ?_, ?_⟩
      · rw [List.flatMap_append, hrest, htext]
      · intro offset
        rw [Piece.tokensAt_append, htokens, htokens', hsame, lexemes_cons, tokensAt_append,
          withoutTrivia_append]

end EbnfKit
