import EbnfKit.Proofs.Accounts
import EbnfKit.Proofs.Problems
import EbnfKit.Proofs.Selection
import EbnfKit.Proofs.Tiling

/-! # Reported once — bad characters and comments that stay open

    No reader takes a bad character, so it is either where reading stopped, and the error is at
    it, or it is skipped and noted, unless the error is at it already.  A step through a file
    reports a bad character as often as it is among the tokens that the step covers:

      reports of the step at p   =   tokens of the step at p        p the span of a bad character

    The steps together cover each token once.  A comment that stays open runs up to the end of
    the text, so there is one at most, and no other report is worded like the one about it. -/

namespace EbnfKit

/-! ## The reports of a step -/

namespace Parser

open Reader

/-- What a step notes, and its error. -/
def Section.reports (step : Section) : List Diagnostic :=
  step.notes ++ step.error?.toList

/-- Among the tokens nothing but bad characters has the span. -/
def OnlyBad (p : Span) (ts : List Token) : Prop :=
  ∀ t ∈ ts, t.span = p → t.kind = .badCharacter

variable {p stop : Span} {ts : List Token}

/-- No two scanned tokens start at the same place. -/
theorem starts_nodup (hts : Scanned ts) : (ts.map (·.span.start)).Nodup := by
  refine List.pairwise_map.mpr (hts.ordered.imp_of_mem fun {t u} ht _ hapart heq => ?_)
  have hforward := hts.forward t ht
  omega

theorem spans_nodup (hts : Scanned ts) : (ts.map Token.span).Nodup := by
  have hstarts : ((ts.map Token.span).map Span.start).Nodup := by
    rw [List.map_map]
    exact starts_nodup hts
  exact hstarts.of_map

/-- What is noted of strings is where they are. -/
theorem exists_of_mem_openNotes {d : Diagnostic} (h : d ∈ openNotes ts) :
    ∃ t ∈ ts, d = unterminatedLiteral t.span (Quoted.ofText t.text).quote := by
  obtain ⟨t, ht, hd⟩ := List.mem_flatMap.mp h
  split at hd
  · exact ⟨t, ht, List.mem_singleton.mp hd⟩
  · cases hd

/-- What is noted of skipped tokens is where the bad characters among them are, but for where
    the error is. -/
theorem exists_of_mem_skipNotes {reported : Span} {d : Diagnostic}
    (h : d ∈ ts.flatMap (skipNote reported)) :
    ∃ t ∈ ts, t.kind = .badCharacter ∧ d.span = t.span ∧ d.span ≠ reported := by
  obtain ⟨t, ht, hd⟩ := List.mem_flatMap.mp h
  rw [skipNote] at hd
  split at hd
  · rename_i hskip
    rw [List.mem_singleton.mp hd]
    exact ⟨t, ht, hskip.1, rfl, hskip.2⟩
  · cases hd

/-- Tokens that are no bad characters do not have the span, and what is noted of them neither. -/
theorem OnlyBad.count_plain (h : OnlyBad p ts) (hplain : ∀ t ∈ ts, t.kind ≠ .badCharacter) :
    (ts.map Token.span).count p = 0 ∧ ((openNotes ts).map Diagnostic.span).count p = 0 := by
  have hspans : ∀ t ∈ ts, t.span ≠ p := fun t ht hspan => hplain t ht (h t ht hspan)
  constructor
  · refine List.count_eq_zero.mpr fun hmem => ?_
    obtain ⟨t, ht, hspan⟩ := List.mem_map.mp hmem
    exact hspans t ht hspan
  · refine List.count_eq_zero.mpr fun hmem => ?_
    obtain ⟨d, hd, hspan⟩ := List.mem_map.mp hmem
    obtain ⟨t, ht, rfl⟩ := exists_of_mem_openNotes hd
    exact hspans t ht hspan

/-- Where the error is not at the span, a skipped bad character with the span is noted. -/
theorem OnlyBad.count_skipped {reported : Span} (h : OnlyBad p ts) (hne : reported ≠ p) :
    ((ts.flatMap (skipNote reported)).map Diagnostic.span).count p = (ts.map Token.span).count p := by
  induction ts with
  | nil => rfl
  | cons t ts ih =>
      obtain ⟨ht, hts⟩ := List.forall_mem_cons.mp h
      rw [List.flatMap_cons, List.map_append, List.count_append, ih hts, List.map_cons,
        List.count_cons, Nat.add_comm]
      congr 1
      by_cases hspan : t.span = p
      · have hskip : t.kind = .badCharacter ∧ t.span ≠ reported :=
          ⟨ht hspan, fun heq => hne (heq.symm.trans hspan)⟩
        rw [skipNote, if_pos hskip, if_pos (beq_iff_eq.mpr hspan), List.map_singleton,
          List.count_singleton]
        exact if_pos (beq_iff_eq.mpr hspan)
      · rw [if_neg (mt beq_iff_eq.mp hspan), skipNote]
        split
        · exact List.count_singleton.trans (if_neg (mt beq_iff_eq.mp hspan))
        · rfl

/-- Nothing that is skipped is noted where the error is. -/
theorem count_skipped_reported (p : Span) (ts : List Token) :
    ((ts.flatMap (skipNote p)).map Diagnostic.span).count p = 0 := by
  refine List.count_eq_zero.mpr fun hmem => ?_
  obtain ⟨d, hd, hspan⟩ := List.mem_map.mp hmem
  obtain ⟨-, -, -, -, hne⟩ := exists_of_mem_skipNotes hd
  exact hne hspan

/-- An error at a bad character is at the token where reading stopped. -/
theorem Stops.at_bad {used rest : List Token} {e : Diagnostic} (h : Stops stop used rest e)
    (hused : ∀ t ∈ used, t.span ≠ p) (hstop : stop ≠ p) (he : e.span = p) :
    ∃ t us, rest = t :: us ∧ t.span = p := by
  cases h with
  | unexpected expected =>
      cases rest with
      | nil => exact absurd he hstop
      | cons t us => exact ⟨t, us, rfl, he⟩
  | count ht _ => exact absurd he (hused _ (List.mem_of_getLast? ht))
  | nesting ht _ => exact absurd he (hused _ (List.mem_of_getLast? ht))

theorem givenUp_sublist (ts rest : List Token) : (givenUp ts rest).Sublist rest := by
  have hskipped : ∀ us : List Token, (skipped us).Sublist us := by
    intro us
    have hfront := skipped_prefix us
    exact hfront.sublist
  rw [givenUp]
  split
  · exact hskipped rest
  · have hlater := (hskipped (rest.drop 1)).append_left (rest.take 1)
    rwa [List.take_append_drop] at hlater

/-- The token where reading stopped is given up, unless it is a name, where a rule may start,
    or ends the input. -/
theorem mem_givenUp {t : Token} (hk : t.kind ≠ .identifier) (hend : t.kind ≠ .endOfInput)
    (us : List Token) :
    t ∈ givenUp ts (t :: us) := by
  have hstarts : startsRule (t :: us) = false := by
    cases us with
    | nil => rfl
    | cons u us =>
        rw [startsRule, Token.is_eq_false_iff.mpr hk]
        rfl
  have hskipped : t ∈ skipped (t :: us) := by
    rw [skipped, hstarts, Token.is_eq_false_iff.mpr hend, Bool.or_false, if_neg Bool.false_ne_true]
    split
    · exact List.mem_cons_self
    · exact List.mem_cons_self
  rw [givenUp]
  split
  · exact hskipped
  · exact List.mem_cons_self

/-- **A step reports a bad character as often as it covers it.** -/
theorem count_reports (hts : Scanned ts) (hstop : stop ≠ p) (hbad : OnlyBad p ts) :
    ((sectionAt stop ts).reports.map Diagnostic.span).count p
      = ((sectionAt stop ts).tokens.map Token.span).count p := by
  have haccount := sectionAt_account stop hts
  generalize sectionAt stop ts = step at haccount
  cases haccount with
  | @read used rest backward r hsplit hplain =>
      obtain ⟨hused, -⟩ := List.forall_mem_append.mp (hsplit ▸ hbad)
      obtain ⟨htokens, hopen⟩ := OnlyBad.count_plain hused hplain
      show ((openNotes used ++ []).map _).count p = (used.map _).count p
      rw [List.append_nil, hopen, htokens]
  | @failed used rest backward e hsplit hplain hstops =>
      obtain ⟨hused, hrest⟩ := List.forall_mem_append.mp (hsplit ▸ hbad)
      obtain ⟨htokens, hopen⟩ := OnlyBad.count_plain hused hplain
      show ((openNotes used ++ (givenUp ts rest).flatMap (skipNote e.span) ++ [e]).map _).count p
        = ((used ++ givenUp ts rest).map _).count p
      rw [List.map_append, List.map_append, List.map_append, List.count_append, List.count_append,
        List.count_append, htokens, hopen, List.map_singleton, List.count_singleton]
      have hgiven : (givenUp ts rest).Sublist rest := givenUp_sublist ts rest
      by_cases he : e.span = p
      · -- the error is at the token that is given up first, which is noted no more
        have hplain' : ∀ t ∈ used, t.span ≠ p := fun t ht hspan => hplain t ht (hused t ht hspan)
        obtain ⟨t, us, rfl, ht⟩ := Stops.at_bad hstops hplain' hstop he
        have hkind : t.kind = .badCharacter := hrest t List.mem_cons_self ht
        have hmem : p ∈ (givenUp ts (t :: us)).map Token.span :=
          List.mem_map.mpr ⟨t, mem_givenUp (by rw [hkind]; decide) (by rw [hkind]; decide) us, ht⟩
        rw [hsplit] at hts
        rw [he, count_skipped_reported, List.count_eq_one_of_mem
          (spans_nodup (hts.right.sublist hgiven)) hmem, if_pos (beq_self_eq_true p)]
      · have hnotes := OnlyBad.count_skipped (fun t ht => hrest t (hgiven.subset ht)) he
        rw [hnotes, if_neg (mt beq_iff_eq.mp he), Nat.add_zero]

/-- All steps together report it as often as it is among the tokens. -/
theorem count_sections (hstop : stop ≠ p) (n : Nat) : ∀ ts : List Token, ts.length ≤ n →
    Scanned ts → OnlyBad p ts →
      (((sections stop ts).flatMap Section.reports).map Diagnostic.span).count p
        = (ts.map Token.span).count p := by
  induction n with
  | zero =>
      intro ts hn _ _
      obtain rfl := List.length_eq_zero_iff.mp (Nat.le_zero.mp hn)
      rfl
  | succ n ih =>
      intro ts hn hts hbad
      by_cases hne : ts = []
      · subst hne
        rfl
      obtain ⟨behind, hbehind, hlt⟩ := sectionAt_covers stop hne
      have hlater : behind.Sublist ts := by
        rw [← hbehind]
        exact List.sublist_append_right _ _
      have hspans := congrArg (fun us => (us.map Token.span).count p) hbehind
      simp only [List.map_append, List.count_append] at hspans
      rw [sections_eq hne hbehind, List.flatMap_cons, List.map_append, List.count_append,
        count_reports hts hstop hbad, ih behind (by omega) (hts.sublist hlater)
          fun t ht => hbad t (hlater.subset ht), hspans]

/-! ## Other words than for comments -/

/-- The words for a comment that stays open. -/
def commentWords : String :=
  "unterminated comment: expected `*)` before end of input"

/-- Words that begin otherwise are not those for a comment that stays open. -/
theorem ne_of_words {message words : String} (hmessage : ∃ rest, message = words ++ rest)
    (h : ¬words.toList <+: commentWords.toList) : message ≠ commentWords := by
  obtain ⟨rest, rfl⟩ := hmessage
  intro heq
  rw [← heq, String.toList_append] at h
  exact h (List.prefix_append _ _)

/-- The error of a reader that stops is not about a comment. -/
theorem ne_commentWords_of_stops {used rest : List Token} {e : Diagnostic}
    (h : Stops stop used rest e) : e.message ≠ commentWords := by
  cases h with
  | unexpected expected =>
      refine @ne_of_words _ "expected " ⟨expected ++ (", found " ++ found rest.head?), ?_⟩
        (by decide)
      rw [← String.append_assoc, ← String.append_assoc]
      rfl
  | count _ _ =>
      exact @ne_of_words _ "repetition count `" ⟨_, String.append_assoc⟩ (by decide)
  | nesting _ _ =>
      exact @ne_of_words _ "nesting too deep: more than " ⟨_, String.append_assoc⟩ (by decide)

theorem openNotes_ne_commentWords (ts : List Token) :
    ∀ d ∈ openNotes ts, d.message ≠ commentWords := by
  intro d hd
  obtain ⟨t, -, rfl⟩ := exists_of_mem_openNotes hd
  exact @ne_of_words _ "unterminated string literal: expected closing `"
    ⟨_, String.append_assoc⟩ (by decide)

theorem skipNotes_ne_commentWords (reported : Span) (ts : List Token) :
    ∀ d ∈ ts.flatMap (skipNote reported), d.message ≠ commentWords := by
  intro d hd
  obtain ⟨t, -, hd⟩ := List.mem_flatMap.mp hd
  rw [skipNote] at hd
  split at hd
  · rw [List.mem_singleton.mp hd]
    exact @ne_of_words _ "unexpected character `" ⟨_, String.append_assoc⟩ (by decide)
  · cases hd

/-- No report of a step is about a comment. -/
theorem reports_ne_commentWords (hts : Scanned ts) :
    ∀ d ∈ (sectionAt stop ts).reports, d.message ≠ commentWords := by
  have haccount := sectionAt_account stop hts
  generalize sectionAt stop ts = step at haccount
  cases haccount with
  | @read used rest backward r _ _ =>
      exact List.forall_mem_append.mpr ⟨openNotes_ne_commentWords used, List.forall_mem_nil _⟩
  | @failed used rest backward e _ _ hstops =>
      refine List.forall_mem_append.mpr
        ⟨?_, List.forall_mem_singleton.mpr (ne_commentWords_of_stops hstops)⟩
      exact List.forall_mem_append.mpr
        ⟨openNotes_ne_commentWords used, skipNotes_ne_commentWords e.span _⟩

end Parser

/-! ## Comments that stay open -/

namespace Comments

/-- The token opens a comment, and no closing mark comes behind it. -/
def Unclosed (ts : List Token) (t : Token) : Prop :=
  ∃ front back, ts = front ++ t :: back ∧ t.kind = .commentStart ∧ ∀ u ∈ back, u.kind ≠ .commentEnd

theorem unclosed_cons {t u : Token} {ts : List Token} : Unclosed (t :: ts) u ↔
    (u = t ∧ t.kind = .commentStart ∧ ∀ v ∈ ts, v.kind ≠ .commentEnd) ∨ Unclosed ts u := by
  constructor
  · rintro ⟨front, back, heq, hk, hback⟩
    cases front with
    | nil =>
        obtain ⟨rfl, rfl⟩ := List.cons.inj heq
        exact Or.inl ⟨rfl, hk, hback⟩
    | cons v front => exact Or.inr ⟨front, back, (List.cons.inj heq).2, hk, hback⟩
  · rintro (⟨rfl, hk, hback⟩ | ⟨front, back, rfl, hk, hback⟩)
    · exact ⟨[], ts, rfl, hk, hback⟩
    · exact ⟨t :: front, back, rfl, hk, hback⟩

/-- The comment that stays open is reported, up to `n`, and nothing if there is none. -/
structure Told (n : Nat) (ts : List Token) : Prop where
  one : ∀ t, Unclosed ts t → unterminatedAll ts = [unterminated ⟨t.span.start, n⟩]
  none : (∀ t, ¬Unclosed ts t) → unterminatedAll ts = []

namespace Told

variable {n : Nat} {t : Token} {ts us : List Token}

theorem nil : Told n [] := by
  refine ⟨?_, fun _ => rfl⟩
  rintro t ⟨front, back, heq, -⟩
  exact absurd heq.symm (List.append_ne_nil_of_right_ne_nil front (List.cons_ne_nil t back))

/-- Of tokens in which the same comment stays open the same is told. -/
theorem congr (h : Told n ts) (hopen : ∀ t, Unclosed us t ↔ Unclosed ts t)
    (hreports : unterminatedAll us = unterminatedAll ts) : Told n us := by
  refine ⟨fun t ht => ?_, fun hnone => ?_⟩
  · rw [hreports]
    exact h.one t ((hopen t).mp ht)
  · rw [hreports]
    exact h.none fun t ht => hnone t ((hopen t).mpr ht)

/-- A token that opens no comment changes nothing. -/
theorem cons (h : Told n ts) (hk : t.kind ≠ .commentStart) : Told n (t :: ts) := by
  refine h.congr (fun u => ?_) (by rw [unterminatedAll, if_neg hk])
  rw [unclosed_cons, or_iff_right fun hfirst => hk hfirst.2.1]

theorem append (h : Told n ts) (hk : ∀ u ∈ us, u.kind ≠ .commentStart) : Told n (us ++ ts) := by
  induction us with
  | nil => exact h
  | cons u us ih =>
      obtain ⟨hu, hus⟩ := List.forall_mem_cons.mp hk
      exact (ih hus).cons hu

/-- One that opens a comment changes nothing if the comment is closed. -/
theorem closed (h : Told n ts) (hend : openEnd? t.span.stop ts = Option.none) : Told n (t :: ts) := by
  have hmark : ∃ u ∈ ts, u.kind = .commentEnd := by
    obtain ⟨body, rest, hkinds, -⟩ := openEnd?_eq_none_iff.mp hend
    have hmem : TokenKind.commentEnd ∈ ts.map (·.kind) := by
      rw [hkinds]
      exact List.mem_append_right _ List.mem_cons_self
    exact List.mem_map.mp hmem
  refine h.congr (fun u => ?_) ?_
  · obtain ⟨v, hv, hk⟩ := hmark
    rw [unclosed_cons, or_iff_right fun hfirst => hfirst.2.2 v hv hk]
  · rw [unterminatedAll, hend]
    split <;> rfl

/-- The comment stays open if nothing behind it closes or opens one. -/
theorem opened (hk : t.kind = .commentStart) (hend : openEnd? t.span.stop ts = some n)
    (hmarks : ∀ u ∈ ts, u.kind ≠ .commentStart ∧ u.kind ≠ .commentEnd) : Told n (t :: ts) := by
  have hlater : ∀ us : List Token, (∀ u ∈ us, u.kind ≠ .commentStart) → unterminatedAll us = [] := by
    intro us hus
    induction us with
    | nil => rfl
    | cons u us ih =>
        obtain ⟨hu, hus⟩ := List.forall_mem_cons.mp hus
        rw [unterminatedAll, if_neg hu, ih hus]
  have hreports : unterminatedAll (t :: ts) = [unterminated ⟨t.span.start, n⟩] := by
    rw [unterminatedAll, if_pos hk, hend, hlater ts fun u hu => (hmarks u hu).1]
  refine ⟨fun u hu => ?_, fun hno => ?_⟩
  · rcases unclosed_cons.mp hu with ⟨rfl, -, -⟩ | ⟨front, back, rfl, hopen, -⟩
    · exact hreports
    · exact absurd hopen (hmarks u (List.mem_append_right front List.mem_cons_self)).1
  · exact absurd (unclosed_cons.mpr (Or.inl ⟨rfl, hk, fun u hu => (hmarks u hu).2⟩)) (hno t)

end Told

/-- Framed comments that lie end to end, with the end of the input behind them only, are told
    of up to that end. -/
theorem told_of_framed {n : Nat} {ts : List Token} (h : Framed ts)
    (hnext : ts.IsChain fun t u => t.span.stop = u.span.start)
    (hlast : ∀ t us, t :: us <:+ ts → t.kind = .endOfInput → us = [] ∧ t.span.start = n) :
    Told n ts := by
  induction h with
  | nil => exact .nil
  | other hk _ _ _ ih =>
      exact (ih hnext.tail fun t us hus => hlast t us (hus.trans (List.suffix_cons _ _))).cons hk
  | @comment mark body close ts hmark hlen hbody hclose _ ih =>
      have hkinds : ∀ u ∈ body, u.kind = .comment := fun u hu => (hbody u hu).1
      have hbehind : close :: ts <:+ mark :: (body ++ close :: ts) := ⟨mark :: body, rfl⟩
      rcases hclose with hclose | hclose
      · have htold := ih (hnext.suffix ((List.suffix_cons _ _).trans hbehind)) fun t us hus =>
          hlast t us ((hus.trans (List.suffix_cons _ _)).trans hbehind)
        have hothers : ∀ u ∈ body ++ [close], u.kind ≠ .commentStart := by
          refine List.forall_mem_append.mpr ⟨fun u hu => ?_, List.forall_mem_singleton.mpr ?_⟩
          · rw [hkinds u hu]
            exact TokenKind.noConfusion
          · rw [hclose]
            exact TokenKind.noConfusion
        have hbodies := htold.append hothers
        rw [List.append_assoc, List.singleton_append] at hbodies
        refine hbodies.closed (openEnd?_eq_none_iff.mpr ⟨body.map (·.kind), ts.map (·.kind), ?_, ?_⟩)
        · rw [List.map_append, List.map_cons, hclose]
        · exact List.forall_mem_map.mpr hkinds
      · -- the end of the input stands last, and the comment runs up to it
        obtain ⟨rfl, rfl⟩ := hlast close ts hbehind hclose
        refine .opened hmark ?_ ?_
        · match body, hlen with
          | [], _ =>
              rw [List.nil_append, openEnd?_cons, hclose, ← hnext.rel]
              rfl
          | [t], _ =>
              rw [List.singleton_append, openEnd?_cons, if_pos (hkinds t List.mem_cons_self),
                openEnd?_cons, hclose, ← hnext.tail.rel]
              rfl
        · refine List.forall_mem_append.mpr ⟨fun u hu => ?_, List.forall_mem_singleton.mpr ?_⟩
          · rw [hkinds u hu]
            exact ⟨TokenKind.noConfusion, TokenKind.noConfusion⟩
          · rw [hclose]
            exact ⟨TokenKind.noConfusion, TokenKind.noConfusion⟩

theorem told_tokenize (s : Text) : Told s.size (tokenize s) := by
  obtain ⟨ts, heq, hts⟩ := tokenize_ends s
  refine told_of_framed (framed_place s 0) (place_next 0 _) fun t us hus hk => ?_
  obtain ⟨front, hfront⟩ : t :: us <:+ place 0 (lexemes s) := hus
  rw [show place 0 (lexemes s) = ts ++ [.atEnd s.size] from heq] at hfront
  -- no token in front of the last one ends the input
  rcases List.eq_nil_or_concat us with rfl | ⟨us, u, rfl⟩
  · obtain ⟨-, hlast⟩ := List.append_inj' hfront rfl
    rw [(List.cons.inj hlast).1]
    exact ⟨rfl, rfl⟩
  · rw [List.concat_eq_append, ← List.cons_append, ← List.append_assoc] at hfront
    obtain ⟨rfl, -⟩ := List.append_inj' hfront rfl
    exact absurd hk (hts t (List.mem_append_right front List.mem_cons_self)).1

end Comments

/-! ## Texts -/

namespace Grammar

/-- What is reported of a text: the comment that stays open, and what the steps report. -/
theorem diagnostics_perm (s : Text) : (parse s).diagnostics.Perm
    (Comments.unterminatedAll (tokenize s)
      ++ (Parser.sections (.point s.size) (significant s)).flatMap Parser.Section.reports) := by
  rw [diagnostics_eq, List.append_assoc, List.filterMap_eq_flatMap_toList]
  exact (stableSort_perm _).trans ((List.flatMap_append_perm _ _ _).append_left _)

/-- A token that does not end the input is one of the lexemes, placed. -/
theorem mem_placed {s : Text} {t : Token} (ht : t ∈ tokenize s) (hk : t.kind ≠ .endOfInput) :
    t ∈ tokensAt 0 (lexemes s) := by
  rw [tokenize_eq] at ht
  refine (List.mem_append.mp ht).resolve_right fun hend => hk ?_
  rw [List.mem_singleton.mp hend]
  rfl

/-- A token that does not end the input is as its kind says. -/
theorem lexical_of_mem {s : Text} {t : Token} (ht : t ∈ tokenize s) (hk : t.kind ≠ .endOfInput) :
    t.lexeme.Lexical :=
  lexemes_lexical s _ (mem_tokensAt (mem_placed ht hk)).1

/-- No two tokens of a text start at the same place, the end apart. -/
theorem token_of_start {s : Text} {t u : Token} (ht : t ∈ tokenize s) (hu : u ∈ tokenize s)
    (htk : t.kind ≠ .endOfInput) (huk : u.kind ≠ .endOfInput)
    (h : t.span.start = u.span.start) : t = u :=
  List.inj_on_of_nodup_map (Parser.starts_nodup (tokensAt_scanned (lexemes_lexical s)))
    (mem_placed ht htk) (mem_placed hu huk) h

/-- A bad character is significant. -/
theorem mem_significant_bad {s : Text} {t : Token} (ht : t ∈ tokenize s)
    (hk : t.kind = .badCharacter) : t ∈ significant s := by
  refine List.mem_filter.mpr ⟨ht, ?_⟩
  rw [Token.is, hk]
  rfl

/-- What is said of a comment is said where its mark is, and of no other token. -/
theorem comments_elsewhere {s : Text} {t : Token} (ht : t ∈ tokenize s)
    (hk : t.kind ≠ .commentStart) (hend : t.kind ≠ .endOfInput) :
    ∀ d ∈ Comments.unterminatedAll (tokenize s), d.span ≠ t.span := by
  intro d hd hspan
  obtain ⟨u, hu, hstart, n, rfl⟩ := Comments.exists_of_mem_unterminatedAll hd
  have hat := congrArg Span.start hspan
  exact hk (token_of_start hu ht (hstart ▸ TokenKind.noConfusion) hend hat ▸ hstart)

/-- The parser reports each bad character where it stands, and nothing else there. -/
theorem count_bad {s : Text} {t : Token} (ht : t ∈ tokenize s) (hk : t.kind = .badCharacter) :
    ((parse s).diagnostics.map Diagnostic.span).count t.span = 1 := by
  have hts := significant_scanned s
  have hmem := mem_significant_bad ht hk
  have hbad : Parser.OnlyBad t.span (significant s) := by
    intro u hu hspan
    rw [List.inj_on_of_nodup_map (Parser.spans_nodup hts) hu hmem hspan, hk]
  have hstop : Span.point s.size ≠ t.span := by
    intro hspan
    have hforward := hts.forward t hmem
    rw [← hspan] at hforward
    exact Nat.lt_irrefl _ hforward
  have hcomments : ((Comments.unterminatedAll (tokenize s)).map Diagnostic.span).count t.span = 0 := by
    refine List.count_eq_zero.mpr fun hmem => ?_
    obtain ⟨d, hd, hspan⟩ := List.mem_map.mp hmem
    exact comments_elsewhere ht (hk ▸ TokenKind.noConfusion) (hk ▸ TokenKind.noConfusion) d hd hspan
  rw [((diagnostics_perm s).map _).count_eq, List.map_append, List.count_append, hcomments,
    Nat.zero_add, Parser.count_sections hstop _ _ (Nat.le_refl _) hts hbad]
  exact List.count_eq_one_of_mem (Parser.spans_nodup hts) (List.mem_map_of_mem hmem)

/-- What the parser says of comments is what there is to say of them. -/
theorem unterminated_perm (s : Text) :
    ((parse s).diagnostics.filter fun d => d.message = Parser.commentWords).Perm
      (Comments.unterminatedAll (tokenize s)) := by
  have hcomments : ∀ d ∈ Comments.unterminatedAll (tokenize s), d.message = Parser.commentWords := by
    intro d hd
    obtain ⟨t, -, -, n, rfl⟩ := Comments.exists_of_mem_unterminatedAll hd
    rfl
  have hsteps : ∀ d ∈ (Parser.sections (.point s.size) (significant s)).flatMap Parser.Section.reports,
      d.message ≠ Parser.commentWords := by
    intro d hd
    obtain ⟨step, hmem, hd⟩ := List.mem_flatMap.mp hd
    obtain ⟨us, hus, rfl⟩ := Parser.mem_sectionsWithin hmem
    exact Parser.reports_ne_commentWords ((significant_scanned s).sublist hus.sublist) d hd
  have hfilter := (diagnostics_perm s).filter fun d => d.message = Parser.commentWords
  rwa [List.filter_append, List.filter_eq_self.mpr fun d hd => decide_eq_true (hcomments d hd),
    List.filter_eq_nil_iff.mpr fun d hd => mt of_decide_eq_true (hsteps d hd),
    List.append_nil] at hfilter

/-- **Bad characters and comments that stay open are reported once each.**  No other error is
    where a bad character is, and the comment is reported from its mark to the end of the text. -/
theorem reported_once (s : Text) :
    (∀ t ∈ tokenize s, t.kind = .badCharacter →
      ∃ d, (parse s).diagnostics.filter (fun d => d.span = t.span) = [d] ∧
        d.problem = .syntaxError) ∧
      (∀ t, Comments.Unclosed (tokenize s) t →
        (parse s).diagnostics.filter
            (·.message = "unterminated comment: expected `*)` before end of input")
          = [⟨.syntaxError, ⟨t.span.start, s.size⟩,
              "unterminated comment: expected `*)` before end of input"⟩]) ∧
      ((∀ t, ¬Comments.Unclosed (tokenize s) t) →
        (parse s).diagnostics.filter
          (·.message = "unterminated comment: expected `*)` before end of input") = []) := by
  have htold := Comments.told_tokenize s
  have hcomments := unterminated_perm s
  refine ⟨fun t ht hk => ?_, fun t ht => ?_, fun hnone => ?_⟩
  · have hcount := count_bad ht hk
    rw [List.count_eq_countP, List.countP_map, List.countP_eq_length_filter,
      List.length_eq_one_iff] at hcount
    obtain ⟨d, hd⟩ := hcount
    have hmem : d ∈ (parse s).diagnostics := (List.mem_filter.mp (hd ▸ List.mem_singleton_self d)).1
    exact ⟨d, hd, problem_of_mem_diagnostics hmem⟩
  · rw [htold.one t ht] at hcomments
    exact List.perm_singleton.mp hcomments
  · rw [htold.none hnone] at hcomments
    exact hcomments.eq_nil

/-- A bad character in place of a rule, one within a rule, one that is skipped, one behind a
    name, and a comment that stays open. -/
theorem reported_once_four : ∃ s, s = "? a = b ? c ?; d ? = ; (* e".toList ∧
    ((tokenize s).filter (·.kind = .badCharacter)).map Token.span
      = [⟨0, 1⟩, ⟨8, 9⟩, ⟨12, 13⟩, ⟨17, 18⟩] ∧
    (∀ t ∈ tokenize s, t.kind = .badCharacter →
      ∃ d, (parse s).diagnostics.filter (fun d => d.span = t.span) = [d] ∧
        d.problem = .syntaxError) ∧
    (parse s).diagnostics.filter
        (·.message = "unterminated comment: expected `*)` before end of input")
      = [⟨.syntaxError, ⟨23, 27⟩, "unterminated comment: expected `*)` before end of input"⟩] := by
  obtain ⟨hbad, hopen, -⟩ := reported_once "? a = b ? c ?; d ? = ; (* e".toList
  have hunclosed : Comments.Unclosed (tokenize "? a = b ? c ?; d ? = ; (* e".toList)
      ⟨.commentStart, ⟨23, 25⟩, ['(', '*']⟩ :=
    ⟨(tokenize "? a = b ? c ?; d ? = ; (* e".toList).take 23,
      [⟨.comment, ⟨25, 27⟩, [' ', 'e']⟩, .atEnd 27], by decide +kernel, rfl, by decide⟩
  exact ⟨_, rfl, by decide +kernel, hbad, hopen _ hunclosed⟩

end Grammar

end EbnfKit
