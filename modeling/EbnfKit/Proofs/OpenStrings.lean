import EbnfKit.Proofs.Reported

/-! # Open strings — which of them are reported

    A string that is not closed runs up to the end of the text, so it is the last token of all.
    The step that covers it fails there, and what is said of the string depends on what the
    readers made of it:

      read      told as unterminated, and then the end of the input was not expected
      refused   told as the token that was not expected
      skipped   not told at all, the error is further in front

    So it is told as unterminated exactly where the text is said to end too early. -/

namespace EbnfKit

namespace Parser

open Reader

/-- What is told of a string `t` that is not closed, where `e` is the error of its step. -/
inductive OpenString (stop : Span) (t : Token) (e : Diagnostic) : List Diagnostic → Prop
  | read (expected : String) :
      e = .syntaxError stop s!"expected {expected}, found {found none}" →
      OpenString stop t e [unterminatedLiteral t.span (Quoted.ofText t.text).quote]
  | refused (expected : String) :
      e = .syntaxError t.span s!"expected {expected}, found {found (some t)}" →
      OpenString stop t e [e]
  | skipped : e.span.stop ≤ t.span.start → OpenString stop t e []

variable {stop : Span} {ts behind front : List Token} {t : Token}

section OpenString

variable {e : Diagnostic} {ds ds' : List Diagnostic}

/-- One diagnostic at most is told, so their order does not matter. -/
theorem OpenString.of_perm (h : OpenString stop t e ds) (hds : ds'.Perm ds) :
    OpenString stop t e ds' := by
  cases h with
  | read expected he => exact List.perm_singleton.mp hds ▸ .read expected he
  | refused expected he => exact List.perm_singleton.mp hds ▸ .refused expected he
  | skipped he => exact hds.eq_nil ▸ .skipped he

/-- It is told that the string is unterminated exactly if the error is at the end. -/
theorem OpenString.told_iff (h : OpenString stop t e ds) (hne : stop ≠ t.span)
    (hlt : t.span.start < stop.stop) :
    unterminatedLiteral t.span (Quoted.ofText t.text).quote ∈ ds ↔ e.span = stop := by
  cases h with
  | read expected he =>
      rw [he]
      exact iff_of_true (List.mem_singleton_self _) rfl
  | refused expected he =>
      rw [he]
      refine iff_of_false (fun htold => ?_) (Ne.symm hne)
      have hwords := congrArg (fun d : Diagnostic => d.message.toList.head?)
        (List.mem_singleton.mp htold)
      simp [unterminatedLiteral, Diagnostic.syntaxError, toString] at hwords
  | skipped he =>
      refine iff_of_false List.not_mem_nil fun hspan => ?_
      rw [hspan] at he
      omega

end OpenString

/-- A step with something behind it reports where tokens are, and behind it only where a rule
    may start. -/
theorem reports_at (hts : Scanned ts) (h : (sectionAt stop ts).tokens ++ behind = ts)
    (hne : behind ≠ []) : ∀ d ∈ (sectionAt stop ts).reports,
      ∃ u ∈ ts, d.span = u.span ∧ (u ∈ behind → u.kind = .identifier) := by
  have hnodup : ts.Nodup := (spans_nodup hts).of_map
  rw [← h] at hnodup
  have hcovered : ∀ u ∈ (sectionAt stop ts).tokens,
      u ∈ ts ∧ (u ∈ behind → u.kind = .identifier) := by
    intro u hu
    refine ⟨?_, fun hbehind => absurd rfl ((List.nodup_append.mp hnodup).2.2 u hu u hbehind)⟩
    rw [← h]
    exact List.mem_append_left behind hu
  have haccount := sectionAt_account stop hts
  generalize sectionAt stop ts = step at haccount h hcovered
  cases haccount with
  | @read used rest backward r _ _ =>
      intro d hd
      rw [Section.reports, List.mem_append] at hd
      obtain ⟨u, hu, rfl⟩ := exists_of_mem_openNotes (hd.resolve_right List.not_mem_nil)
      exact ⟨u, (hcovered u hu).1, rfl, (hcovered u hu).2⟩
  | @failed used rest backward e hsplit _ hstops =>
      intro d hd
      rw [Section.reports, List.mem_append, List.mem_append] at hd
      rcases hd with (hd | hd) | hd
      · obtain ⟨u, hu, rfl⟩ := exists_of_mem_openNotes hd
        obtain ⟨hmem, hname⟩ := hcovered u (List.mem_append_left _ hu)
        exact ⟨u, hmem, rfl, hname⟩
      · obtain ⟨u, hu, -, hspan, -⟩ := exists_of_mem_skipNotes hd
        obtain ⟨hmem, hname⟩ := hcovered u (List.mem_append_right _ hu)
        exact ⟨u, hmem, hspan, hname⟩
      · rw [show d = e from List.mem_singleton.mp hd]
        cases hstops with
        | unexpected expected =>
            -- what was not expected is given up as well, unless it is a name
            have hrest : givenUp ts rest ++ behind = rest := by
              rw [hsplit, List.append_assoc] at h
              rw [hsplit]
              exact List.append_cancel_left h
            cases rest with
            | nil => exact absurd (List.append_eq_nil_iff.mp hrest).2 hne
            | cons u us =>
                refine ⟨u, ?_, rfl, fun hbehind => ?_⟩
                · rw [hsplit]
                  exact List.mem_append_right used List.mem_cons_self
                · by_contra hname
                  have hend := (hts.lexical u (hsplit ▸ List.mem_append_right used
                    List.mem_cons_self)).ne_endOfInput
                  have hgiven : u ∈ givenUp ts (u :: us) := mem_givenUp hname hend us
                  exact hname ((hcovered u (List.mem_append_right used hgiven)).2 hbehind)
        | count hlast _ =>
            obtain ⟨hmem, hname⟩ := hcovered _ (List.mem_append_left _ (List.mem_of_getLast? hlast))
            exact ⟨_, hmem, rfl, hname⟩
        | nesting hlast _ =>
            obtain ⟨hmem, hname⟩ := hcovered _ (List.mem_append_left _ (List.mem_of_getLast? hlast))
            exact ⟨_, hmem, rfl, hname⟩

/-- The last step covers the last token, and unless a rule may start there, no other step
    reports anything at it or behind it. -/
theorem sections_last (hk : t.kind ≠ .identifier) (n : Nat) : ∀ front : List Token,
    front.length ≤ n → Scanned (front ++ [t]) → ∃ steps us, us <:+ front ∧
      sections stop (front ++ [t]) = steps ++ [sectionAt stop (us ++ [t])] ∧
      (sectionAt stop (us ++ [t])).tokens = us ++ [t] ∧
      ∀ d ∈ steps.flatMap Section.reports, ∃ u ∈ front, d.span = u.span := by
  induction n with
  | zero =>
      intro front hn _
      obtain rfl := List.length_eq_zero_iff.mp (Nat.le_zero.mp hn)
      obtain ⟨behind, hbehind, hlt⟩ := sectionAt_covers stop (List.cons_ne_nil t [])
      obtain rfl : behind = [] := List.length_eq_zero_iff.mp (Nat.lt_one_iff.mp hlt)
      refine ⟨[], [], List.suffix_refl [], ?_, ?_, List.forall_mem_nil _⟩
      · exact sections_eq (List.cons_ne_nil t []) hbehind
      · rwa [List.append_nil] at hbehind
  | succ n ih =>
      intro front hn hts
      have hne : front ++ [t] ≠ [] := List.concat_ne_nil t front
      obtain ⟨behind, hbehind, hlt⟩ := sectionAt_covers stop hne
      rw [sections_eq hne hbehind]
      rcases List.eq_nil_or_concat behind with rfl | ⟨later, u, rfl⟩
      · rw [List.append_nil] at hbehind
        exact ⟨[], front, List.suffix_refl front, rfl, hbehind, List.forall_mem_nil _⟩
      · rw [List.concat_eq_append, ← List.append_assoc] at hbehind
        obtain ⟨hfront, hlast⟩ := List.append_inj' hbehind rfl
        obtain rfl := (List.cons.inj hlast).1
        have hlater : later <:+ front := ⟨_, hfront⟩
        rw [List.concat_eq_append] at hlt ⊢
        rw [List.length_append, List.length_append] at hlt
        obtain ⟨steps, us, hus, hsteps, htokens, hreports⟩ := ih later (by omega)
          (hts.sublist (hlater.sublist.append_right _))
        refine ⟨sectionAt stop (front ++ [u]) :: steps, us, hus.trans hlater, ?_, htokens, ?_⟩
        · rw [hsteps]
          rfl
        · rw [List.flatMap_cons]
          refine List.forall_mem_append.mpr ⟨fun d hd => ?_, fun d hd => ?_⟩
          · rw [List.append_assoc] at hbehind
            obtain ⟨v, hv, hspan, hname⟩ := reports_at hts hbehind (List.concat_ne_nil u later) d hd
            refine ⟨v, (List.mem_append.mp hv).resolve_right fun hvu => ?_, hspan⟩
            obtain rfl := List.mem_singleton.mp hvu
            exact hk (hname (List.mem_append_right later hvu))
          · obtain ⟨v, hv, hspan⟩ := hreports d hd
            exact ⟨v, hlater.subset hv, hspan⟩

/-- A step that ends in a string reads no rule. -/
theorem sectionAt_fails (hk : t.kind = .stringLiteral)
    (hall : (sectionAt stop (front ++ [t])).tokens = front ++ [t]) :
    ∀ r, (sectionAt stop (front ++ [t])).outcome ≠ .ok r := by
  intro r hok
  obtain ⟨used, -, hcloses⟩ := closes_rule stop (front ++ [t])
  rcases hreply : rule stop (front ++ [t]) with ⟨notes, backward, result, rest⟩
  rw [hreply] at hcloses
  cases result with
  | error e =>
      rw [sectionAt_of_error hreply] at hok
      cases hok
  | ok r' =>
      obtain ⟨c, hc, hsplit⟩ := hcloses
      have hsplit' : (used ++ [c]) ++ rest = front ++ [t] := by
        rw [hsplit, List.append_assoc]
        rfl
      rw [sectionAt_of_ok hreply, take_taken hsplit'] at hall
      have hlast := (List.append_inj' hall rfl).2
      rw [(List.cons.inj hlast).1, hk] at hc
      cases hc

/-- Whatever is read behind a string, an error there is at the end of the input. -/
theorem stops_behind_string {e : Diagnostic} (h : Stops stop (front ++ [t]) [] e)
    (hk : t.kind = .stringLiteral) :
    ∃ expected : String, e = .syntaxError stop s!"expected {expected}, found {found none}" := by
  have hlast : (front ++ [t]).getLast? = some t := List.getLast?_concat
  cases h with
  | unexpected expected => exact ⟨expected, rfl⟩
  | count hcount hnumber =>
      rw [← Option.some.inj (hlast.symm.trans hcount), hk] at hnumber
      cases hnumber
  | nesting hnesting hbracket =>
      rw [← Option.some.inj (hlast.symm.trans hnesting), hk] at hbracket
      exact absurd rfl hbracket

/-- An error in front of the last token is not at it, unless it is the next one. -/
theorem stops_before_last {used us : List Token} {e : Diagnostic}
    (h : Stops stop used (us ++ [t]) e) (hts : Scanned (used ++ us ++ [t])) :
    (∃ expected : String, e = .syntaxError t.span s!"expected {expected}, found {found (some t)}") ∨
      e.span.stop ≤ t.span.start := by
  have hbefore : ∀ u ∈ used ++ us, u.span.stop ≤ t.span.start := fun u hu =>
    hts.stop_le_start hu (List.mem_singleton_self t)
  cases h with
  | unexpected expected =>
      cases us with
      | nil => exact Or.inl ⟨expected, rfl⟩
      | cons u us => exact Or.inr (hbefore u (List.mem_append_right used List.mem_cons_self))
  | count hlast _ =>
      exact Or.inr (hbefore _ (List.mem_append_left us (List.mem_of_getLast? hlast)))
  | nesting hlast _ =>
      exact Or.inr (hbefore _ (List.mem_append_left us (List.mem_of_getLast? hlast)))

/-- The tokens in front of the last one are elsewhere. -/
theorem span_ne_last (hts : Scanned (front ++ [t])) {u : Token} (hu : u ∈ front) :
    u.span ≠ t.span := by
  intro hspan
  have hbefore := hts.stop_le_start hu (List.mem_singleton_self t)
  have hforward := hts.forward t (List.mem_append_right front (List.mem_singleton_self t))
  rw [hspan] at hbefore
  omega

/-- Nothing is noted where the last token is, if it is no bad character and was not read. -/
theorem notes_elsewhere (hts : Scanned (front ++ [t])) (hk : t.kind ≠ .badCharacter)
    (reported : Span) {us vs : List Token} (hus : us ⊆ front) (hvs : vs ⊆ front ++ [t]) :
    (openNotes us ++ vs.flatMap (skipNote reported)).filter (·.span = t.span) = [] := by
  refine List.filter_eq_nil_iff.mpr (List.forall_mem_append.mpr ⟨fun d hd => ?_, fun d hd => ?_⟩)
  · obtain ⟨u, hu, rfl⟩ := exists_of_mem_openNotes hd
    exact mt of_decide_eq_true (span_ne_last hts (hus hu))
  · obtain ⟨u, hu, hbad, hspan, -⟩ := exists_of_mem_skipNotes hd
    rw [hspan]
    rcases List.mem_append.mp (hvs hu) with hu | hu
    · exact mt of_decide_eq_true (span_ne_last hts hu)
    · rw [List.mem_singleton.mp hu] at hbad
      exact absurd hbad hk

/-- **The step that covers a string that is not closed fails**, and says of the string what the
    readers made of it. -/
theorem sectionAt_open_string (hts : Scanned (front ++ [t])) (hk : t.kind = .stringLiteral)
    (hopen : Lexeme.isClosed t.text = false) (hstop : stop ≠ t.span)
    (hall : (sectionAt stop (front ++ [t])).tokens = front ++ [t]) :
    ∃ e, (sectionAt stop (front ++ [t])).error? = some e ∧
      OpenString stop t e ((sectionAt stop (front ++ [t])).reports.filter (·.span = t.span)) := by
  have hhere : ∀ d : Diagnostic, d.span = t.span → [d].filter (·.span = t.span) = [d] :=
    fun d hd => List.filter_cons_of_pos (decide_eq_true hd)
  have hthere : ∀ d : Diagnostic, d.span ≠ t.span → [d].filter (·.span = t.span) = [] :=
    fun d hd => List.filter_cons_of_neg (mt of_decide_eq_true hd)
  have hbad : t.kind ≠ .badCharacter := by
    rw [hk]
    exact TokenKind.noConfusion
  have haccount := sectionAt_account stop hts
  have hfails := @sectionAt_fails stop front t hk hall
  generalize sectionAt stop (front ++ [t]) = step at haccount hall hfails
  cases haccount with
  | @read used rest backward r _ _ => exact absurd rfl (hfails r)
  | @failed used rest backward e hsplit _ hstops =>
      refine ⟨e, rfl, ?_⟩
      have hgiven : givenUp (front ++ [t]) rest = rest := List.append_cancel_left (hall.trans hsplit)
      show OpenString stop t e (List.filter _ (openNotes used ++ _ ++ [e]))
      rw [hgiven, List.filter_append]
      rcases List.eq_nil_or_concat rest with rfl | ⟨us, u, rfl⟩
      · -- the string was read, so reading came to the end of the input
        rw [List.append_nil] at hsplit
        subst hsplit
        obtain ⟨expected, rfl⟩ := stops_behind_string hstops hk
        have hnote : openNotes [t] = [unterminatedLiteral t.span (Quoted.ofText t.text).quote] := by
          rw [openNotes, List.flatMap_singleton, if_pos ⟨hk, hopen⟩]
        have hothers := notes_elsewhere hts hbad stop (List.Subset.refl front) (List.nil_subset _)
        rw [List.flatMap_nil, List.append_nil] at hothers
        rw [List.flatMap_nil, List.append_nil, openNotes_append, List.filter_append, hothers, hnote,
          hhere _ rfl, hthere _ hstop]
        exact .read expected rfl
      · rw [List.concat_eq_append, ← List.append_assoc] at hsplit
        obtain ⟨rfl, hlast⟩ := List.append_inj' hsplit rfl
        obtain rfl := (List.cons.inj hlast).1
        have hleft : us ++ [t] ⊆ used ++ us ++ [t] := by
          rw [List.append_assoc]
          exact List.subset_append_right used _
        rw [List.concat_eq_append] at hstops ⊢
        rw [notes_elsewhere hts hbad e.span (List.subset_append_left used us) hleft, List.nil_append]
        rcases stops_before_last hstops hts with ⟨expected, rfl⟩ | hbefore
        · rw [hhere _ rfl]
          exact .refused expected rfl
        · have hforward := hts.forward t (hleft (List.mem_append_right us (List.mem_singleton_self t)))
          rw [hthere e fun hspan => by rw [hspan] at hbefore; omega]
          exact .skipped hbefore

end Parser

namespace Grammar

/-- A string that is not closed is the last token but for the end of the input. -/
theorem open_string_last {s : Text} {t : Token} (ht : t ∈ tokenize s)
    (hk : t.kind = .stringLiteral) (hopen : Lexeme.isClosed t.text = false) :
    ∃ ts, tokenize s = ts ++ [t, .atEnd s.size] := by
  obtain ⟨front, back, heq⟩ := List.append_of_mem (mem_placed ht (hk ▸ TokenKind.noConfusion))
  have hstrings := lexemes_strings s
  rw [← map_lexeme_tokensAt 0 (lexemes s), heq, List.map_append, List.map_cons,
    List.pairwise_append, List.pairwise_cons] at hstrings
  have hback : back = [] := by
    refine List.eq_nil_iff_forall_not_mem.mpr fun u hu => ?_
    have hclosed := hstrings.2.1.1 u.lexeme (List.mem_map_of_mem hu) hk
    exact Bool.false_ne_true (hopen.symm.trans hclosed)
  refine ⟨front, ?_⟩
  rw [tokenize_eq, heq, hback, List.append_assoc]
  rfl

/-- The last token of a text that is significant is the last one that the parser reads. -/
theorem significant_last {s : Text} {ts : List Token} {t : Token}
    (h : tokenize s = ts ++ [t, .atEnd s.size]) (ht : t.kind.isTrivia = false)
    (hend : t.kind ≠ .endOfInput) : ∃ front, significant s = front ++ [t] := by
  have hlast : [t, .atEnd s.size].filter (fun t => !t.kind.isTrivia && !t.is .endOfInput) = [t] := by
    rw [List.filter_cons_of_pos]
    · rfl
    · rw [ht, Token.is_eq_false_iff.mpr hend]
      rfl
  exact ⟨_, by rw [significant, h, List.filter_append, hlast]⟩

/-- What is told at the last token is what the last step tells there, if the others report
    nothing at it. -/
theorem diagnostics_at_last {s : Text} {t : Token} {front : List Token}
    {steps : List Parser.Section} {step : Parser.Section} (ht : t ∈ tokenize s)
    (hcomment : t.kind ≠ .commentStart) (hend : t.kind ≠ .endOfInput)
    (hfront : significant s = front ++ [t])
    (hsteps : Parser.sections (.point s.size) (front ++ [t]) = steps ++ [step])
    (hreports : ∀ d ∈ steps.flatMap Parser.Section.reports, ∃ u ∈ front, d.span = u.span) :
    ((parse s).diagnostics.filter (·.span = t.span)).Perm
      (step.reports.filter (·.span = t.span)) := by
  have hts := significant_scanned s
  rw [hfront] at hts
  have hothers : ∀ d ∈ steps.flatMap Parser.Section.reports, d.span ≠ t.span := by
    intro d hd hspan
    obtain ⟨u, hu, hat⟩ := hreports d hd
    exact Parser.span_ne_last hts hu (hat.symm.trans hspan)
  have hperm := (diagnostics_perm s).filter (·.span = t.span)
  rwa [hfront, hsteps, List.flatMap_append, List.flatMap_singleton, List.filter_append,
    List.filter_append,
    List.filter_eq_nil_iff.mpr fun d hd =>
      mt of_decide_eq_true (comments_elsewhere ht hcomment hend d hd),
    List.filter_eq_nil_iff.mpr fun d hd => mt of_decide_eq_true (hothers d hd),
    List.nil_append, List.nil_append] at hperm

/-- **A string that is not closed is told as unterminated exactly where its step stops at the
    end.**  It is the last token, and the step that covers it fails.  Where that step stops
    further in front the string is told as the token that was not expected, or not at all. -/
theorem open_string_reported_iff (s : Text) : ∀ t ∈ tokenize s, t.kind = .stringLiteral →
    (Quoted.ofText t.text).closed = false →
      (∃ ts, tokenize s = ts ++ [t, .atEnd s.size]) ∧
      ∃ step e, (Parser.sections (.point s.size) (significant s)).getLast? = some step ∧
        t ∈ step.tokens ∧ step.error? = some e ∧ e ∈ (parse s).diagnostics ∧
        Parser.OpenString (.point s.size) t e ((parse s).diagnostics.filter (·.span = t.span)) ∧
        (Parser.unterminatedLiteral t.span (Quoted.ofText t.text).quote ∈ (parse s).diagnostics ↔
          e.span = .point s.size) := by
  intro t ht hk hquoted
  have hend : t.kind ≠ .endOfInput := hk ▸ TokenKind.noConfusion
  obtain ⟨hlexeme, -, -, hstop⟩ := mem_tokensAt (mem_placed ht hend)
  rw [spelled, lexemes_texts, Nat.zero_add] at hstop
  have hopen : Lexeme.isClosed t.text = false := by
    rw [← hquoted]
    exact (quotes_ofText (lexemes_lexical s _ hlexeme) hk).2.symm
  obtain ⟨ts, hlast⟩ := open_string_last ht hk hopen
  obtain ⟨front, hfront⟩ := significant_last hlast (by rw [hk]; rfl) hend
  have hts := significant_scanned s
  rw [hfront] at hts
  have hforward := hts.forward t (List.mem_append_right front (List.mem_singleton_self t))
  have hne : Span.point s.size ≠ t.span := by
    intro hspan
    rw [← hspan] at hforward
    exact Nat.lt_irrefl _ hforward
  obtain ⟨steps, us, hus, hsteps, htokens, hreports⟩ :=
    @Parser.sections_last (.point s.size) t (hk ▸ TokenKind.noConfusion) _ front (Nat.le_refl _) hts
  have hcovered := hts.sublist (hus.sublist.append_right [t])
  obtain ⟨e, he, hstring⟩ := Parser.sectionAt_open_string hcovered hk hopen hne htokens
  have hstring := hstring.of_perm
    (diagnostics_at_last ht (hk ▸ TokenKind.noConfusion) hend hfront hsteps hreports)
  refine ⟨⟨ts, hlast⟩, Parser.sectionAt (.point s.size) (us ++ [t]), e, ?_, ?_, he, ?_, hstring, ?_⟩
  · rw [hfront, hsteps, List.getLast?_concat]
  · rw [htokens]
    exact List.mem_append_right us (List.mem_singleton_self t)
  · refine (diagnostics_perm s).mem_iff.mpr (List.mem_append_right _ ?_)
    rw [hfront, hsteps, List.flatMap_append, List.flatMap_singleton, Parser.Section.reports, he]
    exact List.mem_append_right _ (List.mem_append_right _ List.mem_cons_self)
  · rw [← hstring.told_iff hne (Nat.lt_of_lt_of_le hforward hstop), List.mem_filter]
    exact (and_iff_left (decide_eq_true rfl)).symm

/-- Behind a name that is not expected the rest is skipped, and nothing is said of the string in
    it. -/
theorem open_string_skipped : ∃ (s : Text) (t : Token), s = "a = b c \"open".toList ∧
    t = ⟨.stringLiteral, ⟨8, 13⟩, "\"open".toList⟩ ∧ t ∈ tokenize s ∧
    (Quoted.ofText t.text).closed = false ∧
    (parse s).diagnostics = [.syntaxError ⟨6, 7⟩ "expected `;`, found rule name `c`"] ∧
    (∃ step e, (Parser.sections (.point s.size) (significant s)).getLast? = some step ∧
      t ∈ step.tokens ∧ step.error? = some e ∧ e ∈ (parse s).diagnostics ∧
      Parser.OpenString (.point s.size) t e []) ∧
    Parser.unterminatedLiteral t.span '"' ∉ (parse s).diagnostics := by
  have hmem : ⟨.stringLiteral, ⟨8, 13⟩, "\"open".toList⟩ ∈ tokenize "a = b c \"open".toList := by
    decide +kernel
  have hdiagnostics : (parse "a = b c \"open".toList).diagnostics
      = [.syntaxError ⟨6, 7⟩ "expected `;`, found rule name `c`"] := by decide +kernel
  have hfilter : (parse "a = b c \"open".toList).diagnostics.filter (·.span = ⟨8, 13⟩) = [] := by
    rw [hdiagnostics]
    rfl
  have hquoted : (Quoted.ofText "\"open".toList).closed = false := by decide +kernel
  obtain ⟨-, step, e, hlast, hcovers, herror, htold, hstring, -⟩ :=
    open_string_reported_iff _ _ hmem rfl hquoted
  rw [hfilter] at hstring
  refine ⟨_, _, rfl, rfl, hmem, hquoted, hdiagnostics, ⟨step, e, hlast, hcovers, herror, htold,
    hstring⟩, ?_⟩
  rw [hdiagnostics]
  decide

end Grammar

end EbnfKit
