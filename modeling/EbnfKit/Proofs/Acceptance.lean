import EbnfKit.Proofs.Sections

/-! # Acceptance — the parser takes exactly its grammar

    A text has no syntax errors exactly when its significant tokens are a sentence, the
    brackets in it nest no deeper than allowed, its counts fit, and its strings and its
    comments are closed.  The rules are then its only derivation.

      diagnostics = []   iff   sentence, nesting ≤ 128, counts < 2 ^ 32, strings and
                               comments closed

    One step of the parser is a rule exactly where one derives from the front of the
    tokens; the steps of a whole file follow by induction on the tokens that are left.
    Where steps fail, the rules of the others still derive from stretches of tokens, in
    the same order (`Amid`). -/

namespace EbnfKit

open Reader

/-! ## Problems -/

/-- Every string is closed. -/
def StringsClosed (ts : List Token) : Prop :=
  ∀ t ∈ ts, t.kind = .stringLiteral → Lexeme.isClosed t.text = true

theorem openNotes_eq_nil_iff {ts : List Token} : openNotes ts = [] ↔ StringsClosed ts := by
  rw [openNotes, List.flatMap_eq_nil_iff]
  constructor
  · intro h t ht hk
    have hnil := h t ht
    by_cases hc : Lexeme.isClosed t.text = true
    · exact hc
    · rw [if_pos ⟨hk, Bool.eq_false_iff.mpr hc⟩] at hnil
      cases hnil
  · intro h t ht
    refine if_neg ?_
    rintro ⟨hk, hc⟩
    rw [h t ht hk] at hc
    cases hc

namespace Comments

theorem openEnd?_cons (stop : Nat) (t : Token) (ts : List Token) :
    openEnd? stop (t :: ts) = if t.kind = .comment then openEnd? t.span.stop ts
      else if t.kind = .commentEnd then none else some stop := by
  rw [openEnd?]
  split <;> simp_all

theorem openEnd?_eq_none_iff {stop : Nat} {ts : List Token} :
    openEnd? stop ts = none ↔ ∃ body rest, ts.map (·.kind) = body ++ .commentEnd :: rest ∧
      ∀ k ∈ body, k = .comment := by
  induction ts generalizing stop with
  | nil => simp [openEnd?]
  | cons t ts ih =>
      rw [List.map_cons, openEnd?_cons]
      -- the next token is part of the body, or closes the comment, or is neither
      by_cases hbody : t.kind = .comment
      · rw [if_pos hbody, ih]
        constructor
        · rintro ⟨body, rest, heq, hall⟩
          exact ⟨t.kind :: body, rest, by rw [heq]; rfl, List.forall_mem_cons.mpr ⟨hbody, hall⟩⟩
        · rintro ⟨body, rest, heq, hall⟩
          cases body with
          | nil =>
              rw [hbody] at heq
              cases (List.cons.inj heq).1
          | cons b body =>
              exact ⟨body, rest, (List.cons.inj heq).2, (List.forall_mem_cons.mp hall).2⟩
      · rw [if_neg hbody]
        by_cases hend : t.kind = .commentEnd
        · rw [if_pos hend, hend]
          exact ⟨fun _ => ⟨[], _, rfl, fun _ h => nomatch h⟩, fun _ => rfl⟩
        · rw [if_neg hend]
          constructor
          · intro h
            cases h
          · rintro ⟨body, rest, heq, hall⟩
            cases body with
            | nil => exact absurd (List.cons.inj heq).1 hend
            | cons b body =>
                exact absurd ((List.cons.inj heq).1.trans (hall b List.mem_cons_self)) hbody

theorem unterminatedAll_eq_nil_iff {ts : List Token} :
    unterminatedAll ts = [] ↔ CommentsClosed (ts.map (·.kind)) := by
  induction ts with
  | nil =>
      refine ⟨fun _ => ?_, fun _ => rfl⟩
      intro xs ys h
      cases xs <;> cases h
  | cons t ts ih =>
      have hcons : CommentsClosed ((t :: ts).map (·.kind)) ↔
          (t.kind = .commentStart → openEnd? t.span.stop ts = none) ∧
            CommentsClosed (ts.map (·.kind)) := by
        rw [List.map_cons]
        -- an opening mark stands first, or among the tokens behind
        constructor
        · intro h
          refine ⟨fun hk => openEnd?_eq_none_iff.mpr (h [] _ (by rw [hk]; rfl)), ?_⟩
          intro xs ys heq
          exact h (t.kind :: xs) ys (by rw [heq]; rfl)
        · rintro ⟨hfirst, hrest⟩ xs ys heq
          cases xs with
          | nil =>
              obtain ⟨hk, hys⟩ := List.cons.inj heq
              rw [← hys]
              exact openEnd?_eq_none_iff.mp (hfirst hk)
          | cons x xs => exact hrest xs ys (List.cons.inj heq).2
      rw [hcons, unterminatedAll]
      by_cases hk : t.kind = .commentStart
      · rw [if_pos hk]
        cases ho : openEnd? t.span.stop ts with
        | none => simp [hk, ih]
        | some stop => simp [hk]
      · rw [if_neg hk]
        simp [hk, ih]

end Comments

/-! ## Steps -/

/-- Items in order, with anything before, between and after them. -/
inductive Amid {τ β : Type} (item : List τ → β → Prop) : List τ → List β → Prop
  | nil {ts} : Amid item ts []
  | skip {ts us xs} : Amid item us xs → Amid item (ts ++ us) xs
  | cons {ts x us xs} : item ts x → Amid item us xs → Amid item (ts ++ us) (x :: xs)

theorem Rule.Derives.mark_eq {ts : List Token} {r : Rule Span} (h : Rule.Derives .placed ts r) :
    r.mark = Span.over ts := by
  cases h with
  | mk _ _ _ _ _ hm => exact hm

namespace Parser

theorem rule_ne_nil {ts : List Token} {r : Rule Span} (h : Rule.Derives .placed ts r) :
    ts ≠ [] := by
  cases h
  exact List.cons_ne_nil _ _

/-- Where a rule was read, the step covers its tokens and no others. -/
theorem sectionAt_of_reads {stop : Span} {used rest : List Token} {notes : List Diagnostic}
    {r : Rule Span} (h : Reads rule stop (used ++ rest) notes r rest) :
    ∃ backward, sectionAt stop (used ++ rest) = ⟨used, notes, backward, .ok r⟩ := by
  obtain ⟨backward, h⟩ := h
  refine ⟨backward, ?_⟩
  rw [sectionAt, h]
  simp

/-- A step that is a rule has one that derives from the front of the tokens. -/
theorem sectionAt_sound {stop : Span} {ts : List Token} {r : Rule Span} (hts : Scanned ts)
    (h : (sectionAt stop ts).outcome = .ok r) :
    ∃ used rest, ts = used ++ rest ∧ RuleFits maxNesting used r ∧
      (sectionAt stop ts).tokens = used ∧ (sectionAt stop ts).notes = openNotes used := by
  have hreads : Reads rule stop ts (rule stop ts).notes r (rule stop ts).rest := by
    refine ⟨(rule stop ts).backward, ?_⟩
    rw [sectionAt] at h
    rcases hreply : rule stop ts with ⟨notes, backward, result, rest⟩
    rw [hreply] at h
    cases result with
    | error e => cases h
    | ok r' =>
        have hr : r' = r := Except.ok.inj h
        rw [hr]
  obtain ⟨used, hsplit, hnotes, hfits⟩ := rule_sound _ _ _ _ _ hts hreads
  -- what is left over has to be a variable before the tokens can be split
  generalize (rule stop ts).rest = rest at hreads hsplit
  rw [hnotes] at hreads
  subst hsplit
  obtain ⟨backward, hstep⟩ := sectionAt_of_reads hreads
  rw [hstep]
  exact ⟨used, rest, rfl, hfits, rfl, rfl⟩

theorem Section.rule?_eq_some_iff {step : Section} {r : Rule Span} :
    step.rule? = some r ↔ step.outcome = .ok r := by
  rw [Section.rule?]
  cases step.outcome <;> simp

theorem Section.error?_eq_none_iff {step : Section} :
    step.error? = none ↔ ∃ r, step.outcome = .ok r := by
  rw [Section.error?]
  cases step.outcome <;> simp

/-- The rules among the steps derive from stretches of the tokens, in order. -/
theorem sectionsWithin_amid {stop : Span} (n : Nat) :
    ∀ ts, Scanned ts → Amid (RuleFits maxNesting) ts
      ((sectionsWithin stop n ts).filterMap (·.rule?)) := by
  induction n with
  | zero => intro ts _; exact .nil
  | succ n ih =>
      intro ts hts
      cases ts with
      | nil => exact .nil
      | cons t ts =>
          have hrest : Scanned ((t :: ts).drop (sectionAt stop (t :: ts)).tokens.length) :=
            hts.sublist (List.drop_sublist _ _)
          have hmore := ih _ hrest
          rw [sectionsWithin]
          cases hrule : (sectionAt stop (t :: ts)).rule? with
          | none =>
              -- a step that failed took some tokens all the same
              rw [List.filterMap_cons_none hrule]
              have hskip := @Amid.skip _ _ _
                ((t :: ts).take (sectionAt stop (t :: ts)).tokens.length) _ _ hmore
              rwa [List.take_append_drop] at hskip
          | some r =>
              rw [List.filterMap_cons_some hrule]
              obtain ⟨used, rest, hsplit, hfits, hused, -⟩ :=
                sectionAt_sound hts (Section.rule?_eq_some_iff.mp hrule)
              rw [hused, hsplit, List.drop_left] at hmore ⊢
              exact .cons hfits hmore

/-- Rules that derive from all of the tokens, with brackets no deeper than allowed. -/
def Accepted (ts : List Token) (rules : List (Rule Span)) : Prop :=
  Rule.DerivesAll .placed ts rules ∧ ∀ r ∈ rules, r.body.nesting ≤ maxNesting

/-- Steps without any problem read all of the tokens. -/
theorem sectionsWithin_sound {stop : Span} (n : Nat) :
    ∀ ts, Scanned ts → ts.length ≤ n →
      (∀ step ∈ sectionsWithin stop n ts, step.notes = [] ∧ step.error? = none) →
      Accepted ts ((sectionsWithin stop n ts).filterMap (·.rule?)) ∧ CountsFit ts ∧
        openNotes ts = [] := by
  induction n with
  | zero =>
      intro ts _ hlen _
      rw [List.length_eq_zero_iff.mp (Nat.le_zero.mp hlen)]
      exact ⟨⟨.nil, fun _ h => nomatch h⟩, countsFit_nil, rfl⟩
  | succ n ih =>
      intro ts hts hlen hclean
      cases ts with
      | nil => exact ⟨⟨.nil, fun _ h => nomatch h⟩, countsFit_nil, rfl⟩
      | cons t ts =>
          rw [sectionsWithin] at hclean ⊢
          obtain ⟨⟨hnotes, herror⟩, hlater⟩ := List.forall_mem_cons.mp hclean
          obtain ⟨r, hr⟩ := Section.error?_eq_none_iff.mp herror
          obtain ⟨used, rest, hsplit, hfits, hused, hopen⟩ := sectionAt_sound hts hr
          rw [List.filterMap_cons_some (Section.rule?_eq_some_iff.mpr hr)]
          rw [hopen] at hnotes
          rw [hsplit] at hts hlen
          -- a rule has tokens, so there are fewer left than steps
          have hne := List.length_pos_iff.mpr (rule_ne_nil hfits.derives)
          rw [List.length_append] at hlen
          have hdrop : (t :: ts).drop (sectionAt stop (t :: ts)).tokens.length = rest := by
            rw [hused, hsplit, List.drop_left]
          rw [hdrop] at hlater ⊢
          obtain ⟨⟨hderives, hnesting⟩, hcounts, hclosed⟩ := ih rest hts.right (by omega) hlater
          rw [hsplit]
          refine ⟨⟨.cons hfits.derives hderives, ?_⟩, ?_, ?_⟩
          · exact List.forall_mem_cons.mpr ⟨hfits.nesting, hnesting⟩
          · exact countsFit_append.mpr ⟨hfits.counts, hcounts⟩
          · rw [openNotes_append, hnotes, hclosed]
            rfl

/-- Tokens that are read as these rules, without any problem. -/
structure ReadsAs (ts : List Token) (rules : List (Rule Span)) : Prop where
  accepted : Accepted ts rules
  scanned : Scanned ts
  counts : CountsFit ts
  closed : openNotes ts = []

/-- Rules in front are read, and reading goes on behind them. -/
theorem ReadsAs.sections_append {us : List Token} {rules : List (Rule Span)} (h : ReadsAs us rules)
    (stop : Span) (vs : List Token) :
    ∃ steps, sections stop (us ++ vs) = steps ++ sections stop vs ∧
      steps.filterMap (·.rule?) = rules ∧
      ∀ step ∈ steps, step.notes = [] ∧ step.error? = none := by
  obtain ⟨⟨hderives, hnesting⟩, hscanned, hcounts, hclosed⟩ := h
  induction hderives with
  | nil => exact ⟨[], rfl, rfl, List.forall_mem_nil _⟩
  | @cons used r rest rs hr _ ih =>
      obtain ⟨hfirst, hlater⟩ := List.forall_mem_cons.mp hnesting
      obtain ⟨hcounts₁, hcounts₂⟩ := countsFit_append.mp hcounts
      rw [openNotes_append, List.append_eq_nil_iff] at hclosed
      have hread := rule_complete stop used r (rest ++ vs) hscanned.left ⟨hr, hfirst, hcounts₁⟩
        (fun _ _ h => h)
      obtain ⟨backward, hstep⟩ := sectionAt_of_reads hread
      obtain ⟨steps, hsteps, hrules, hclean⟩ := ih hscanned.right hcounts₂ hclosed.2 hlater
      have hne : used ++ (rest ++ vs) ≠ [] := List.append_ne_nil_of_left_ne_nil (rule_ne_nil hr) _
      refine ⟨⟨used, openNotes used, backward, .ok r⟩ :: steps, ?_, ?_, ?_⟩
      · rw [List.append_assoc, sections_eq hne (by rw [hstep]), hstep, hsteps, List.cons_append]
      · rw [List.filterMap_cons_some (by rfl), hrules]
      · exact List.forall_mem_cons.mpr ⟨⟨hclosed.1, rfl⟩, hclean⟩

/-- Tokens that are a sentence are read without any problem. -/
theorem ReadsAs.sections_clean {ts : List Token} {rules : List (Rule Span)} (h : ReadsAs ts rules)
    (stop : Span) : ∀ step ∈ sections stop ts, step.notes = [] ∧ step.error? = none := by
  obtain ⟨steps, hsteps, -, hclean⟩ := h.sections_append stop []
  rw [List.append_nil, show sections stop [] = [] from rfl, List.append_nil] at hsteps
  rwa [hsteps]

end Parser

/-! ## Uniqueness -/

/-- A reader reads one value. -/
theorem Reader.Reads.unique {α : Type} {p : Reader α} {stop : Span} {ts : List Token}
    {n n' : List Diagnostic} {a a' : α} {rest rest' : List Token}
    (h : Reads p stop ts n a rest) (h' : Reads p stop ts n' a' rest') : a = a' ∧ rest = rest' := by
  obtain ⟨backward, h⟩ := h
  obtain ⟨backward', h'⟩ := h'
  have heq := h.symm.trans h'
  injection heq with _ _ hresult hrest
  exact ⟨Except.ok.inj hresult, hrest⟩

/-- Of all rules only one derives from the front of the tokens, and from one stretch. -/
theorem Rule.Derives.unique {ts ts' rest rest' : List Token} {r r' : Rule Span}
    (hts : Scanned (ts ++ rest)) (hcounts : CountsFit (ts ++ rest))
    (h : Rule.Derives .placed ts r) (h' : Rule.Derives .placed ts' r')
    (heq : ts ++ rest = ts' ++ rest') : ts = ts' ∧ r = r' := by
  have hts' := heq ▸ hts
  have hcounts' := heq ▸ hcounts
  obtain ⟨hfit, -⟩ := countsFit_append.mp hcounts
  obtain ⟨hfit', -⟩ := countsFit_append.mp hcounts'
  cases h with
  | @mk x s us c nm e m hx hs he hc hnm hm =>
    cases h' with
    | @mk x' s' us' c' nm' e' m' hx' hs' he' hc' hnm' hm' =>
      -- both bodies are read at the depth that is enough for the deeper one
      have hread : ∀ {v w ws d rest b}, Expression.Derives .placed ws b →
          d.kind = .semicolon → Scanned (v :: w :: ws ++ [d] ++ rest) →
          CountsFit (v :: w :: ws ++ [d]) → b.nesting ≤ max e.nesting e'.nesting →
          Reads (Parser.expression (max e.nesting e'.nesting)) (.point 0) (ws ++ d :: rest)
            (openNotes ws) b (d :: rest) := by
        intro v w ws d rest b hb hd hscan hcount hnest
        refine Parser.expression_complete _ (.point 0) ws b (d :: rest) hscan.left.left.tail.tail
          ⟨hb, hnest, ?_⟩ ?_
        · intro t ht
          exact hcount t
            (List.mem_append_left [d] (List.mem_cons_of_mem _ (List.mem_cons_of_mem _ ht)))
        · intro t ht
          rw [← Option.some.inj ht, hd]
          decide
      have h₁ := hread he hc hts hfit (Nat.le_max_left _ _)
      have h₂ := hread he' hc' hts' hfit' (Nat.le_max_right _ _)
      simp only [List.cons_append, List.append_assoc, List.nil_append, List.cons.injEq] at heq
      obtain ⟨rfl, rfl, heq⟩ := heq
      rw [heq] at h₁
      obtain ⟨rfl, hrest⟩ := h₁.unique h₂
      obtain ⟨rfl, rfl⟩ := List.cons.inj hrest
      have hus : us = us' := List.append_cancel_right heq
      subst hus
      rw [show nm = _ from hnm, show nm' = _ from hnm', show m = _ from hm, show m' = _ from hm']
      exact ⟨rfl, rfl⟩

/-- A sentence has one derivation. -/
theorem Rule.DerivesAll.unique {ts : List Token} {rs rs' : List (Rule Span)}
    (h : Rule.DerivesAll .placed ts rs) :
    ∀ {ts'}, ts = ts' → Scanned ts → CountsFit ts → Rule.DerivesAll .placed ts' rs' → rs = rs' := by
  induction h generalizing rs' with
  | nil =>
      intro ts' heq _ _ h'
      cases h' with
      | nil => rfl
      | cons hr _ =>
          have := Parser.rule_ne_nil hr
          simp_all
  | @cons used r rest rs hr _ ih =>
      intro ts' heq hts hcounts h'
      cases h' with
      | nil =>
          have := Parser.rule_ne_nil hr
          simp_all
      | @cons used' r' rest' rs' hr' hrs' =>
          obtain ⟨rfl, rfl⟩ := Rule.Derives.unique hts hcounts hr hr' heq
          rw [ih (List.append_cancel_left heq) hts.right (countsFit_append.mp hcounts).2 hrs']

/-! ## Files -/

namespace Grammar

/-- The steps through a text are those through its significant tokens. -/
theorem sectionsOf_tokenize (s : Text) :
    Parser.sectionsOf (tokenize s) = Parser.sections (.point s.size) (significant s) := by
  rw [Parser.sectionsOf, ofTokens_tokenize]

theorem rules_eq (s : Text) : (parse s).rules
    = (Parser.sections (.point s.size) (significant s)).filterMap (·.rule?) := by
  rw [← sectionsOf_tokenize]
  rfl

theorem diagnostics_eq (s : Text) : (parse s).diagnostics = Diagnostic.sort
    (Comments.unterminatedAll (tokenize s)
      ++ (Parser.sections (.point s.size) (significant s)).flatMap (·.notes)
      ++ (Parser.sections (.point s.size) (significant s)).filterMap (·.error?)) := by
  rw [← sectionsOf_tokenize]
  rfl

/-- The rules of any text derive from stretches of its significant tokens, in order. -/
theorem parse_amid (s : Text) :
    Amid (Parser.RuleFits maxNesting) (significant s) (parse s).rules := by
  rw [rules_eq]
  exact Parser.sectionsWithin_amid _ _ (significant_scanned s)

/-- There are no syntax errors if no comment is open and no step has a problem. -/
theorem diagnostics_eq_nil_iff {s : Text} :
    (parse s).diagnostics = [] ↔ CommentsClosed ((tokenize s).map (·.kind)) ∧
      ∀ step ∈ Parser.sections (.point s.size) (significant s),
        step.notes = [] ∧ step.error? = none := by
  rw [← Comments.unterminatedAll_eq_nil_iff, diagnostics_eq, Diagnostic.sort, stableSort_eq_nil_iff,
    List.append_eq_nil_iff, List.append_eq_nil_iff, List.flatMap_eq_nil_iff,
    List.filterMap_eq_nil_iff, and_assoc]
  refine and_congr_right fun _ => ?_
  constructor
  · rintro ⟨hnotes, herrors⟩ step hstep
    exact ⟨hnotes step hstep, herrors step hstep⟩
  · intro h
    exact ⟨fun step hstep => (h step hstep).1, fun step hstep => (h step hstep).2⟩

/-- What there is to a text without syntax errors. -/
theorem accepted_of_clean {s : Text} (h : (parse s).diagnostics = []) :
    Parser.Accepted (significant s) (parse s).rules ∧ CountsFit (significant s) ∧
      StringsClosed (significant s) ∧ CommentsClosed ((tokenize s).map (·.kind)) := by
  obtain ⟨hcomments, hclean⟩ := diagnostics_eq_nil_iff.mp h
  obtain ⟨haccepted, hcounts, hopen⟩ :=
    Parser.sectionsWithin_sound _ _ (significant_scanned s) (Nat.le_refl _) hclean
  rw [rules_eq]
  exact ⟨haccepted, hcounts, openNotes_eq_nil_iff.mp hopen, hcomments⟩

/-- What is enough for a text to have no syntax errors. -/
theorem clean_of_accepted {s : Text} {rules : List (Rule Span)}
    (h : Parser.Accepted (significant s) rules) (hcounts : CountsFit (significant s))
    (hstrings : StringsClosed (significant s))
    (hcomments : CommentsClosed ((tokenize s).map (·.kind))) : (parse s).diagnostics = [] :=
  diagnostics_eq_nil_iff.mpr ⟨hcomments, Parser.ReadsAs.sections_clean
    ⟨h, significant_scanned s, hcounts, openNotes_eq_nil_iff.mpr hstrings⟩ _⟩

/-- The rules of a text without syntax errors are its only derivation. -/
theorem rules_unique {s : Text} (h : (parse s).diagnostics = []) {rules : List (Rule Span)}
    (hderives : Rule.DerivesAll .placed (significant s) rules) : rules = (parse s).rules := by
  obtain ⟨⟨hparse, -⟩, hcounts, -, -⟩ := accepted_of_clean h
  exact hderives.unique rfl (significant_scanned s) hcounts hparse

/-- All strings are significant. -/
theorem stringsClosed_significant (s : Text) :
    StringsClosed (significant s) ↔ StringsClosed (tokenize s) := by
  constructor
  · intro h t ht hk
    refine h t (List.mem_filter.mpr ⟨ht, ?_⟩) hk
    rw [Token.is, hk]
    rfl
  · intro h t ht hk
    exact h t (List.mem_filter.mp ht).1 hk

/-- **The parser accepts exactly its grammar**, and then its rules are the only derivation
    of the text. -/
theorem parse_accepts_exactly (s : Text) :
    ((parse s).diagnostics = [] ↔
      (∃ rules, Rule.DerivesAll .placed (significant s) rules ∧
        ∀ r ∈ rules, r.body.nesting ≤ maxNesting) ∧
      CountsFit (significant s) ∧ StringsClosed (tokenize s) ∧
      CommentsClosed ((tokenize s).map (·.kind))) ∧
    ((parse s).diagnostics = [] →
      Rule.DerivesAll .placed (significant s) (parse s).rules ∧
      ∀ rules, Rule.DerivesAll .placed (significant s) rules → rules = (parse s).rules) := by
  refine ⟨⟨?_, ?_⟩, ?_⟩
  · intro hclean
    obtain ⟨haccepted, hcounts, hstrings, hcomments⟩ := accepted_of_clean hclean
    exact ⟨⟨_, haccepted⟩, hcounts, (stringsClosed_significant s).mp hstrings, hcomments⟩
  · rintro ⟨⟨rules, haccepted⟩, hcounts, hstrings, hcomments⟩
    exact clean_of_accepted haccepted hcounts ((stringsClosed_significant s).mpr hstrings)
      hcomments
  · intro hclean
    exact ⟨(accepted_of_clean hclean).1.1, fun rules h => rules_unique hclean h⟩

/-- A text of two rules is accepted, with its derivation. -/
theorem parse_accepts_two_rules :
    (parse "a = 2 * b - 'x' ; b = [ a ] ;".toList).diagnostics = [] ∧
      Rule.DerivesAll .placed (significant "a = 2 * b - 'x' ; b = [ a ] ;".toList)
        (parse "a = 2 * b - 'x' ; b = [ a ] ;".toList).rules := by
  have hclean : (parse "a = 2 * b - 'x' ; b = [ a ] ;".toList).diagnostics = [] := by
    decide +kernel
  exact ⟨hclean, ((parse_accepts_exactly _).2 hclean).1⟩

end Grammar

end EbnfKit
