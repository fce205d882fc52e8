import EbnfKit.Proofs.Restart
import EbnfKit.Proofs.Sections

/-! # Recovery — where reading goes on behind an error

    A step through a file reads a rule, or gives up some tokens.  Skipping loses no rule, so
    that the rules depend on where the readers stop and not on what is skipped:

      rules of ts  =  r, then the rules of rest     where a rule r is read
                   =  the rules of rest             where none is, but something was taken
                   =  the rules of ts.tail          where nothing was

    A semicolon stops every reader.  So if ts ends in one, nothing in us is missed and nothing
    is read twice, even where a step runs on into us:

      rules of (ts ++ us)  =  rules of ts, then the rules of us

    The end of the input stops every reader too, and is not taken: what stands behind it makes
    no difference to a step in front of it. -/

namespace EbnfKit

namespace Parser

open Reader

variable {n : Nat} {us ts : List Token} {stop stop' : Span}

/-! ## Where reading goes on -/

theorem goesOn_framed (hne : ts ≠ []) (n : Nat) (us rest : List Token) :
    goesOn (ts.map (Token.shift n) ++ us) (rest.map (Token.shift n) ++ us)
      = (goesOn ts rest).map (Token.shift n) ++ us := by
  obtain ⟨t, ts, rfl⟩ := List.exists_cons_of_ne_nil hne
  rw [goesOn, goesOn, List.length_append, List.length_append, List.length_map, List.length_map]
  simp only [Nat.add_lt_add_iff_right]
  split <;> rfl

/-- The rules that are read from the tokens. -/
def rulesOf (stop : Span) (ts : List Token) : List (Rule Span) :=
  (sections stop ts).filterMap (·.rule?)

/-- A step reads a rule or none, and reading goes on behind it. -/
theorem rulesOf_eq {rest : List Token} (hne : ts ≠ []) (h : (sectionAt stop ts).tokens ++ rest = ts) :
    rulesOf stop ts = (sectionAt stop ts).rule?.toList ++ rulesOf stop rest := by
  rw [rulesOf, sections_eq hne h]
  cases hrule : (sectionAt stop ts).rule? with
  | none => rw [List.filterMap_cons_none hrule]; rfl
  | some r => rw [List.filterMap_cons_some hrule]; rfl

/-- A rule fails where none seems to start, and reading goes on behind the token in front. -/
theorem rule_not_starts {t : Token} (h : startsRule (t :: ts) = false) :
    ∃ e, (rule stop (t :: ts)).result = .error e ∧
      goesOn (t :: ts) (rule stop (t :: ts)).rest = ts := by
  rcases next_cases .identifier (t :: ts) with ⟨x, xs, hx, heq⟩ | hnot
  · obtain ⟨rfl, rfl⟩ := List.cons.inj heq
    have hnot : NotNext .equals ts := by
      intro u hu hk
      obtain ⟨us, rfl⟩ := List.head?_eq_some_iff.mp hu
      rw [startsRule, Token.is, Token.is, hx, hk] at h
      cases h
    rw [rule, bind_ok (expect_of_eq hx stop ts), bind_error (expect_of_notNext hnot stop)]
    exact ⟨_, rfl, if_pos (Nat.lt_succ_self _)⟩
  · rw [rule, bind_error (expect_of_notNext hnot stop)]
    exact ⟨_, rfl, if_neg (Nat.lt_irrefl _)⟩

/-- Where no rule seems to start, a step gives up the token in front and skips the others. -/
theorem sectionAt_not_starts {t : Token} (h : startsRule (t :: ts) = false) :
    (sectionAt stop (t :: ts)).rule? = none ∧
      (sectionAt stop (t :: ts)).tokens = t :: skipped ts := by
  obtain ⟨e, herror, hgoes⟩ := @rule_not_starts ts stop t h
  obtain ⟨hrule, front, hfront, htokens⟩ := sectionAt_error (List.cons_ne_nil t ts) herror
  rw [hgoes] at hfront htokens
  obtain rfl : front = [t] := List.append_cancel_right hfront
  exact ⟨hrule, htokens⟩

/-- **Skipping loses no rule**: the rules behind what is skipped are those of all tokens. -/
theorem rulesOf_skipped (stop : Span) {ts rest : List Token} (h : skipped ts ++ rest = ts) :
    rulesOf stop rest = rulesOf stop ts := by
  induction ts generalizing rest with
  | nil =>
      obtain rfl : rest = [] := h
      rfl
  | cons t ts ih =>
      obtain ⟨behind, hbehind⟩ := skipped_prefix ts
      have hnone : startsRule (t :: ts) = false → rulesOf stop (t :: ts) = rulesOf stop ts := by
        intro hstarts
        obtain ⟨hrule, htokens⟩ := @sectionAt_not_starts ts stop t hstarts
        rw [rulesOf_eq (List.cons_ne_nil t ts) (by rw [htokens]; exact congrArg (t :: ·) hbehind),
          hrule, ih hbehind]
        rfl
      rw [skipped] at h
      split at h
      · rename_i hsemicolon
        obtain rfl : rest = ts := (List.cons.inj h).2
        refine (hnone ?_).symm
        have hk : t.kind = .semicolon := beq_iff_eq.mp hsemicolon
        cases rest with
        | nil => rfl
        | cons u us => rw [startsRule, Token.is, hk]; rfl
      split at h
      · rw [← show rest = t :: ts from h]
      · rename_i hgoes
        have hrest : skipped ts ++ rest = ts := (List.cons.inj h).2
        have hstarts : startsRule (t :: ts) = false :=
          (Bool.or_eq_false_iff.mp (Bool.eq_false_iff.mpr hgoes)).2
        rw [ih hrest, hnone hstarts]

/-- **The rules of the tokens** are the one that is read, if it is, and those of where reading
    goes on, whatever is skipped there. -/
theorem rulesOf_rule (stop : Span) (hne : ts ≠ []) :
    rulesOf stop ts = (rule stop ts).result.toOption.toList
      ++ rulesOf stop (goesOn ts (rule stop ts).rest) := by
  cases h : (rule stop ts).result with
  | ok r =>
      obtain ⟨hr, hcovers⟩ := sectionAt_ok h
      rw [rulesOf_eq hne hcovers, hr]
      rfl
  | error e =>
      obtain ⟨hr, front, hfront, htokens⟩ := sectionAt_error hne h
      obtain ⟨behind, hbehind⟩ := skipped_prefix (goesOn ts (rule stop ts).rest)
      have hcovers : (sectionAt stop ts).tokens ++ behind = ts := by
        rw [htokens, List.append_assoc, hbehind, hfront]
      rw [rulesOf_eq hne hcovers, hr, rulesOf_skipped stop hbehind]
      rfl

/-! ## Two inputs, one behind the other -/

/-- The last token is a semicolon, if there is one. -/
def Closed (ts : List Token) : Prop :=
  ∀ t ∈ ts.getLast?, t.kind = .semicolon

theorem Closed.of_append {used rest : List Token} (h : Closed (used ++ rest)) : Closed rest := by
  intro t ht
  refine h t ?_
  rw [List.getLast?_append, ht]
  rfl

/-- Behind tokens that are closed anything may come. -/
theorem Closed.sheltered (h : Closed ts) (hne : ts ≠ []) (n : Nat) (us : List Token)
    (stop stop' : Span) : Sheltered n us stop stop' ts :=
  Or.inl ⟨_, List.getLast_mem hne, h _ (List.getLast?_eq_some_getLast hne)⟩

/-- **The rules of two inputs are those of each**, if the first one is closed. -/
theorem rulesOf_append (n : Nat) (us : List Token) (stop stop' : Span) (k : Nat) :
    ∀ ts, ts.length ≤ k → Closed ts → rulesOf stop' (ts.map (Token.shift n) ++ us)
      = (rulesOf stop ts).map (Rule.map (Span.shift n)) ++ rulesOf stop' us := by
  induction k with
  | zero =>
      intro ts hk _
      obtain rfl := List.length_eq_zero_iff.mp (Nat.le_zero.mp hk)
      rfl
  | succ k ih =>
      intro ts hk hts
      by_cases hne : ts = []
      · rw [hne]
        rfl
      have hmoved : ts.map (Token.shift n) ++ us ≠ [] :=
        List.append_ne_nil_of_left_ne_nil (mt List.map_eq_nil_iff.mp hne) us
      have hframed := @framed_rule n us stop stop' ts (hts.sheltered hne n us stop stop')
      -- both readers go on at the same place, behind which the tokens are closed as well
      have hlt := length_goesOn_lt hne (rule stop ts).rest
      obtain ⟨used, hused, -⟩ := rule_leaves stop ts
      obtain ⟨front, hfront⟩ := goesOn_suffix ⟨used, hused⟩
      rw [← hfront] at hts
      rw [rulesOf_rule stop' hmoved, hframed, rulesOf_rule stop hne, Reply.framed,
        goesOn_framed hne, ih _ (by omega) hts.of_append, List.map_append, List.append_assoc]
      cases (rule stop ts).result <;> rfl

/-! ## Steps that are moved -/

/-- The same step in a text with `n` more bytes in front. -/
def Section.shift (n : Nat) (step : Section) : Section :=
  { tokens := step.tokens.map (Token.shift n)
    notes := step.notes.map (Diagnostic.shift n)
    backward := step.backward.map (Span.shift n)
    outcome := shiftOutcome n (Rule.map (Span.shift n)) step.outcome }

theorem Section.shift_zero (step : Section) : step.shift 0 = step := by
  obtain ⟨tokens, notes, backward, outcome⟩ := step
  have hsame : Rule.map (id : Span → Span) = id := funext Rule.map_id
  rw [shift, Token.shift_zero, Diagnostic.shift_zero, Span.shift_zero, hsame, List.map_id,
    List.map_id, List.map_id]
  cases outcome <;> rfl

theorem Section.rule?_shift (n : Nat) (step : Section) :
    (step.shift n).rule? = step.rule?.map (Rule.map (Span.shift n)) := by
  obtain ⟨tokens, notes, backward, outcome⟩ := step
  cases outcome <;> rfl

theorem Section.error?_shift (n : Nat) (step : Section) :
    (step.shift n).error? = step.error?.map (Diagnostic.shift n) := by
  obtain ⟨tokens, notes, backward, outcome⟩ := step
  cases outcome <;> rfl

/-- What steps note moves with them. -/
theorem notes_shift (n : Nat) (steps : List Section) :
    (steps.map (Section.shift n)).flatMap (·.notes)
      = (steps.flatMap (·.notes)).map (Diagnostic.shift n) := by
  rw [List.flatMap_map, List.map_flatMap]
  rfl

theorem errors_shift (n : Nat) (steps : List Section) :
    (steps.map (Section.shift n)).filterMap (·.error?)
      = (steps.filterMap (·.error?)).map (Diagnostic.shift n) := by
  rw [List.filterMap_map, List.map_filterMap]
  exact List.filterMap_congr fun step _ => step.error?_shift n

section EndsAt

variable {finish : Span} (h : EndsAt finish stop us)

include h

/-- The end of the input starts no rule, and stands in no rule's start. -/
theorem startsRule_framed (n : Nat) (ts : List Token) :
    startsRule (ts.map (Token.shift n) ++ us) = startsRule ts := by
  cases ts with
  | nil =>
      show startsRule us = false
      cases us with
      | nil => rfl
      | cons u us =>
          cases us with
          | nil => rfl
          | cons v us => simp [startsRule, Token.is, h.1]
  | cons t ts =>
      cases ts with
      | nil =>
          cases us with
          | nil => rfl
          | cons u us => simp [startsRule, Token.is, h.1]
      | cons v ts => rfl

/-- Skipping comes no further than to the end of the input. -/
theorem skipped_framed (n : Nat) (ts : List Token) :
    skipped (ts.map (Token.shift n) ++ us) = (skipped ts).map (Token.shift n) := by
  induction ts with
  | nil =>
      cases us with
      | nil => rfl
      | cons u us =>
          show skipped (u :: us) = []
          simp [skipped, Token.is, h.1]
  | cons t ts ih =>
      have hstarts := startsRule_framed h n (t :: ts)
      have hkind : ∀ kind, (t.shift n).is kind = t.is kind := fun _ => rfl
      rw [List.map_cons, List.cons_append] at hstarts ⊢
      rw [skipped, skipped, hstarts, hkind, hkind, ih]
      split
      · rfl
      split
      · rfl
      · rfl

theorem givenUp_framed (hne : ts ≠ []) (n : Nat) (rest : List Token) :
    givenUp (ts.map (Token.shift n) ++ us) (rest.map (Token.shift n) ++ us)
      = (givenUp ts rest).map (Token.shift n) := by
  rw [givenUp, givenUp, List.length_append, List.length_append, List.length_map, List.length_map]
  simp only [Nat.add_lt_add_iff_right]
  split
  · exact skipped_framed h n rest
  · rename_i hlt
    have hpos := List.length_pos_iff.mpr hne
    obtain ⟨t, rest, rfl⟩ := List.exists_cons_of_length_pos (by omega : 0 < rest.length)
    show t.shift n :: skipped (rest.map (Token.shift n) ++ us) = _
    rw [skipped_framed h]
    rfl

end EndsAt

theorem skipNote_shift (n : Nat) (reported : Span) (t : Token) :
    skipNote (reported.shift n) (t.shift n) = (skipNote reported t).map (Diagnostic.shift n) := by
  have hboth : ((t.shift n).kind = .badCharacter ∧ (t.shift n).span ≠ reported.shift n) ↔
      (t.kind = .badCharacter ∧ t.span ≠ reported) :=
    and_congr_right fun _ => not_congr Span.shift_inj
  rw [skipNote, skipNote, if_congr hboth rfl rfl]
  split <;> rfl

/-- A step that reads a rule is the same in every frame, and any step where the input ends
    behind the tokens. -/
theorem sectionAt_framed (hne : ts ≠ []) (hts : Sheltered n us stop stop' ts)
    (h : EndsAt (stop.shift n) stop' us ∨ (sectionAt stop ts).error? = none) :
    sectionAt stop' (ts.map (Token.shift n) ++ us) = (sectionAt stop ts).shift n := by
  have hframed := @framed_rule n us stop stop' ts hts
  rcases hreply : rule stop ts with ⟨notes, backward, result, rest⟩
  rw [hreply] at hframed
  have htaken : (ts.map (Token.shift n) ++ us).take
      ((ts.map (Token.shift n) ++ us).length - (rest.map (Token.shift n) ++ us).length)
        = (ts.take (ts.length - rest.length)).map (Token.shift n) := by
    rw [List.length_append, List.length_append, List.length_map, List.length_map,
      Nat.add_sub_add_right, List.take_append_of_le_length, List.map_take]
    rw [List.length_map]
    exact Nat.sub_le _ _
  cases result with
  | ok r =>
      rw [sectionAt_of_ok hframed, sectionAt_of_ok hreply, htaken]
      rfl
  | error e =>
      -- what follows would be given up as well
      have hends : EndsAt (stop.shift n) stop' us := by
        refine h.resolve_right fun hnone => ?_
        rw [sectionAt_of_error hreply] at hnone
        cases hnone
      have hgiven := givenUp_framed hends hne n rest
      have hnotes : ((givenUp ts rest).map (Token.shift n)).flatMap (skipNote (e.shift n).span)
          = ((givenUp ts rest).flatMap (skipNote e.span)).map (Diagnostic.shift n) := by
        rw [List.flatMap_map, List.map_flatMap]
        exact List.flatMap_congr fun t _ => skipNote_shift n e.span t
      rw [sectionAt_of_error hframed, sectionAt_of_error hreply, htaken, hgiven, hnotes,
        Section.shift, List.map_append, List.map_append]
      rfl

/-- **A step takes no end of the input**: it is the same whatever stands behind that end. -/
theorem sectionAt_uncut {finish : Span} (hne : ts ≠ []) (h : EndsAt finish stop us) :
    sectionAt stop (ts ++ us) = sectionAt finish ts := by
  have hframed := @sectionAt_framed 0 us ts finish stop hne (Or.inr h) (Or.inl h)
  rwa [Token.shift_zero, List.map_id, Section.shift_zero] at hframed

/-- **Steps are the same in every frame**, if the input ends behind the tokens, or if they are
    closed and all steps read rules. -/
theorem sections_framed (n : Nat) (us : List Token) (stop stop' : Span) (k : Nat) :
    ∀ ts, ts.length ≤ k → EndsAt (stop.shift n) stop' us ∨
        (Closed ts ∧ ∀ step ∈ sections stop ts, step.error? = none) →
      sections stop' (ts.map (Token.shift n) ++ us)
        = (sections stop ts).map (Section.shift n) ++ sections stop' us := by
  induction k with
  | zero =>
      intro ts hk _
      obtain rfl := List.length_eq_zero_iff.mp (Nat.le_zero.mp hk)
      rfl
  | succ k ih =>
      intro ts hk h
      by_cases hne : ts = []
      · rw [hne]
        rfl
      obtain ⟨behind, hbehind, hlt⟩ := sectionAt_covers stop hne
      rw [sections_eq hne hbehind] at h ⊢
      have hfirst : Sheltered n us stop stop' ts ∧
          (EndsAt (stop.shift n) stop' us ∨ (sectionAt stop ts).error? = none) := by
        rcases h with hends | ⟨hclosed, hclean⟩
        · exact ⟨Or.inr hends, Or.inl hends⟩
        · exact ⟨hclosed.sheltered hne n us stop stop', Or.inr (List.forall_mem_cons.mp hclean).1⟩
      have hlater : EndsAt (stop.shift n) stop' us ∨
          (Closed behind ∧ ∀ step ∈ sections stop behind, step.error? = none) := by
        refine h.imp_right fun ⟨hclosed, hclean⟩ => ?_
        rw [← hbehind] at hclosed
        exact ⟨hclosed.of_append, (List.forall_mem_cons.mp hclean).2⟩
      have hstep := sectionAt_framed hne hfirst.1 hfirst.2
      have hmoved : (sectionAt stop' (ts.map (Token.shift n) ++ us)).tokens
          ++ (behind.map (Token.shift n) ++ us) = ts.map (Token.shift n) ++ us := by
        rw [hstep, Section.shift, ← List.append_assoc, ← List.map_append, hbehind]
      rw [sections_eq (List.append_ne_nil_of_left_ne_nil (mt List.map_eq_nil_iff.mp hne) us) hmoved,
        hstep, ih behind (by omega) hlater]
      rfl

/-- **Steps move with the tokens.** -/
theorem sections_shift (n : Nat) (stop : Span) (ts : List Token) :
    sections (stop.shift n) (ts.map (Token.shift n)) = (sections stop ts).map (Section.shift n) := by
  have h := sections_framed n [] stop (stop.shift n) ts.length ts (Nat.le_refl _) (Or.inl (.nil _))
  rwa [List.append_nil, show sections (stop.shift n) [] = [] from rfl, List.append_nil] at h

theorem rulesOf_shift (n : Nat) (stop : Span) (ts : List Token) :
    rulesOf (stop.shift n) (ts.map (Token.shift n))
      = (rulesOf stop ts).map (Rule.map (Span.shift n)) := by
  rw [rulesOf, sections_shift, List.filterMap_map, rulesOf, List.map_filterMap]
  exact List.filterMap_congr fun step _ => step.rule?_shift n

end Parser

end EbnfKit
