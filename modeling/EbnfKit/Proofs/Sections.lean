import EbnfKit.Proofs.Framing

/-! # Sections — the steps through a file

    A step covers a front of the tokens that is not empty, so the steps follow each other until
    no token is left:

      sections of ts  =  the section at ts, then the sections of what is behind it

    Where a rule is read it covers the tokens of the rule, and where one fails those that were
    taken and those that are given up. -/

namespace EbnfKit

namespace Parser

open Reader

variable {ts : List Token} {stop : Span}

/-! ## Single steps -/

/-- What is skipped is a front of the tokens. -/
theorem skipped_prefix (ts : List Token) : skipped ts <+: ts := by
  induction ts with
  | nil => exact List.prefix_refl []
  | cons t ts ih =>
      rw [skipped]
      split
      · exact ⟨ts, rfl⟩
      split
      · exact List.nil_prefix
      · exact List.prefix_cons_iff.mpr (Or.inr ⟨_, rfl, ih⟩)

section Equations

variable {notes : List Diagnostic} {backward : List Span} {rest : List Token}

theorem sectionAt_of_ok {r : Rule Span} (h : rule stop ts = ⟨notes, backward, .ok r, rest⟩) :
    sectionAt stop ts = ⟨ts.take (ts.length - rest.length), notes, backward, .ok r⟩ := by
  rw [sectionAt, h]

theorem sectionAt_of_error {e : Diagnostic} (h : rule stop ts = ⟨notes, backward, .error e, rest⟩) :
    sectionAt stop ts = ⟨ts.take (ts.length - rest.length) ++ givenUp ts rest,
      notes ++ (givenUp ts rest).flatMap (skipNote e.span), backward, .error e⟩ := by
  rw [sectionAt, h]

end Equations

/-- What was taken stands in front of what is left. -/
theorem take_taken {used rest : List Token} (h : used ++ rest = ts) :
    ts.take (ts.length - rest.length) = used := by
  rw [← h, List.length_append, Nat.add_sub_cancel, List.take_left]

theorem drop_taken {used rest : List Token} (h : used ++ rest = ts) :
    ts.drop used.length = rest := by
  rw [← h, List.drop_left]

/-- A rule leaves an end of the tokens, and not all of them if it is read. -/
theorem rule_leaves (stop : Span) (ts : List Token) :
    ∃ used, used ++ (rule stop ts).rest = ts ∧ ∀ r, (rule stop ts).result = .ok r → used ≠ [] := by
  obtain ⟨used, -, hcloses⟩ := closes_rule stop ts
  cases h : (rule stop ts).result with
  | ok r =>
      rw [h] at hcloses
      obtain ⟨c, -, hts⟩ := hcloses
      rw [List.append_cons] at hts
      exact ⟨used ++ [c], hts.symm, fun _ _ => List.concat_ne_nil c used⟩
  | error e =>
      rw [h] at hcloses
      exact ⟨used, Eq.symm hcloses, fun r hr => by cases hr⟩

/-- Where reading goes on behind a rule: with what it left, or behind the first token if that
    is everything. -/
def goesOn (ts rest : List Token) : List Token :=
  if rest.length < ts.length then rest else ts.tail

theorem goesOn_suffix {rest : List Token} (h : rest <:+ ts) : goesOn ts rest <:+ ts := by
  rw [goesOn]
  split
  · exact h
  · exact List.tail_suffix ts

theorem length_goesOn_lt (hne : ts ≠ []) (rest : List Token) :
    (goesOn ts rest).length < ts.length := by
  rw [goesOn]
  split
  · assumption
  · rw [List.length_tail]
    exact Nat.sub_lt (List.length_pos_iff.mpr hne) Nat.one_pos

/-- Where a rule is read, the step covers all tokens up to where reading goes on. -/
theorem sectionAt_ok {r : Rule Span} (h : (rule stop ts).result = .ok r) :
    (sectionAt stop ts).rule? = some r ∧
      (sectionAt stop ts).tokens ++ goesOn ts (rule stop ts).rest = ts := by
  obtain ⟨used, hts, hused⟩ := rule_leaves stop ts
  have hpos := List.length_pos_iff.mpr (hused r h)
  have hlen := congrArg List.length hts
  rw [List.length_append] at hlen
  have hreply : rule stop ts
      = ⟨(rule stop ts).notes, (rule stop ts).backward, .ok r, (rule stop ts).rest⟩ := by
    rw [← h]
  rw [sectionAt_of_ok hreply, take_taken hts, goesOn, if_pos (by omega)]
  exact ⟨rfl, hts⟩

/-- Where a rule fails, the step covers these tokens, and skips some more. -/
theorem sectionAt_error {e : Diagnostic} (hne : ts ≠ []) (h : (rule stop ts).result = .error e) :
    (sectionAt stop ts).rule? = none ∧ ∃ front, front ++ goesOn ts (rule stop ts).rest = ts ∧
      (sectionAt stop ts).tokens = front ++ skipped (goesOn ts (rule stop ts).rest) := by
  obtain ⟨used, hts, -⟩ := rule_leaves stop ts
  have hlen := congrArg List.length hts
  rw [List.length_append] at hlen
  have hreply : rule stop ts
      = ⟨(rule stop ts).notes, (rule stop ts).backward, .error e, (rule stop ts).rest⟩ := by
    rw [← h]
  rw [sectionAt_of_error hreply, take_taken hts]
  refine ⟨rfl, ?_⟩
  by_cases hlt : (rule stop ts).rest.length < ts.length
  · rw [goesOn, givenUp, if_pos hlt, if_pos hlt]
    exact ⟨used, hts, rfl⟩
  · -- nothing was taken, so the first token is given up
    obtain rfl := List.length_eq_zero_iff.mp (by omega : used.length = 0)
    have hrest : (rule stop ts).rest = ts := hts
    obtain ⟨t, ts, rfl⟩ := List.exists_cons_of_ne_nil hne
    rw [goesOn, givenUp, if_neg hlt, if_neg hlt, hrest]
    exact ⟨[t], rfl, rfl⟩

/-! ## One after the other -/

/-- Each step covers a front of the tokens, which is not empty. -/
theorem sectionAt_covers (stop : Span) (hne : ts ≠ []) :
    ∃ behind, (sectionAt stop ts).tokens ++ behind = ts ∧ behind.length < ts.length := by
  have hlt := length_goesOn_lt hne (rule stop ts).rest
  cases h : (rule stop ts).result with
  | ok r => exact ⟨_, (sectionAt_ok h).2, hlt⟩
  | error e =>
      obtain ⟨-, front, hfront, htokens⟩ := sectionAt_error hne h
      obtain ⟨behind, hbehind⟩ := skipped_prefix (goesOn ts (rule stop ts).rest)
      have hlen := congrArg List.length hbehind
      rw [List.length_append] at hlen
      refine ⟨behind, ?_, by omega⟩
      rw [htokens, List.append_assoc, hbehind, hfront]

/-- As many steps as there are tokens are enough. -/
theorem sectionsWithin_eq (stop : Span) (k : Nat) : ∀ m ts, ts.length ≤ k → ts.length ≤ m →
    sectionsWithin stop k ts = sectionsWithin stop m ts := by
  induction k with
  | zero =>
      intro m ts hk _
      obtain rfl := List.length_eq_zero_iff.mp (Nat.le_zero.mp hk)
      cases m <;> rfl
  | succ k ih =>
      intro m ts hk hm
      cases ts with
      | nil => cases m <;> rfl
      | cons t ts =>
          cases m with
          | zero => cases hm
          | succ m =>
              obtain ⟨behind, hbehind, hlt⟩ := sectionAt_covers stop (List.cons_ne_nil t ts)
              rw [sectionsWithin, sectionsWithin, drop_taken hbehind,
                ih m behind (by omega) (by omega)]

/-- Steps follow each other. -/
theorem sections_eq {rest : List Token} (hne : ts ≠ []) (h : (sectionAt stop ts).tokens ++ rest = ts) :
    sections stop ts = sectionAt stop ts :: sections stop rest := by
  obtain ⟨behind, hbehind, hlt⟩ := sectionAt_covers stop hne
  obtain rfl : rest = behind := List.append_cancel_left (h.trans hbehind.symm)
  have hdrop := drop_taken h
  obtain ⟨t, ts, rfl⟩ := List.exists_cons_of_ne_nil hne
  rw [sections, List.length_cons, sectionsWithin, hdrop, sections,
    sectionsWithin_eq stop ts.length rest.length rest (Nat.le_of_lt_succ hlt) (Nat.le_refl _)]

end Parser

end EbnfKit
