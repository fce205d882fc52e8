import Mathlib.Data.List.TakeWhile
import EbnfKit.Fix.Offer
import EbnfKit.Proofs.Editing
import EbnfKit.Proofs.Parsing

/-! # Removal — a rule and the line break behind it

    The fix that removes a rule takes its tokens and, if the line ends there, the blanks up
    to the next line.  What it takes besides the tokens is white space, so it stops where a
    piece of the text stops, and is over no token of another rule:

      t behind r   implies   (removal of r).stop ≤ t.start -/

namespace EbnfKit

open Unicode

/-! ## Line breaks -/

/-- A lexeme that is no trivia does not start with white space. -/
theorem Lexeme.not_isWhiteSpace_head {l : Lexeme} (h : l.Lexical) (hk : l.kind.isTrivia = false)
    {c : Char} {cs : Text} (htext : l.text = c :: cs) : isWhiteSpace c = false := by
  cases hc : isWhiteSpace c with
  | false => rfl
  | true =>
      have hone := lexemes_text h hk
      rw [htext, lexemes_blank hc] at hone
      rw [← (List.cons.inj hone).1] at hk
      cases hk

/-- White space at the front of pieces is blanks. -/
theorem Piece.blanks_of_text {w : Text} (hw : ∀ c ∈ w, isWhiteSpace c = true) {rest : Text} :
    ∀ {ps : List Piece}, (∀ p ∈ ps, p.Valid) → ps.flatMap text = w ++ rest →
      ∃ qs, ps = w.map blank ++ qs := by
  induction w with
  | nil => exact fun {ps} _ _ => ⟨ps, rfl⟩
  | cons c w ih =>
      intro ps hps htext
      obtain ⟨hc, hw⟩ := List.forall_mem_cons.mp hw
      cases ps with
      | nil => cases htext
      | cons p ps =>
          obtain ⟨hp, hlater⟩ := List.forall_mem_cons.mp hps
          rw [List.flatMap_cons, List.cons_append] at htext
          cases p with
          | blank d =>
              obtain ⟨hdc, htext⟩ := List.cons.inj htext
              obtain ⟨qs, hqs⟩ := ih hw hlater htext
              exact ⟨qs, by rw [hqs, hdc]; rfl⟩
          | comment body =>
              rw [← (List.cons.inj htext).1] at hc
              exact absurd hc (by decide)
          | lexeme l =>
              obtain ⟨d, ds, hl⟩ := List.exists_cons_of_ne_nil hp.1.ne_nil
              have hd := Lexeme.not_isWhiteSpace_head hp.1 hp.2 hl
              rw [text, hl, List.cons_append] at htext
              rw [(List.cons.inj htext).1, hc] at hd
              cases hd

/-- White space of one byte. -/
def IsBlank (c : Char) : Prop := c.utf8Size = 1 ∧ isWhiteSpace c = true

theorem IsBlank.space : IsBlank ' ' := ⟨rfl, by decide⟩

theorem IsBlank.tab : IsBlank '\t' := ⟨rfl, by decide⟩

theorem IsBlank.newline : IsBlank '\n' := ⟨rfl, by decide⟩

theorem IsBlank.carriageReturn : IsBlank '\r' := ⟨rfl, by decide⟩

theorem Text.size_of_blank {w : Text} (h : ∀ c ∈ w, IsBlank c) : Text.size w = w.length := by
  induction w with
  | nil => rfl
  | cons c w ih =>
      obtain ⟨hc, hw⟩ := List.forall_mem_cons.mp h
      rw [Text.size, hc.1, ih hw, List.length_cons, Nat.add_comm]

/-- A line break, and what is in front of it, is white space of a byte each. -/
theorem Fix.lineBreak?_eq_some {rest : Text} {n : Nat} (h : lineBreak? rest = some n) :
    ∃ w after, rest = w ++ after ∧ Text.size w = n ∧ ∀ c ∈ w, isWhiteSpace c = true := by
  have hblanks : ∀ c ∈ rest.takeWhile (fun c => c == ' ' || c == '\t'), IsBlank c := by
    intro c hc
    have := List.mem_takeWhile_imp hc
    simp only [Bool.or_eq_true, beq_iff_eq] at this
    rcases this with rfl | rfl
    · exact .space
    · exact .tab
  have hsplit := @List.takeWhile_append_dropWhile _ (fun c => c == ' ' || c == '\t') rest
  have hdrop := @List.drop_left _ (rest.takeWhile fun c => c == ' ' || c == '\t')
    (rest.dropWhile fun c => c == ' ' || c == '\t')
  rw [hsplit] at hdrop
  -- the blanks and the break behind them, whichever of the two it is
  have hbreak : ∀ w after : Text, (∀ c ∈ w, IsBlank c) →
      (rest.dropWhile fun c => c == ' ' || c == '\t') = w ++ after →
      (rest.takeWhile fun c => c == ' ' || c == '\t').length + w.length = n →
      ∃ w after, rest = w ++ after ∧ Text.size w = n ∧ ∀ c ∈ w, isWhiteSpace c = true := by
    intro w after hw hafter hlen
    have hwhite := List.forall_mem_append.mpr ⟨hblanks, hw⟩
    refine ⟨_, after, hsplit.symm.trans ?_, ?_, fun c hc => (hwhite c hc).2⟩
    · rw [hafter, List.append_assoc]
    · rw [Text.size_of_blank hwhite, List.length_append, hlen]
  simp only [lineBreak?, hdrop] at h
  split at h
  · rename_i after hafter
    refine hbreak ['\r', '\n'] after ?_ hafter (Option.some.inj h)
    exact List.forall_mem_cons.mpr ⟨.carriageReturn, List.forall_mem_singleton.mpr .newline⟩
  · rename_i after hafter
    exact hbreak ['\n'] after (List.forall_mem_singleton.mpr .newline) hafter (Option.some.inj h)
  · cases h

/-! ## Where the removal stops -/

section Stop

variable {s : Text} {ps : List Piece} {r : Rule Span}

/-- The removal of a rule takes the rule and blanks behind it. -/
theorem Fix.removeRule_blanks (hs : Layout s ps) (hstop : Piece.IsBoundary 0 ps r.mark.stop) :
    ∃ before w after, ps = before ++ (w.map .blank ++ after) ∧
      Text.size (before.flatMap Piece.text) = r.mark.stop ∧
      (removeRule s r).span = ⟨r.mark.start, r.mark.stop + Text.size w⟩ := by
  obtain ⟨before, after, rfl, hsize⟩ := hstop
  rw [Nat.zero_add] at hsize
  obtain ⟨hvalid, htext, -⟩ := hs
  rw [List.flatMap_append] at htext
  have hrest : ((s.cut? r.mark.stop).map (·.2)).getD [] = after.flatMap Piece.text := by
    rw [hsize, ← htext, Text.cut?_append]
    rfl
  show ∃ before' w after', _ ∧ _ ∧ withLineBreak s r.mark = _
  rw [withLineBreak, hrest]
  cases hbreak : lineBreak? (after.flatMap Piece.text) with
  | none => exact ⟨before, [], after, rfl, hsize.symm, rfl⟩
  | some n =>
      obtain ⟨w, rest, hw, hn, hwhite⟩ := lineBreak?_eq_some hbreak
      obtain ⟨qs, rfl⟩ := Piece.blanks_of_text hwhite
        (fun p hp => hvalid p (List.mem_append_right before hp)) hw
      exact ⟨before, w, qs, rfl, hsize.symm, by rw [hn]⟩

/-- The removal of a rule starts where the rule does, and stops behind it, at a boundary and
    before whatever token follows. -/
theorem Fix.removeRule_span (hs : Layout s ps) (hstop : Piece.IsBoundary 0 ps r.mark.stop) :
    (removeRule s r).span.start = r.mark.start ∧ r.mark.stop ≤ (removeRule s r).span.stop ∧
      Piece.IsBoundary 0 ps (removeRule s r).span.stop ∧
      ∀ t ∈ significant s, r.mark.stop ≤ t.span.start →
        (removeRule s r).span.stop ≤ t.span.start := by
  obtain ⟨before, w, after, rfl, hsize, hspan⟩ := removeRule_blanks hs hstop
  rw [hspan]
  refine ⟨rfl, Nat.le_add_right _ _, ⟨before ++ w.map .blank, after, by rw [List.append_assoc], ?_⟩,
    ?_⟩
  · rw [List.flatMap_append, Text.size_append, Piece.text_blanks, hsize, Nat.zero_add]
  · intro t hmem hafter
    have ht := hmem
    rw [← hs.tokens, Piece.tokensAt_append, Piece.tokensAt_append, Piece.tokensAt_blanks,
      List.nil_append, Nat.zero_add, Piece.text_blanks, hsize] at ht
    rcases List.mem_append.mp ht with ht | ht
    · -- tokens up to the stop of the rule do not start behind it
      have hstop := Piece.stop_le_of_mem_tokensAt ht
      have hforward := (significant_scanned s).forward t hmem
      omega
    · exact Piece.le_of_mem_tokensAt ht

end Stop

end EbnfKit
