import EbnfKit.Proofs.ReadBack

/-! # Documentation — the comments that rules keep

    A rule keeps the comment directly above it, trimmed.  What is kept holds no closing mark
    and no white space at its ends, so between a space on either side it is the body of one
    comment, and trimming that body gives it back:

      trim (' ' :: c ++ [' ']) = c     if c is trimmed

    Where the comment of a rule is looked for, only the lexemes in front of it matter. -/

namespace EbnfKit

open Unicode

/-! ## Trimming -/

/-- No white space at either end. -/
def Trimmed (c : Text) : Prop :=
  (∀ d ∈ c.head?, isWhiteSpace d = false) ∧ ∀ d ∈ c.getLast?, isWhiteSpace d = false

theorem dropWhile_eq_self {p : Char → Bool} {c : Text} (h : ∀ d ∈ c.head?, p d = false) :
    c.dropWhile p = c := by
  cases c with
  | nil => rfl
  | cons d c => rw [List.dropWhile_cons, h d rfl]; rfl

theorem head?_dropWhile {p : Char → Bool} (c : Text) : ∀ d ∈ (c.dropWhile p).head?, p d = false := by
  intro d hd
  have := List.head?_dropWhile_not p c
  rw [Option.mem_def.mp hd] at this
  simpa using this

theorem trim_trimmed (c : Text) : Trimmed c.trim := by
  have hfront := @head?_dropWhile isWhiteSpace c
  have hback := @head?_dropWhile isWhiteSpace (c.dropWhile isWhiteSpace).reverse
  rw [Trimmed, Text.trim, List.getLast?_reverse]
  refine ⟨?_, hback⟩
  -- what is left of the front is the front of what was left
  have hprefix : ((c.dropWhile isWhiteSpace).reverse.dropWhile isWhiteSpace).reverse <+:
      c.dropWhile isWhiteSpace := by
    rw [← List.reverse_suffix, List.reverse_reverse]
    exact List.dropWhile_suffix isWhiteSpace
  intro d hd
  refine hfront d ?_
  obtain ⟨rest, hrest⟩ := hprefix
  rw [← hrest, List.head?_append, Option.mem_def.mp hd]
  rfl

theorem trim_spaced {c : Text} (h : Trimmed c) : Text.trim (' ' :: c ++ [' ']) = c := by
  have hblank : isWhiteSpace ' ' = true := by decide
  obtain ⟨hfront, hback⟩ := h
  rw [Text.trim, List.cons_append, List.dropWhile_cons, if_pos hblank]
  -- the space in front goes, then nothing, then the space behind, and then nothing
  cases c with
  | nil => decide
  | cons d c =>
      have hleft : (d :: c ++ [' ']).dropWhile isWhiteSpace = d :: c ++ [' '] :=
        dropWhile_eq_self hfront
      have hright : (d :: c).reverse.dropWhile isWhiteSpace = (d :: c).reverse :=
        dropWhile_eq_self (by rw [List.head?_reverse]; exact hback)
      rw [hleft, List.reverse_append, List.reverse_singleton, List.singleton_append,
        List.dropWhile_cons, if_pos hblank, hright, List.reverse_reverse]

/-! ## Bodies of comments -/

namespace Lexeme

/-- A text without the closing mark is one in which the mark does not stand. -/
theorem unmarked_iff {cs : Text} : Unmarked cs ↔ ¬closing <:+: cs := by
  unfold Unmarked
  induction cs with
  | nil => simp [closing, commentBody]
  | cons c cs ih =>
      have hnext : ∃ d ds, cs ++ closing = d :: ds := by
        cases cs with
        | nil => exact ⟨'*', [')'], rfl⟩
        | cons d cs => exact ⟨d, cs ++ closing, rfl⟩
      obtain ⟨d, ds, hd⟩ := hnext
      rw [List.cons_append, hd, commentBody, List.infix_cons_iff, ← hd]
      -- the body ends here if `c` and what follows it are the mark
      by_cases hmark : c = '*' ∧ d = ')'
      · rw [if_pos hmark]
        refine ⟨fun h => absurd h (List.cons_ne_nil c cs).symm, fun h => ?_⟩
        refine absurd (Or.inl ?_) h
        cases cs with
        | nil =>
            have hstar : '*' = d := (List.cons.inj hd).1
            rw [← hstar] at hmark
            exact absurd hmark.2 (by decide)
        | cons e cs =>
            obtain rfl : e = d := (List.cons.inj hd).1
            exact ⟨cs, by rw [hmark.1, hmark.2]; rfl⟩
      · rw [if_neg hmark, List.cons.injEq, eq_self, true_and, ih, not_or]
        refine ⟨fun h => ⟨?_, h⟩, fun h => h.2⟩
        rintro ⟨t, ht⟩
        obtain ⟨rfl, hcs⟩ := List.cons.inj ht
        rw [← hcs] at hd
        exact hmark ⟨rfl, (List.cons.inj hd).1.symm⟩

theorem Unmarked.trim {cs : Text} (h : Unmarked cs) : Unmarked cs.trim := by
  rw [unmarked_iff] at h ⊢
  intro hin
  refine h (hin.trans ?_)
  have hback : ((cs.dropWhile isWhiteSpace).reverse.dropWhile isWhiteSpace).reverse <:+:
      cs.dropWhile isWhiteSpace := by
    rw [← List.reverse_infix, List.reverse_reverse]
    exact (List.dropWhile_suffix isWhiteSpace).isInfix
  exact hback.trans (List.dropWhile_suffix isWhiteSpace).isInfix

theorem Unmarked.spaced {cs : Text} (h : Unmarked cs) : Unmarked (' ' :: cs ++ [' ']) := by
  rw [unmarked_iff] at h ⊢
  rw [List.infix_concat_iff, List.infix_cons_iff]
  -- the mark neither ends in a space nor begins with one
  rintro (hsuffix | hprefix | hin)
  · obtain ⟨t, ht⟩ := hsuffix
    have hlast := congrArg List.getLast? ht
    rw [List.getLast?_concat, List.getLast?_append] at hlast
    exact absurd (Option.some.inj hlast) (by decide)
  · obtain ⟨t, ht⟩ := hprefix
    exact absurd (List.cons.inj ht).1 (by decide)
  · exact h hin

end Lexeme

/-! ## Where comments are looked for -/

namespace Comments

/-- What is kept of a comment is trimmed, and the body of one. -/
theorem above?_kept {ts : List Token} (hts : ∀ t ∈ ts, t.kind = .comment → Lexeme.Unmarked t.text)
    {c : Text} (h : above? ts = some c) : Trimmed c ∧ Lexeme.Unmarked c := by
  have hempty : Trimmed [] ∧ Lexeme.Unmarked [] :=
    ⟨⟨fun _ h => (nomatch h), fun _ h => (nomatch h)⟩, rfl⟩
  -- white space with one line break at most is passed over, and then there is a comment or not
  induction ts with
  | nil => cases h
  | cons t ts ih =>
      obtain ⟨-, hrest⟩ := List.forall_mem_cons.mp hts
      unfold above? at h
      split at h
      · split at h
        · exact ih hrest h
        · cases h
      · split at h
        · cases h
        · rename_i body _
          split at h
          · rename_i hk
            rw [← Option.some.inj h]
            exact ⟨trim_trimmed _, (hrest body List.mem_cons_self hk).trim⟩
          · rw [← Option.some.inj h]
            exact hempty
      · cases h

/-- What comes before a token that others follow, none of which starts where it does. -/
theorem preceding_eq {pre post : List Token} {t : Token}
    (h : ∀ u ∈ post, u.span.start ≠ t.span.start) :
    preceding (pre ++ t :: post) t.span.start = pre.reverse := by
  have hskip : ∀ us : List Token, (∀ u ∈ us, u.span.start ≠ t.span.start) → ∀ vs : List Token,
      ((us ++ vs).dropWhile fun u => u.span.start != t.span.start)
        = vs.dropWhile fun u => u.span.start != t.span.start := by
    intro us hus vs
    refine List.dropWhile_append_of_pos ?_
    intro u hu
    exact bne_iff_ne.mpr (hus u hu)
  rw [preceding, List.reverse_append, List.reverse_cons, List.append_assoc,
    hskip _ (fun u hu => h u (List.mem_reverse.mp hu)), List.singleton_append,
    List.dropWhile_cons, if_neg (by simp), List.tail_cons]

/-- The comment above what follows some lexemes depends on them alone. -/
theorem leading?_eq {x : Text} {ls ms : List Lexeme} {l : Lexeme}
    (h : lexemes x = ls ++ l :: ms) :
    leading? (tokenize x) (Text.size (spelled ls)) = above? (tokensAt 0 ls).reverse := by
  have hpos : 0 < Text.size l.text :=
    Text.size_pos (lexemes_lexical x l (h ▸ List.mem_append_right ls List.mem_cons_self)).ne_nil
  have hsize : Text.size x = Text.size (spelled ls) + Text.size l.text + Text.size (spelled ms) := by
    have := congrArg (fun ls => Text.size (spelled ls)) h
    simp only [spelled_append, spelled_cons, Text.size_append] at this
    rw [spelled, lexemes_texts] at this
    omega
  have hlater : ∀ u ∈ tokensAt (Text.size (spelled ls) + Text.size l.text) ms
      ++ [Token.atEnd (Text.size x)], u.span.start ≠ Text.size (spelled ls) := by
    intro u hu
    rcases List.mem_append.mp hu with hu | hu
    · have := (mem_tokensAt hu).2.1
      omega
    · rw [List.mem_singleton.mp hu]
      show Text.size x ≠ _
      omega
  have hsplit : tokenize x = tokensAt 0 ls ++ (⟨l.kind, ⟨Text.size (spelled ls),
      Text.size (spelled ls) + Text.size l.text⟩, l.text⟩ : Token) ::
        (tokensAt (Text.size (spelled ls) + Text.size l.text) ms ++ [.atEnd (Text.size x)]) := by
    rw [tokenize_eq, h, tokensAt_append, Nat.zero_add, List.append_assoc]
    rfl
  rw [leading?, hsplit]
  exact congrArg above? (preceding_eq hlater)

end Comments

/-- Entries that depend on their key alone are found under it. -/
theorem lookup_filterMap {β : Type} {key : β → Nat} {f : Nat → Option Text} {bs : List β} {b : β}
    (hb : b ∈ bs) :
    (bs.filterMap fun u => (f (key u)).map fun text => (key u, text)).lookup (key b)
      = f (key b) := by
  induction bs with
  | nil => cases hb
  | cons u us ih =>
      -- an entry under another key is passed over, and one under this key is as good as its own
      cases hu : f (key u) with
      | none =>
          rw [List.filterMap_cons_none (by rw [hu]; rfl)]
          rcases List.mem_cons.mp hb with heq | hmem
          · rw [heq, hu, List.lookup_eq_none_iff]
            intro p hp
            obtain ⟨v, -, hv⟩ := List.mem_filterMap.mp hp
            obtain ⟨text, htext, rfl⟩ := Option.map_eq_some_iff.mp hv
            refine bne_iff_ne.mpr fun hkey => ?_
            have hkey' : key u = key v := hkey
            rw [← hkey', hu] at htext
            cases htext
          · exact ih hmem
      | some text =>
          rw [List.filterMap_cons_some (by rw [hu]; rfl), List.lookup_cons]
          by_cases hkey : key b = key u
          · rw [hkey, hu, beq_self_eq_true]
          · rw [beq_eq_false_iff_ne.mpr hkey]
            exact ih ((List.mem_cons.mp hb).resolve_left fun h => hkey (h ▸ rfl))

/-- The comment of a rule that was read is looked for in front of it. -/
theorem Grammar.comment?_eq {s : Text} {r : Rule Span} (hr : r ∈ (parse s).rules) :
    (parse s).comment? r = Comments.leading? (tokenize s) r.mark.start :=
  @lookup_filterMap _ (fun r : Rule Span => r.mark.start) (Comments.leading? (tokenize s)) _ _ hr

/-- The comment of a rule that was read is trimmed, and the body of one. -/
theorem Grammar.comment?_kept {s : Text} {r : Rule Span} (hr : r ∈ (parse s).rules) {c : Text}
    (h : (parse s).comment? r = some c) : Trimmed c ∧ Lexeme.Unmarked c := by
  rw [comment?_eq hr, Comments.leading?] at h
  refine Comments.above?_kept ?_ h
  intro t ht hk
  have hmem : t ∈ tokenize s :=
    List.mem_reverse.mp ((List.dropWhile_sublist _).subset (List.mem_of_mem_tail ht))
  rw [tokenize_eq] at hmem
  rcases List.mem_append.mp hmem with hmem | hmem
  · have hlex := lexemes_lexical s _ (mem_tokensAt hmem).1
    have hk' : t.lexeme.kind = .comment := hk
    rw [Lexeme.Lexical, hk'] at hlex
    exact hlex.2
  · rw [List.mem_singleton.mp hmem] at hk
    cases hk

end EbnfKit
