import EbnfKit.Grammar.Parser
import EbnfKit.Proofs.Derivation

/-! # Placement — lexemes where they stand in a text

    The tokens of a text are its lexemes laid end to end, and then the end of the text.
    So they come in order, each takes at least a byte, and each looks as its kind says:
    they are `Scanned`, and so is whatever is left when some of them are taken out.

    The parser sees the significant ones, which are those that are no trivia. -/

namespace EbnfKit

/-! ## Sizes -/

theorem Text.size_append (x y : Text) : Text.size (x ++ y) = Text.size x + Text.size y := by
  induction x with
  | nil => exact (Nat.zero_add _).symm
  | cons c x ih =>
      show c.utf8Size + Text.size (x ++ y) = c.utf8Size + Text.size x + Text.size y
      rw [ih, Nat.add_assoc]

theorem Text.size_pos {x : Text} (h : x ≠ []) : 0 < Text.size x := by
  cases x with
  | nil => exact absurd rfl h
  | cons c x =>
      have := c.utf8Size_pos
      show 0 < c.utf8Size + Text.size x
      omega

/-! ## Tokens of lexemes -/

/-- The tokens of lexemes of which the first starts at `offset`, without the end of the
    text. -/
def tokensAt (offset : Nat) : List Lexeme → List Token
  | [] => []
  | l :: ls =>
      ⟨l.kind, ⟨offset, offset + Text.size l.text⟩, l.text⟩ ::
        tokensAt (offset + Text.size l.text) ls

/-- What lexemes spell together. -/
def spelled (ls : List Lexeme) : Text :=
  ls.flatMap (·.text)

@[simp] theorem spelled_cons (l : Lexeme) (ls : List Lexeme) :
    spelled (l :: ls) = l.text ++ spelled ls := rfl

@[simp] theorem spelled_append (ls ms : List Lexeme) :
    spelled (ls ++ ms) = spelled ls ++ spelled ms :=
  List.flatMap_append

theorem place_eq (offset : Nat) (ls : List Lexeme) :
    place offset ls = tokensAt offset ls ++ [.atEnd (offset + Text.size (spelled ls))] := by
  induction ls generalizing offset with
  | nil => rfl
  | cons l ls ih =>
      rw [place, tokensAt, ih, spelled_cons, Text.size_append, Nat.add_assoc]
      rfl

theorem tokenize_eq (s : Text) :
    tokenize s = tokensAt 0 (lexemes s) ++ [.atEnd (Text.size s)] := by
  rw [tokenize, place_eq, spelled, lexemes_texts, Nat.zero_add]

theorem tokensAt_append (offset : Nat) (ls ms : List Lexeme) :
    tokensAt offset (ls ++ ms)
      = tokensAt offset ls ++ tokensAt (offset + Text.size (spelled ls)) ms := by
  induction ls generalizing offset with
  | nil => rfl
  | cons l ls ih =>
      rw [List.cons_append, tokensAt, tokensAt, ih, spelled_cons, Text.size_append,
        Nat.add_assoc]
      rfl

@[simp] theorem map_lexeme_tokensAt (offset : Nat) (ls : List Lexeme) :
    (tokensAt offset ls).map Token.lexeme = ls := by
  induction ls generalizing offset with
  | nil => rfl
  | cons l ls ih => rw [tokensAt, List.map_cons, ih]; rfl

/-- A token of lexemes starts no earlier than they do, stops no later, and spans its
    text. -/
theorem mem_tokensAt {offset : Nat} {ls : List Lexeme} {t : Token} (h : t ∈ tokensAt offset ls) :
    t.lexeme ∈ ls ∧ offset ≤ t.span.start ∧ t.span.stop = t.span.start + Text.size t.text ∧
      t.span.stop ≤ offset + Text.size (spelled ls) := by
  induction ls generalizing offset with
  | nil => cases h
  | cons l ls ih =>
      rw [spelled_cons, Text.size_append]
      rcases List.mem_cons.mp h with heq | hmem
      · subst heq
        exact ⟨List.mem_cons_self, Nat.le_refl _, rfl, by simp only; omega⟩
      · obtain ⟨h1, h2, h3, h4⟩ := ih hmem
        exact ⟨List.mem_cons_of_mem _ h1, by omega, h3, by omega⟩

/-! ## Scanned tokens -/

/-- Tokens as a scanned text has them: in order, none empty, each as its kind says. -/
structure Scanned (ts : List Token) : Prop where
  ordered : ts.Pairwise fun a b => a.span.stop ≤ b.span.start
  forward : ∀ t ∈ ts, t.span.start < t.span.stop
  lexical : ∀ t ∈ ts, t.lexeme.Lexical

namespace Scanned

theorem sublist {ts us : List Token} (h : Scanned us) (hs : ts.Sublist us) : Scanned ts :=
  ⟨h.ordered.sublist hs, fun t ht => h.forward t (hs.subset ht),
    fun t ht => h.lexical t (hs.subset ht)⟩

theorem left {ts us : List Token} (h : Scanned (ts ++ us)) : Scanned ts :=
  h.sublist (List.sublist_append_left ts us)

theorem right {ts us : List Token} (h : Scanned (ts ++ us)) : Scanned us :=
  h.sublist (List.sublist_append_right ts us)

theorem tail {t : Token} {ts : List Token} (h : Scanned (t :: ts)) : Scanned ts :=
  h.sublist (List.sublist_cons_self t ts)

/-- What comes before stops where what comes after starts, or earlier. -/
theorem stop_le_start {ts us : List Token} (h : Scanned (ts ++ us)) {t u : Token}
    (ht : t ∈ ts) (hu : u ∈ us) : t.span.stop ≤ u.span.start :=
  (List.pairwise_append.mp h.ordered).2.2 t ht u hu

end Scanned

theorem tokensAt_scanned {offset : Nat} {ls : List Lexeme} (h : ∀ l ∈ ls, l.Lexical) :
    Scanned (tokensAt offset ls) := by
  have hlex : ∀ t ∈ tokensAt offset ls, t.lexeme.Lexical := by
    intro t ht
    exact h _ (mem_tokensAt ht).1
  refine ⟨?_, ?_, hlex⟩
  · clear hlex h
    induction ls generalizing offset with
    | nil => exact List.Pairwise.nil
    | cons l ls ih =>
        refine List.Pairwise.cons ?_ ih
        intro t ht
        exact (mem_tokensAt ht).2.1
  · intro t ht
    have := Text.size_pos (hlex t ht).ne_nil
    have hstop := (mem_tokensAt ht).2.2.1
    have htext : t.lexeme.text = t.text := rfl
    rw [htext] at this
    omega

/-! ## Significant tokens -/

theorem Token.is_eq_false_iff {t : Token} {kind : TokenKind} :
    t.is kind = false ↔ t.kind ≠ kind := by
  rw [Token.is, beq_eq_false_iff_ne]

/-- The tokens of a text that are no trivia, up to its end. -/
def significant (s : Text) : List Token :=
  (tokenize s).filter fun t => !t.kind.isTrivia && !t.is .endOfInput

/-- No token but the last one ends the input. -/
theorem tokensAt_ne_endOfInput {offset : Nat} {ls : List Lexeme} (h : ∀ l ∈ ls, l.Lexical) :
    ∀ t ∈ tokensAt offset ls, t.is .endOfInput = false :=
  fun _ ht => Token.is_eq_false_iff.mpr (h _ (mem_tokensAt ht).1).ne_endOfInput

theorem significant_eq (s : Text) :
    significant s = (tokensAt 0 (lexemes s)).filter fun t => !t.kind.isTrivia := by
  have hend := @tokensAt_ne_endOfInput 0 _ (lexemes_lexical s)
  rw [significant, tokenize_eq, List.filter_append]
  have hlast : [Token.atEnd (Text.size s)].filter
      (fun t => !t.kind.isTrivia && !t.is .endOfInput) = [] := rfl
  rw [hlast, List.append_nil]
  refine List.filter_congr ?_
  intro t ht
  rw [hend t ht]
  simp

theorem significant_scanned (s : Text) : Scanned (significant s) := by
  rw [significant_eq]
  exact (tokensAt_scanned (lexemes_lexical s)).sublist List.filter_sublist

/-- The parser reads the significant tokens, and then the end of the text. -/
theorem ofTokens_tokenize (s : Text) :
    Parser.Input.ofTokens (tokenize s) = ⟨significant s, .point (Text.size s)⟩ := by
  have hend := @tokensAt_ne_endOfInput 0 _ (lexemes_lexical s)
  have hfilter : (tokenize s).filter (fun t => !t.kind.isTrivia)
      = significant s ++ [.atEnd (Text.size s)] := by
    rw [significant_eq, tokenize_eq, List.filter_append]
    rfl
  have hsig : ∀ t ∈ significant s, t.is .endOfInput = false := by
    intro t ht
    rw [significant_eq] at ht
    exact hend t (List.mem_filter.mp ht).1
  have hlast : (Token.atEnd (Text.size s)).is .endOfInput = true := rfl
  rw [Parser.Input.ofTokens]
  simp only [hfilter, List.getLast?_append, List.getLast?_singleton, Option.some_or,
    Option.any_some, hlast, if_true]
  congr 1
  · rw [List.takeWhile_append_of_pos (by simpa using hsig), List.takeWhile_cons]
    simp [hlast]
  · have hnone : (significant s).find? (·.is .endOfInput) = none :=
      List.find?_eq_none.mpr (by simpa using hsig)
    rw [List.find?_append, hnone, Option.none_or, List.find?_cons, hlast]
    rfl

/-! ## Spans over tokens -/

namespace Span

theorem over_singleton (t : Token) : Span.over [t] = t.span := rfl

theorem over_append {ts us : List Token} (ht : ts ≠ []) (hu : us ≠ []) :
    Span.over (ts ++ us) = ⟨(Span.over ts).start, (Span.over us).stop⟩ := by
  cases ts with
  | nil => exact absurd rfl ht
  | cons t ts =>
      rw [Span.over, List.getLast?_append, List.getLast?_eq_some_getLast hu, Option.some_or,
        Span.over, Span.over, List.getLast?_eq_some_getLast hu]
      rfl

theorem over_cons {t : Token} {us : List Token} (hu : us ≠ []) :
    Span.over (t :: us) = ⟨t.span.start, (Span.over us).stop⟩ :=
  over_append (List.cons_ne_nil t []) hu

theorem over_concat {ts : List Token} {t : Token} (ht : ts ≠ []) :
    Span.over (ts ++ [t]) = ⟨(Span.over ts).start, t.span.stop⟩ :=
  over_append ht (List.cons_ne_nil t [])

/-- The span over tokens in order holds the span of each. -/
theorem over_bounds {ts : List Token} (h : Scanned ts) {t : Token} (ht : t ∈ ts) :
    (Span.over ts).start ≤ t.span.start ∧ t.span.stop ≤ (Span.over ts).stop := by
  induction ts generalizing t with
  | nil => cases ht
  | cons u us ih =>
      have hu := h.forward u List.mem_cons_self
      cases us with
      | nil => rw [List.mem_singleton.mp ht, over_singleton]; exact ⟨Nat.le_refl _, Nat.le_refl _⟩
      | cons v vs =>
          have huv : u.span.stop ≤ v.span.start :=
            (List.pairwise_cons.mp h.ordered).1 v List.mem_cons_self
          have hv := h.tail.forward v List.mem_cons_self
          obtain ⟨h1, h2⟩ := ih h.tail List.mem_cons_self
          rw [over_cons (List.cons_ne_nil v vs)]
          rcases List.mem_cons.mp ht with heq | hmem
          · subst heq
            exact ⟨Nat.le_refl _, by show _ ≤ (Span.over (v :: vs)).stop; omega⟩
          · obtain ⟨h3, h4⟩ := ih h.tail hmem
            have hstart : (Span.over (v :: vs)).start = v.span.start := rfl
            exact ⟨by show u.span.start ≤ _; omega, h4⟩

/-- Tokens in order take a span that is not empty. -/
theorem over_forward {ts : List Token} (h : Scanned ts) (hne : ts ≠ []) :
    (Span.over ts).start < (Span.over ts).stop := by
  cases ts with
  | nil => exact absurd rfl hne
  | cons t ts =>
      have ht := h.forward t List.mem_cons_self
      obtain ⟨h1, h2⟩ := over_bounds h (List.mem_cons_self (a := t))
      omega

theorem over_start {ts : List Token} (hne : ts ≠ []) :
    (Span.over ts).start = (ts.head hne).span.start := by
  rw [Span.over, List.head?_eq_some_head hne]
  rfl

theorem over_stop {ts : List Token} (hne : ts ≠ []) :
    (Span.over ts).stop = (ts.getLast hne).span.stop := by
  rw [Span.over, List.getLast?_eq_some_getLast hne]
  rfl

/-- The span over some of the tokens lies in the span over all. -/
theorem over_sublist {ts us : List Token} (h : Scanned us) (hs : ts.Sublist us) (hne : ts ≠ []) :
    (Span.over us).start ≤ (Span.over ts).start ∧ (Span.over ts).stop ≤ (Span.over us).stop := by
  rw [over_start hne, over_stop hne]
  exact ⟨(over_bounds h (hs.subset (List.head_mem hne))).1,
    (over_bounds h (hs.subset (List.getLast_mem hne))).2⟩

/-- The span over what comes before stops where the other one starts, or earlier. -/
theorem over_stop_le_start {ts us : List Token} (h : Scanned (ts ++ us)) (ht : ts ≠ [])
    (hu : us ≠ []) : (Span.over ts).stop ≤ (Span.over us).start := by
  rw [over_stop ht, over_start hu]
  exact h.stop_le_start (List.getLast_mem ht) (List.head_mem hu)

/-- The spans over two stretches of tokens join to the span over both. -/
theorem join_over {ts us : List Token} (h : Scanned (ts ++ us)) (ht : ts ≠ []) (hu : us ≠ []) :
    (Span.over ts).join (Span.over us) = ⟨(Span.over ts).start, (Span.over us).stop⟩ := by
  obtain ⟨h1, h2⟩ := over_sublist h (List.sublist_append_left ts us) ht
  obtain ⟨h3, h4⟩ := over_sublist h (List.sublist_append_right ts us) hu
  rw [over_append ht hu] at h1 h2 h3 h4
  rw [Span.join, Nat.min_eq_left h3, Nat.max_eq_right h2]

end Span

end EbnfKit
