import EbnfKit.Proofs.Editing

/-! # Restart — scanning a stretch of a text by itself

    The lexemes of a text can be cut in two anywhere but within a comment, and each half is
    what scanning finds in its own text:

      lexemes x = ls ++ ms   implies   lexemes (spelled ls) = ls,  lexemes (spelled ms) = ms

    What the front may not end in is an opened comment or an open string, and what the rest
    may not begin with is the body or the closing mark of a comment.

    So the text under a stretch of lexemes is scanned as that stretch, and its tokens are
    those of the whole text, moved to the front. -/

namespace EbnfKit

open Unicode

/-! ## Cutting a text in two -/

namespace Lexeme

/-- `l` is not what goes on with a comment. -/
def Begins (l : Lexeme) : Prop :=
  l.kind ≠ .comment ∧ l.kind ≠ .commentEnd

theorem Begins.of_significant {l : Lexeme} (h : l.kind.isTrivia = false) : l.Begins := by
  constructor
  · intro hk
    rw [hk] at h
    cases h
  · intro hk
    rw [hk] at h
    cases h

/-- The first lexeme of a bite begins something. -/
theorem Bite.begins {x rest : Text} {ls : List Lexeme} (h : Bite x ls rest) :
    ∃ l ms, ls = l :: ms ∧ l.Begins := by
  cases h with
  | blanks => exact ⟨_, [], rfl, nofun, nofun⟩
  | solid _ hk => exact ⟨_, [], rfl, .of_significant hk⟩
  | comment => exact ⟨_, _, rfl, nofun, nofun⟩
  | openComment => exact ⟨_, _, rfl, nofun, nofun⟩

/-- A bite is not cut before a lexeme that begins something. -/
theorem Bite.uncut {x rest : Text} {ls as bs : List Lexeme} (h : Bite x ls rest)
    (hls : ls = as ++ bs) (has : as ≠ []) (hbs : ∀ l ∈ bs.head?, l.Begins) : bs = [] := by
  -- behind its first lexeme a bite has only the body of a comment and its closing mark
  have htail : ∀ l ∈ ls.tail, ¬l.Begins := by
    have hopened : ∀ {body : Text}, ∀ l ∈ (opened body).tail, ¬l.Begins := by
      intro body l hl hbegins
      rw [opened, List.tail_cons] at hl
      split at hl
      · cases hl
      · rw [List.mem_singleton.mp hl] at hbegins
        exact hbegins.1 rfl
    cases h with
    | blanks => exact List.forall_mem_nil _
    | solid => exact List.forall_mem_nil _
    | openComment => exact hopened
    | @comment body _ _ =>
        intro l hl hbegins
        have hl : l ∈ (opened body).tail ++ [(⟨.commentEnd, closing⟩ : Lexeme)] := hl
        rcases List.mem_append.mp hl with hl | hl
        · exact hopened l hl hbegins
        · rw [List.mem_singleton.mp hl] at hbegins
          exact hbegins.2 rfl
  cases bs with
  | nil => rfl
  | cons b bs =>
      refine absurd (hbs b rfl) (htail b ?_)
      rw [hls, List.tail_append_of_ne_nil has]
      exact List.mem_append_right _ List.mem_cons_self

end Lexeme

/-- No text begins within a comment. -/
theorem lexemes_begins (x : Text) : ∀ l ∈ (lexemes x).head?, l.Begins := by
  cases x with
  | nil =>
      rw [lexemes_nil]
      exact fun _ hl => nomatch hl
  | cons c cs =>
      obtain ⟨l, ls, hls, hbegins⟩ := (Lexeme.munch_bite c cs).begins
      rw [lexemes_cons, hls]
      intro m hm
      rwa [← Option.some.inj hm]

/-- **The rest of a text is scanned by itself**, from wherever something begins. -/
theorem lexemes_rest {x : Text} {ls ms : List Lexeme} (h : lexemes x = ls ++ ms)
    (hms : ∀ m ∈ ms.head?, m.Begins) : lexemes (spelled ms) = ms := by
  induction x using lexemes.induct generalizing ls with
  | case1 =>
      rw [lexemes_nil] at h
      obtain ⟨-, rfl⟩ := List.append_eq_nil_iff.mp h.symm
      exact lexemes_nil
  | case2 c cs ih =>
      by_cases hls : ls = []
      · rw [hls, List.nil_append] at h
        rw [← h, spelled, lexemes_texts]
      · rw [lexemes_cons] at h
        rcases List.append_eq_append_iff.mp h with ⟨as, hls', hrest⟩ | ⟨bs, hbite, hrest⟩
        · exact ih hrest
        · -- the cut is within the bite, so that nothing of it is left
          have hhead : ∀ l ∈ bs.head?, l.Begins := by
            intro l hl
            refine hms l ?_
            rw [hrest, List.head?_append, hl]
            rfl
          rw [(Lexeme.munch_bite c cs).uncut hbite hls hhead, List.nil_append] at hrest
          exact @ih [] hrest.symm

namespace Lexeme.Bite

/-- In front of what it is cut before, a bite is an opened comment. -/
theorem not_ends_front {x rest : Text} {ls as bs : List Lexeme} (h : Bite x ls rest)
    (hls : ls = as ++ bs) (hbs : bs ≠ []) : ∀ l ∈ as, ¬l.Ends [] := by
  have hfront : as <+: ls.dropLast := by
    rw [hls, List.dropLast_append_of_ne_nil hbs]
    exact List.prefix_append as _
  have hopened : ∀ {body : Text}, ∀ l ∈ opened body, ¬l.Ends [] := by
    intro body l hl hends
    unfold Ends at hends
    rcases kind_of_mem_opened hl with hk | hk
    · rw [hk] at hends
      exact hends
    · rw [hk] at hends
      exact hends
  intro l hl
  have hl := hfront.subset hl
  cases h with
  | blanks => cases hl
  | solid => cases hl
  | comment =>
      rw [List.dropLast_concat] at hl
      exact hopened l hl
  | openComment => exact hopened l ((List.dropLast_sublist _).subset hl)

/-- A bite comes off the front of what it spells with any of the text behind it, unless it
    leaves something open there. -/
theorem lexemes_append {x y z : Text} {ls : List Lexeme} (h : Bite x ls (y ++ z))
    (hopen : y = [] → ∀ l ∈ ls.getLast?, l.Ends []) :
    lexemes (spelled ls ++ y) = ls ++ lexemes y := by
  have hhead : y ≠ [] → y.head? = (y ++ z).head? :=
    fun hne => (List.head?_append_of_ne_nil y hne).symm
  generalize hrest : y ++ z = rest at h hhead
  cases h with
  | blanks hb hall hnext =>
      rw [spelled, List.flatMap_singleton, lexemes_white hb hall ?_]
      · rfl
      · intro c hc
        cases y with
        | nil => cases hc
        | cons d y => exact hnext c (hhead (List.cons_ne_nil d y) ▸ hc)
  | @solid l _ hl hk hends =>
      rw [spelled, List.flatMap_singleton]
      refine lexemes_lexeme hl hk ?_
      by_cases hy : y = []
      · rw [hy]
        exact hopen hy l rfl
      · -- what follows there is what follows in the text
        rcases hends with ⟨-, hnil⟩ | hends
        · exact absurd (List.append_eq_nil_iff.mp (hrest.trans hnil)).1 hy
        · exact hends.congr (hhead hy).symm
  | @comment body _ hbody =>
      rw [spelled_comment]
      exact lexemes_comment hbody y
  | @openComment body =>
      obtain ⟨l, hl, hnot⟩ := not_ends_opened body
      exact absurd (hopen (List.append_eq_nil_iff.mp hrest).1 l hl) hnot

end Lexeme.Bite

/-- **The front of a text is scanned by itself**, up to wherever something ends. -/
theorem lexemes_front {x : Text} {ls ms : List Lexeme} (h : lexemes x = ls ++ ms)
    (hls : ∀ l ∈ ls.getLast?, l.Ends []) : lexemes (spelled ls) = ls := by
  induction x using lexemes.induct generalizing ls with
  | case1 =>
      rw [lexemes_nil] at h
      obtain ⟨rfl, -⟩ := List.append_eq_nil_iff.mp h.symm
      exact lexemes_nil
  | case2 c cs ih =>
      rw [lexemes_cons] at h
      have hbite := Lexeme.munch_bite c cs
      rcases List.append_eq_append_iff.mp h with ⟨as, rfl, hrest⟩ | ⟨bs, hbs, hrest⟩
      · -- the bite comes off the front, and what is left is cut further on
        have has : lexemes (spelled as) = as := by
          refine ih hrest fun l hl => hls l ?_
          rw [List.getLast?_append, hl]
          rfl
        have htext : (Lexeme.munch c cs).2 = spelled as ++ spelled ms := by
          rw [← spelled_append, ← hrest, spelled, lexemes_texts]
        rw [htext] at hbite
        rw [spelled_append, hbite.lexemes_append, has]
        intro hnil l hl
        rw [hnil, lexemes_nil] at has
        rw [← has, List.append_nil] at hls
        exact hls l hl
      · -- the bite is cut, so that a comment would be open
        by_cases hnil : bs = []
        · rw [hnil, List.append_nil] at hbs
          rw [hbs] at hbite
          have hone := @Lexeme.Bite.lexemes_append _ [] _ _ hbite fun _ => hls
          rw [List.append_nil, lexemes_nil, List.append_nil] at hone
          exact hone
        · cases hlast : ls.getLast? with
          | none =>
              rw [List.getLast?_eq_none_iff.mp hlast]
              exact lexemes_nil
          | some l =>
              exact absurd (hls l hlast)
                (hbite.not_ends_front hbs hnil l (List.mem_of_getLast? hlast))

/-- A stretch of the lexemes of a text is scanned by itself. -/
theorem lexemes_stretch {x : Text} {ls ms ns : List Lexeme} (h : lexemes x = ls ++ (ms ++ ns))
    (hbegins : ∀ m ∈ ms.head?, m.Begins) (hends : ∀ m ∈ ms.getLast?, m.Ends []) :
    lexemes (spelled ms) = ms := by
  by_cases hms : ms = []
  · rw [hms]
    exact lexemes_nil
  · refine lexemes_rest (lexemes_front (h.trans (List.append_assoc ls ms ns).symm) ?_) hbegins
    rw [List.getLast?_append_of_ne_nil ls hms]
    exact hends

/-! ## Tokens of a stretch -/

/-- Lexemes that start further behind have their tokens there. -/
theorem tokensAt_shift (n offset : Nat) (ls : List Lexeme) :
    tokensAt (offset + n) ls = (tokensAt offset ls).map (Token.shift n) := by
  induction ls generalizing offset with
  | nil => rfl
  | cons l ls ih =>
      rw [tokensAt, tokensAt, List.map_cons, Nat.add_right_comm, ih]
      show (⟨_, ⟨_, _⟩, _⟩ : Token) :: _ = ⟨_, ⟨_, _⟩, _⟩ :: _
      rw [Nat.add_right_comm]

/-- Tokens in front of others are those of the lexemes in front. -/
theorem tokensAt_eq_append {offset : Nat} {ls : List Lexeme} {ts us : List Token}
    (h : tokensAt offset ls = ts ++ us) :
    ls = ts.map Token.lexeme ++ us.map Token.lexeme ∧ ts = tokensAt offset (ts.map Token.lexeme) ∧
      us = tokensAt (offset + Text.size (spelled (ts.map Token.lexeme))) (us.map Token.lexeme) := by
  have hls := congrArg (List.map Token.lexeme) h
  rw [map_lexeme_tokensAt, List.map_append] at hls
  have hlen : (tokensAt offset (ts.map Token.lexeme)).length = ts.length := by
    rw [← List.length_map Token.lexeme, map_lexeme_tokensAt, List.length_map]
  rw [hls, tokensAt_append] at h
  obtain ⟨hts, hus⟩ := List.append_inj h hlen
  exact ⟨hls, hts.symm, hus.symm⟩

theorem withoutTrivia_shift (n : Nat) (ts : List Token) :
    withoutTrivia (ts.map (Token.shift n)) = (withoutTrivia ts).map (Token.shift n) :=
  List.filter_map

/-- What is left of a list comes from a stretch that begins and ends as it does. -/
theorem exists_stretch_of_filter {α : Type} {p : α → Bool} {xs as : List α}
    (h : xs.filter p = as) (hne : as ≠ []) :
    ∃ front ys back, xs = front ++ (ys ++ back) ∧ ys.filter p = as ∧ front.filter p = [] ∧
      ys.head? = as.head? ∧ ys.getLast? = as.getLast? := by
  -- what is dropped behind the last one left, and then what is dropped before the first
  obtain ⟨bs, b, rfl⟩ : ∃ bs b, as = bs ++ [b] :=
    ⟨as.dropLast, as.getLast hne, (List.dropLast_concat_getLast hne).symm⟩
  obtain ⟨zs, rest, rfl, hzs, hrest⟩ := List.filter_eq_append_iff.mp h
  obtain ⟨between, back, rfl, hbetween, hb, -⟩ := List.filter_eq_cons_iff.mp hrest
  have hkept : (zs ++ (between ++ [b])).filter p = bs ++ [b] := by
    rw [List.filter_append, List.filter_append, hzs, List.filter_eq_nil_iff.mpr hbetween,
      List.filter_cons_of_pos hb]
    rfl
  obtain ⟨a, as, has⟩ := List.exists_cons_of_ne_nil hne
  rw [has] at hkept
  obtain ⟨front, ys, hys, hfront, ha, has'⟩ := List.filter_eq_cons_iff.mp hkept
  refine ⟨front, a :: ys, back, ?_, ?_, List.filter_eq_nil_iff.mpr hfront, ?_, ?_⟩
  · have hback := congrArg (· ++ back) hys
    simpa only [List.append_assoc, List.cons_append, List.nil_append] using hback
  · rw [List.filter_cons_of_pos ha, has', has]
  · rw [has]
    rfl
  · have hlast := congrArg List.getLast? hys
    rw [← List.append_assoc, List.getLast?_concat,
      List.getLast?_append_of_ne_nil front (List.cons_ne_nil a ys)] at hlast
    rw [← hlast, List.getLast?_concat]

/-! ## Excerpts -/

/-- `x` stands in `s` behind `n` bytes, from where a significant lexeme begins to where one
    ends, and `used` are its significant tokens there. -/
structure Excerpt (s : Text) (used : List Token) (n : Nat) (x : Text) : Prop where
  ne_nil : x ≠ []
  stands : ∃ front back, s = front ++ (x ++ back) ∧ n = Text.size front
  tokens : used = (significant x).map (Token.shift n)
  span : Span.over used = ⟨n, n + Text.size x⟩
  head : ∀ l ∈ (lexemes x).head?, l.Lexical ∧ l.kind.isTrivia = false
  last : ∀ l ∈ (lexemes x).getLast?, l.kind.isTrivia = false ∧ l.Ends []

/-- The span over tokens laid end to end is where they stand. -/
theorem Span.over_tokensAt (offset : Nat) {ls : List Lexeme} (hne : ls ≠ []) :
    Span.over (tokensAt offset ls) = ⟨offset, offset + Text.size (spelled ls)⟩ := by
  induction ls generalizing offset with
  | nil => exact absurd rfl hne
  | cons l ls ih =>
      rw [tokensAt]
      by_cases hls : ls = []
      · subst hls
        simp [tokensAt, Span.over_singleton, spelled]
      · have hts : tokensAt (offset + Text.size l.text) ls ≠ [] := by
          intro hnil
          have hlen := congrArg List.length (map_lexeme_tokensAt (offset + Text.size l.text) ls)
          rw [hnil] at hlen
          exact hls (List.length_eq_zero_iff.mp hlen.symm)
        rw [Span.over_cons hts, ih _ hls, spelled_cons, Text.size_append, Nat.add_assoc]

/-- Tokens that begin and end alike have the same span over them. -/
theorem Span.over_congr {ts us : List Token} (hhead : ts.head? = us.head?)
    (hlast : ts.getLast? = us.getLast?) : Span.over ts = Span.over us := by
  rw [Span.over, Span.over, hhead, hlast]

/-- A stretch of the significant tokens comes from a stretch of the lexemes that begins and
    ends as it does. -/
theorem exists_lexemes_of_stretch {s : Text} {used : List Token} (h : used <:+: significant s)
    (hne : used ≠ []) :
    ∃ ls ms ns, lexemes s = ls ++ (ms ++ ns) ∧
      used = withoutTrivia (tokensAt (Text.size (spelled ls)) ms) ∧
      Span.over used = Span.over (tokensAt (Text.size (spelled ls)) ms) ∧
      ms.head? = used.head?.map Token.lexeme ∧ ms.getLast? = used.getLast?.map Token.lexeme := by
  obtain ⟨before, after, h⟩ := h
  rw [List.append_assoc, significant_eq] at h
  obtain ⟨front, rest, hall, -, hrest⟩ := List.filter_eq_append_iff.mp h.symm
  obtain ⟨middle, back, rfl, hmiddle, -⟩ := List.filter_eq_append_iff.mp hrest
  obtain ⟨gap, ts, gap', rfl, hts, -, hhead, hlast⟩ := exists_stretch_of_filter hmiddle hne
  have hsplit : tokensAt 0 (lexemes s) = (front ++ gap) ++ (ts ++ (gap' ++ back)) := by
    rw [hall]
    simp only [List.append_assoc]
  obtain ⟨hlexemes, -, hrest⟩ := tokensAt_eq_append hsplit
  obtain ⟨-, hplaced, -⟩ := tokensAt_eq_append hrest.symm
  refine ⟨(front ++ gap).map Token.lexeme, ts.map Token.lexeme, (gap' ++ back).map Token.lexeme,
    ?_, ?_, ?_, ?_, ?_⟩
  · rw [hlexemes, @List.map_append _ _ Token.lexeme ts]
  · rw [← Nat.zero_add (Text.size _), ← hplaced]
    exact hts.symm
  · rw [← Nat.zero_add (Text.size _), ← hplaced]
    exact Span.over_congr hhead.symm hlast.symm
  · rw [List.head?_map, hhead]
  · rw [List.getLast?_map, hlast]

/-- A significant token looks as its kind says, and is no trivia. -/
theorem lexical_of_significant {s : Text} {t : Token} (h : t ∈ significant s) :
    t.lexeme.Lexical ∧ t.lexeme.kind.isTrivia = false := by
  refine ⟨(significant_scanned s).lexical t h, ?_⟩
  rw [significant_eq] at h
  have hkind := (List.mem_filter.mp h).2
  rwa [Bool.not_eq_true'] at hkind

/-- **A stretch of the significant tokens of a text has an excerpt.** -/
theorem exists_excerpt {s : Text} {used : List Token} (h : used <:+: significant s)
    (hne : used ≠ []) (hends : ∀ t ∈ used.getLast?, t.lexeme.Ends []) : ∃ n x, Excerpt s used n x := by
  obtain ⟨ls, ms, ns, hlexemes, hused, hspan, hhead, hlast⟩ := exists_lexemes_of_stretch h hne
  have hbegins : ∀ l ∈ ms.head?, l.Lexical ∧ l.kind.isTrivia = false := by
    intro l hl
    rw [hhead] at hl
    obtain ⟨t, ht, rfl⟩ := Option.map_eq_some_iff.mp hl
    exact lexical_of_significant (h.subset (List.mem_of_head? ht))
  have hstops : ∀ l ∈ ms.getLast?, l.kind.isTrivia = false ∧ l.Ends [] := by
    intro l hl
    rw [hlast] at hl
    obtain ⟨t, ht, rfl⟩ := Option.map_eq_some_iff.mp hl
    exact ⟨(lexical_of_significant (h.subset (List.mem_of_getLast? ht))).2, hends t ht⟩
  have hscan : lexemes (spelled ms) = ms :=
    lexemes_stretch hlexemes (fun l hl => .of_significant (hbegins l hl).2)
      fun l hl => (hstops l hl).2
  have htext : s = spelled ls ++ (spelled ms ++ spelled ns) := by
    rw [← spelled_append, ← spelled_append, ← hlexemes, spelled, lexemes_texts]
  have hne' : ms ≠ [] := by
    intro hnil
    rw [hnil] at hused
    exact hne hused
  refine ⟨Text.size (spelled ls), spelled ms, ?_, ⟨_, _, htext, rfl⟩, ?_, ?_, ?_, ?_⟩
  · intro hnil
    rw [hnil, lexemes_nil] at hscan
    exact hne' hscan.symm
  · rw [significant_eq, hscan, ← withoutTrivia_shift, ← tokensAt_shift, Nat.zero_add, hused]
  · rw [hspan, Span.over_tokensAt _ hne']
  · rw [hscan]
    exact hbegins
  · rw [hscan]
    exact hstops

namespace Excerpt

variable {s x : Text} {used : List Token} {n : Nat}

/-- It is the text under the span of its tokens. -/
theorem slice (h : Excerpt s used n x) : s.slice? (Span.over used) = some x := by
  obtain ⟨front, back, rfl, rfl⟩ := h.stands
  rw [h.span]
  exact Text.slice?_append front x back

/-- It leaves nothing open. -/
theorem finished (h : Excerpt s used n x) : Finished x :=
  fun l hl => (h.last l hl).2

end Excerpt

end EbnfKit
