import EbnfKit.Proofs.Reading

/-! # Parsing — expressions and rules against their derivations

    The readers of the parser are sound and complete for the grammar, cut down to what
    fits: brackets nested at most `depth` deep, and counts below 2 to the 32.

      reader        continued by
      primary       nothing
      factor        `-`
      term          `-`  `,`
      expression    `-`  `,`  `|`
      rule          nothing, for it ends in its semicolon

    So a rule is read whatever follows it, which is why recovery can go on behind it. -/

namespace EbnfKit

open Reader

/-- Every number among the tokens fits in 32 bits. -/
def CountsFit (ts : List Token) : Prop :=
  ∀ t ∈ ts, t.kind = .number → Text.decimal t.text < UInt32.size

theorem countsFit_append {ts us : List Token} :
    CountsFit (ts ++ us) ↔ CountsFit ts ∧ CountsFit us :=
  List.forall_mem_append

/-- A number is the only kind that counts have to fit for. -/
theorem countsFit_cons {t : Token} {ts : List Token} (h : t.kind ≠ .number) :
    CountsFit (t :: ts) ↔ CountsFit ts := by
  constructor
  · intro hfit u hu
    exact hfit u (List.mem_cons_of_mem t hu)
  · intro hfit u hu hk
    rcases List.mem_cons.mp hu with heq | hmem
    · rw [heq] at hk
      exact absurd hk h
    · exact hfit u hmem hk

theorem countsFit_nil : CountsFit [] :=
  fun _ h => nomatch h

theorem countsFit_enclosed {o c : Token} {ts : List Token} (ho : o.kind ≠ .number)
    (hc : c.kind ≠ .number) : CountsFit (o :: ts ++ [c]) ↔ CountsFit ts := by
  rw [List.cons_append, countsFit_cons ho, countsFit_append, countsFit_cons hc]
  exact and_iff_left countsFit_nil

theorem Reader.openNotes_enclosed {o c : Token} {ts : List Token} (ho : o.kind ≠ .stringLiteral)
    (hc : c.kind ≠ .stringLiteral) : openNotes (o :: ts ++ [c]) = openNotes ts := by
  rw [List.cons_append, openNotes_cons ho, openNotes_append, openNotes_cons hc]
  exact List.append_nil _

/-- A derivation that the parser follows: brackets nest at most `depth` deep and counts
    fit. -/
structure Fits {β : Type} (derives : List Token → β → Prop) (nesting : β → Nat) (depth : Nat)
    (ts : List Token) (x : β) : Prop where
  derives : derives ts x
  nesting : nesting x ≤ depth
  counts : CountsFit ts

namespace Parser

/-- The reader for what is in a bracket, where brackets may be nested `depth` deep. -/
def innerAt : Nat → Option (Reader (Expression Span))
  | 0 => none
  | depth + 1 => some (expression depth)

theorem expression_eq (depth : Nat) : expression depth = choice (innerAt depth) := by
  cases depth <;> rfl

/-- What a primary that fits looks like. -/
abbrev PrimaryFits := Fits (Primary.Derives .placed) Primary.nesting
/-- What a factor that fits looks like. -/
abbrev FactorFits := Fits (Factor.Derives .placed) Factor.nesting
/-- What a term that fits looks like. -/
abbrev TermFits := Fits (Term.Derives .placed) Term.nesting
/-- What an expression that fits looks like. -/
abbrev ExpressionFits := Fits (Expression.Derives .placed) Expression.nesting

/-! ## Marks -/

/-- Whatever a node derives is not empty, and the node is marked with its span. -/
theorem derives_mark :
    Hereditary (fun e => ∀ ts, Expression.Derives .placed ts e → ts ≠ [] ∧ e.mark = Span.over ts)
      (fun t => ∀ ts, Term.Derives .placed ts t → ts ≠ [] ∧ t.mark = Span.over ts)
      (fun f => ∀ ts, Factor.Derives .placed ts f → ts ≠ [] ∧ f.mark = Span.over ts)
      (fun p => ∀ ts, Primary.Derives .placed ts p → ts ≠ [] ∧ p.mark = Span.over ts) where
  expression := by
    intro m t us _ ts h
    refine ⟨derives_ne_nil.expressions _ ts h, ?_⟩
    cases h with
    | mk _ hm => exact hm
  term := by
    intro m f gs _ ts h
    refine ⟨derives_ne_nil.terms _ ts h, ?_⟩
    cases h with
    | mk _ hm => exact hm
  factor := by
    intro m n p x _ _ ts h
    refine ⟨derives_ne_nil.factors _ ts h, ?_⟩
    cases h with
    | mk _ _ _ hm => exact hm
  reference := by
    intro m n ts h
    cases h with
    | reference _ hm => exact ⟨List.cons_ne_nil _ _, hm⟩
  literal := by
    intro m s q ts h
    cases h with
    | literal _ _ hm => exact ⟨List.cons_ne_nil _ _, hm⟩
  bracketed := by
    intro m b e _ ts h
    cases h with
    | bracketed _ _ hm => exact ⟨List.cons_ne_nil _ _, hm⟩

section Joined

variable {β : Type} {separates : Token → Prop} {item : List Token → β → Prop} {mark : β → Span}

/-- Where the first item of several starts, and where the last one stops. -/
theorem separated_ends (hitem : ∀ ts x, item ts x → ts ≠ [] ∧ mark x = Span.over ts)
    {ts : List Token} {xs : List β} (h : Separated separates item ts xs) :
    ∀ x ys, xs = x :: ys → ts ≠ [] ∧ (mark x).start = (Span.over ts).start ∧
      (mark (ys.getLast?.getD x)).stop = (Span.over ts).stop := by
  induction h with
  | @one ts x hx =>
      intro y ys heq
      obtain ⟨rfl, rfl⟩ := List.cons.inj heq
      obtain ⟨hne, hm⟩ := hitem _ _ hx
      rw [List.getLast?_nil, Option.getD_none, hm]
      exact ⟨hne, rfl, rfl⟩
  | @cons ts x s us xs hx hs hxs ih =>
      intro y ys heq
      obtain ⟨rfl, rfl⟩ := List.cons.inj heq
      obtain ⟨hne, hm⟩ := hitem _ _ hx
      rw [Span.over_append hne (List.cons_ne_nil s us), hm]
      refine ⟨by simp, rfl, ?_⟩
      cases xs with
      | nil => cases hxs
      | cons z zs =>
          obtain ⟨hne', -, hstop⟩ := ih z zs rfl
          rw [Span.over_cons hne', List.getLast?_cons]
          exact hstop

/-- The mark of each of several items lies in the span of them all. -/
theorem separated_bounds (hitem : ∀ ts x, item ts x → ts ≠ [] ∧ mark x = Span.over ts)
    {ts : List Token} {xs : List β} (hts : Scanned ts) (h : Separated separates item ts xs)
    {x : β} (hx : x ∈ xs) :
    (Span.over ts).start ≤ (mark x).start ∧ (mark x).stop ≤ (Span.over ts).stop := by
  obtain ⟨us, hus, hx⟩ := h.sublist hx
  obtain ⟨hne, hm⟩ := hitem _ _ hx
  rw [hm]
  exact Span.over_sublist hts hus hne

/-- Each of several items stops before the next one starts. -/
theorem separated_apart (hitem : ∀ ts x, item ts x → ts ≠ [] ∧ mark x = Span.over ts)
    {ts : List Token} {xs : List β} (hts : Scanned ts) (h : Separated separates item ts xs) :
    xs.Pairwise fun x y => (mark x).stop ≤ (mark y).start := by
  induction h with
  | one _ => exact List.pairwise_singleton _ _
  | @cons us x s vs xs hx _ hrest ih =>
      refine List.Pairwise.cons (fun y hy => ?_) (ih hts.right.tail)
      obtain ⟨ws, hws, hy⟩ := hrest.sublist hy
      obtain ⟨hne, hm⟩ := hitem _ _ hx
      obtain ⟨hne', hm'⟩ := hitem _ _ hy
      rw [hm, hm']
      exact Span.over_stop_le_start (hts.sublist ((hws.cons s).append_left us)) hne hne'

/-- The marks of the first item and the last join to the span of them all. -/
theorem separated_join (hitem : ∀ ts x, item ts x → ts ≠ [] ∧ mark x = Span.over ts)
    {ts : List Token} {x : β} {ys : List β} (hts : Scanned ts)
    (h : Separated separates item ts (x :: ys)) :
    (mark x).join (mark (ys.getLast?.getD x)) = Span.over ts := by
  obtain ⟨-, hstart, hstop⟩ := separated_ends hitem h x ys rfl
  have hfirst := separated_bounds hitem hts h List.mem_cons_self
  have hlast : (Span.over ts).start ≤ (mark (ys.getLast?.getD x)).start := by
    refine (separated_bounds hitem hts h ?_).1
    cases hl : ys.getLast? with
    | none => exact List.mem_cons_self
    | some y => exact List.mem_cons_of_mem _ (List.mem_of_getLast? hl)
  rw [Span.join, Nat.min_eq_left (by omega), Nat.max_eq_right (by omega), hstart, hstop]

end Joined

/-! ## Counts and literals -/

theorem count_sound : Sound count fun ts n => Counted .placed ts n ∧ CountsFit ts := by
  intro stop ts notes n rest hts h
  obtain ⟨n₁, x, mid, n₂, hx, hmore, rfl⟩ := reads_bind.mp h
  obtain ⟨rfl, hnext⟩ := reads_accept.mp hx
  -- a number, which has to fit and to have its sign behind it, or no count at all
  rcases hnext with ⟨t, rfl, ht, rfl⟩ | ⟨rfl, rfl, -⟩
  · have hlex := hts.lexical t List.mem_cons_self
    have hcount := count?_eq hlex ht
    have htext : t.lexeme.text = t.text := rfl
    rw [htext] at hcount
    simp only [hcount] at hmore
    by_cases hfit : Text.decimal t.text < UInt32.size
    · rw [if_pos hfit] at hmore
      obtain ⟨m₁, s, mid', m₂, hs, hpure, rfl⟩ := reads_bind.mp hmore
      obtain ⟨rfl, hkind, rfl⟩ := reads_expect.mp hs
      obtain ⟨rfl, rfl, rfl⟩ := reads_pure.mp hpure
      refine ⟨[t, s], rfl, ?_, .some ht hkind, ?_⟩
      · rw [openNotes_cons (by rw [ht]; decide), openNotes_cons (by rw [hkind]; decide)]
        rfl
      · intro u hu hk
        rcases List.mem_cons.mp hu with rfl | hu
        · exact hfit
        · rw [List.mem_singleton.mp hu, hkind] at hk
          cases hk
    · rw [if_neg hfit] at hmore
      exact absurd hmore not_reads_fail
  · obtain ⟨rfl, rfl, rfl⟩ := reads_pure.mp hmore
    exact ⟨[], rfl, rfl, .none, fun t ht => nomatch ht⟩

theorem count_complete : Complete count (fun ts n => Counted .placed ts n ∧ CountsFit ts)
    (fun kind => kind = .number) := by
  rintro stop ts n rest hts ⟨h, hfit⟩ hrest
  cases h with
  | none =>
      exact .absent hrest (reads_pure.mpr ⟨rfl, rfl, rfl⟩)
  | @some t s ht hs =>
      have hlex := hts.lexical t List.mem_cons_self
      have hcount := count?_eq hlex ht
      have htext : t.lexeme.text = t.text := rfl
      rw [htext, if_pos (hfit t List.mem_cons_self ht)] at hcount
      have ht' : t.kind = .number := ht
      have hs' : s.kind = .repetitionSymbol := hs
      rw [openNotes_cons (by rw [ht']; decide), openNotes_cons (by rw [hs']; decide)]
      refine .next ht ?_
      simp only [hcount]
      exact .expected hs (reads_pure.mpr ⟨rfl, rfl, rfl⟩)

theorem reads_literal {stop : Span} {t : Token} {ts rest : List Token} {notes : List Diagnostic}
    {p : Primary Span} :
    Reads (literal t) stop ts notes p rest ↔ ts = rest ∧
      p = .literal t.span (Quoted.ofText t.text).text (Quoted.ofText t.text).quote ∧
      notes = if (Quoted.ofText t.text).closed = false then
        [unterminatedLiteral t.span (Quoted.ofText t.text).quote] else [] := by
  rw [literal]
  cases (Quoted.ofText t.text).closed with
  | false =>
      simp only [Bool.not_false, if_true]
      rw [reads_bind]
      constructor
      · rintro ⟨n, u, mid, m, hnote, hpure, rfl⟩
        obtain ⟨rfl, rfl⟩ := reads_note.mp hnote
        obtain ⟨rfl, rfl, rfl⟩ := reads_pure.mp hpure
        exact ⟨rfl, rfl, rfl⟩
      · rintro ⟨rfl, rfl, rfl⟩
        exact ⟨_, (), ts, [], reads_note.mpr ⟨rfl, rfl⟩, reads_pure.mpr ⟨rfl, rfl, rfl⟩, rfl⟩
  | true =>
      simp only [Bool.not_true, Bool.true_eq_false, if_false, Bool.false_eq_true]
      constructor
      · intro h
        obtain ⟨rfl, rfl, rfl⟩ := reads_pure.mp h
        exact ⟨rfl, rfl, rfl⟩
      · rintro ⟨rfl, rfl, rfl⟩
        exact reads_pure.mpr ⟨rfl, rfl, rfl⟩

/-! ## Primaries -/

/-- Opening brackets and closing ones belong together. -/
theorem encloses_iff {bracket : Bracket} {o c : TokenKind} :
    bracket.Encloses o c ↔ Bracket.ofOpening? o = some bracket ∧ c = bracket.closingKind := by
  constructor
  · intro h
    cases h <;> exact ⟨rfl, rfl⟩
  · rintro ⟨ho, rfl⟩
    cases o <;> cases ho <;> constructor

/-- Brackets are neither strings nor counts. -/
theorem encloses_kinds {bracket : Bracket} {o c : TokenKind} (h : bracket.Encloses o c) :
    (o ≠ .stringLiteral ∧ c ≠ .stringLiteral) ∧ o ≠ .number ∧ c ≠ .number := by
  cases h <;> decide

theorem reads_bracketed {depth : Nat} {bracket : Bracket} {opening stop : Span}
    {ts rest : List Token} {notes : List Diagnostic} {p : Primary Span} :
    Reads (bracketed (innerAt depth) bracket opening) stop ts notes p rest ↔
      ∃ k e c, depth = k + 1 ∧ Reads (expression k) stop ts notes e (c :: rest) ∧
        c.kind = bracket.closingKind ∧ p = .bracketed (opening.join c.span) bracket e := by
  cases depth with
  | zero =>
      constructor
      · intro h
        exact absurd h not_reads_fail
      · rintro ⟨k, e, c, h, -⟩
        cases h
  | succ depth =>
      rw [innerAt, bracketed]
      constructor
      · intro h
        obtain ⟨n₁, e, mid, n₂, he, hmore, rfl⟩ := reads_bind.mp h
        obtain ⟨m₁, c, mid', m₂, hc, hpure, rfl⟩ := reads_bind.mp hmore
        obtain ⟨rfl, hkind, rfl⟩ := reads_expect.mp hc
        obtain ⟨rfl, rfl, rfl⟩ := reads_pure.mp hpure
        exact ⟨depth, e, c, rfl, by simpa using he, hkind, rfl⟩
      · rintro ⟨k, e, c, hk, he, hkind, rfl⟩
        cases hk
        refine reads_bind.mpr ⟨notes, e, c :: rest, [], he, ?_, by simp⟩
        exact .expected hkind (reads_pure.mpr ⟨rfl, rfl, rfl⟩)

/-- Brackets join to the span over all that they enclose and themselves. -/
theorem join_brackets {o c : Token} {ts : List Token} (h : Scanned (o :: ts ++ [c])) :
    o.span.join c.span = Span.over (o :: ts ++ [c]) := by
  have hsub : [o, c].Sublist (o :: ts ++ [c]) :=
    List.Sublist.cons_cons o (List.sublist_append_right ts [c])
  have := @Span.join_over [o] [c] (h.sublist hsub) (by simp) (by simp)
  rw [Span.over_concat (List.cons_ne_nil o ts)]
  exact this

/-- A primary begins with a name, a string or an opening bracket. -/
theorem reads_primary {inner : Option (Reader (Expression Span))} {stop : Span} {t : Token}
    {ts rest : List Token} {notes : List Diagnostic} {p : Primary Span} :
    Reads (primary inner) stop (t :: ts) notes p rest ↔
      (t.kind = .identifier ∧ Reads (Pure.pure (.reference t.span t.text)) stop ts notes p rest) ∨
      (t.kind = .stringLiteral ∧ Reads (literal t) stop ts notes p rest) ∨
      ∃ b, Bracket.ofOpening? t.kind = some b ∧
        Reads (bracketed inner b t.span) stop ts notes p rest := by
  unfold Reads
  rw [primary]
  split
  · rename_i hk
    simp only [hk, Bracket.ofOpening?, reduceCtorEq, false_and, exists_false, or_false, true_and]
    rfl
  · rename_i hk
    simp only [hk, Bracket.ofOpening?, reduceCtorEq, false_and, exists_false, or_false, true_and,
      false_or]
  · rename_i _ _ b hopen hni hns
    rw [eq_false hni, eq_false hns]
    simp only [hopen, Option.some.injEq, exists_eq_left', false_or, false_and]
  · rename_i hopen hni hns
    rw [eq_false hni, eq_false hns]
    simp only [hopen, reduceCtorEq, false_and, exists_false, or_false, iff_false]
    exact not_reads_unexpected

theorem primary_sound {depth : Nat}
    (hinner : ∀ k, depth = k + 1 → Sound (expression k) (ExpressionFits k)) :
    Sound (primary (innerAt depth)) (PrimaryFits depth) := by
  intro stop ts notes p rest hts h
  cases ts with
  | nil => exact absurd h not_reads_unexpected
  | cons t ts =>
      have hlex := hts.lexical t List.mem_cons_self
      -- a name, a string, or a bracket around an expression one level down
      rcases reads_primary.mp h with ⟨hk, hread⟩ | ⟨hk, hread⟩ | ⟨bracket, hopen, hread⟩
      · obtain ⟨rfl, rfl, rfl⟩ := reads_pure.mp hread
        exact ⟨[t], rfl, by rw [openNotes_cons (by rw [hk]; decide)]; rfl, .reference hk rfl,
          Nat.zero_le _, (countsFit_cons (by rw [hk]; decide)).mpr countsFit_nil⟩
      · obtain ⟨rfl, rfl, rfl⟩ := reads_literal.mp hread
        obtain ⟨hquotes, hclosed⟩ := quotes_ofText hlex hk
        have htext : t.lexeme.text = t.text := rfl
        rw [htext] at hquotes hclosed
        refine ⟨[t], rfl, ?_, .literal hk hquotes rfl, Nat.zero_le _,
          (countsFit_cons (by rw [hk]; decide)).mpr countsFit_nil⟩
        rw [hclosed]
        simp [openNotes, hk]
      · obtain ⟨k, e, c, rfl, he, hkind, rfl⟩ := reads_bracketed.mp hread
        obtain ⟨us, rfl, rfl, hfits⟩ := hinner k rfl _ _ _ _ _ hts.tail he
        have hencloses : bracket.Encloses t.kind c.kind := encloses_iff.mpr ⟨hopen, hkind⟩
        obtain ⟨⟨hos, hcs⟩, hon, hcn⟩ := encloses_kinds hencloses
        have hsplit : t :: (us ++ c :: rest) = (t :: us ++ [c]) ++ rest := by simp
        rw [hsplit] at hts ⊢
        refine ⟨t :: us ++ [c], rfl, ?_, ?_, ?_, ?_⟩
        · exact (openNotes_enclosed hos hcs).symm
        · exact .bracketed hencloses hfits.derives (join_brackets hts.left)
        · exact Nat.succ_le_succ hfits.nesting
        · exact (countsFit_enclosed hon hcn).mpr hfits.counts

theorem primary_complete {depth : Nat}
    (hinner : ∀ k, depth = k + 1 → Complete (expression k) (ExpressionFits k)
      (fun kind => kind = .exceptionSymbol ∨ kind = .comma ∨ kind = .verticalBar)) :
    Complete (primary (innerAt depth)) (PrimaryFits depth) (fun _ => False) := by
  rintro stop ts p rest hts ⟨hderives, hnesting, hcounts⟩ -
  cases hderives with
  | @reference t m hk hm =>
      have hk' : t.kind = .identifier := hk
      refine reads_primary.mpr (Or.inl ⟨hk, reads_pure.mpr ⟨?_, ?_, rfl⟩⟩)
      · rw [openNotes_cons (by rw [hk']; decide)]
        rfl
      · rw [show m = t.span from hm]
        rfl
  | @literal t m s q hk hq hm =>
      have hk' : t.kind = .stringLiteral := hk
      obtain ⟨hquotes, hclosed⟩ := quotes_ofText (hts.lexical t List.mem_cons_self) hk
      obtain ⟨rfl, rfl⟩ := hq.unique hquotes
      refine reads_primary.mpr (Or.inr (Or.inl ⟨hk, reads_literal.mpr ⟨rfl, ?_, ?_⟩⟩))
      · rw [show m = t.span from hm]
        rfl
      · have htext : t.lexeme.text = t.text := rfl
        rw [htext] at hclosed
        rw [hclosed]
        simp [openNotes, hk']
  | @bracketed o us c m b e hb he hm =>
      obtain ⟨hopen, hkind⟩ := encloses_iff.mp hb
      have hopen' : Bracket.ofOpening? o.kind = some b := hopen
      have hkind' : c.kind = b.closingKind := hkind
      -- the bracket takes one level, so there was one
      obtain ⟨k, rfl⟩ : ∃ k, depth = k + 1 := by
        cases depth with
        | zero => exact absurd hnesting (Nat.not_succ_le_zero _)
        | succ k => exact ⟨k, rfl⟩
      have hencloses : b.Encloses o.kind c.kind := hb
      obtain ⟨⟨hos, hcs⟩, hon, hcn⟩ := encloses_kinds hencloses
      have hinside : Scanned us := hts.left.tail
      have hread := hinner k rfl stop us e (c :: rest) hinside
        ⟨he, Nat.le_of_succ_le_succ hnesting, (countsFit_enclosed hon hcn).mp hcounts⟩ (by
          intro t ht
          rw [← Option.some.inj ht, hkind']
          cases b <;> decide)
      have hsplit : o :: us ++ [c] ++ rest = o :: (us ++ c :: rest) := by simp
      have hmark : m = o.span.join c.span := by
        rw [join_brackets hts]
        exact hm
      rw [openNotes_enclosed hos hcs, hsplit, hmark]
      exact reads_primary.mpr (Or.inr (Or.inr ⟨b, hopen',
        reads_bracketed.mpr ⟨k, e, c, rfl, hread, hkind', rfl⟩⟩))

/-! ## Factors -/

/-- What an exception that fits looks like. -/
def ExceptionFits (depth : Nat) (ts : List Token) (x : Option (Primary Span)) : Prop :=
  Signed (fun s => s.kind = .exceptionSymbol) (Primary.Derives .placed) ts x ∧
    (∀ q ∈ x, q.nesting ≤ depth) ∧ CountsFit ts

section Parts

variable {depth : Nat}

theorem exception_sound (hprimary : Sound (primary (innerAt depth)) (PrimaryFits depth)) :
    Sound (exception (innerAt depth)) (ExceptionFits depth) := by
  intro stop ts notes x rest hts h
  obtain ⟨n₁, s, mid, n₂, hs, hmore, rfl⟩ := reads_bind.mp h
  obtain ⟨rfl, hnext⟩ := reads_accept.mp hs
  rcases hnext with ⟨s, rfl, hk, rfl⟩ | ⟨rfl, rfl, -⟩
  · obtain ⟨m₁, p, mid', m₂, hp, hpure, rfl⟩ := reads_bind.mp hmore
    obtain ⟨rfl, rfl, rfl⟩ := reads_pure.mp hpure
    obtain ⟨us, rfl, rfl, hfits⟩ := hprimary _ _ _ _ _ hts.tail hp
    refine ⟨s :: us, rfl, ?_, .some hk hfits.derives, ?_, ?_⟩
    · rw [openNotes_cons (by rw [hk]; decide)]
      simp
    · intro q hq
      rw [← Option.some.inj hq]
      exact hfits.nesting
    · exact (countsFit_cons (by rw [hk]; decide)).mpr hfits.counts
  · obtain ⟨rfl, rfl, rfl⟩ := reads_pure.mp hmore
    refine ⟨[], rfl, rfl, .none, ?_, countsFit_nil⟩
    intro q hq
    cases hq

theorem exception_complete
    (hprimary : Complete (primary (innerAt depth)) (PrimaryFits depth) (fun _ => False)) :
    Complete (exception (innerAt depth)) (ExceptionFits depth)
      (fun kind => kind = .exceptionSymbol) := by
  rintro stop ts x rest hts ⟨h, hnesting, hcounts⟩ hrest
  cases h with
  | none =>
      exact .absent hrest (reads_pure.mpr ⟨rfl, rfl, rfl⟩)
  | @some s us p hs hp =>
      have hcounts' := (countsFit_cons (by rw [hs]; decide)).mp hcounts
      have hread := hprimary stop us p rest hts.tail ⟨hp, hnesting p rfl, hcounts'⟩
        (fun _ _ h => h)
      rw [openNotes_cons (by rw [hs]; decide)]
      exact .next hs hread.done

/-- A factor spans what its count, its primary and its exception span together. -/
theorem factor_mark {cs ps xs : List Token} {p : Primary Span} {x : Option (Primary Span)}
    (hp : Primary.Derives .placed ps p)
    (hx : Signed (fun s => s.kind = .exceptionSymbol) (Primary.Derives .placed) xs x)
    (stop : Span) (rest : List Token) :
    (⟨(((cs ++ ps ++ xs ++ rest).head?.map (·.span)).getD stop).start, (x.getD p).mark.stop⟩ : Span)
      = Span.over (cs ++ ps ++ xs) := by
  obtain ⟨hne, hm⟩ := derives_mark.primaries p ps hp
  have hcp : cs ++ ps ≠ [] := by simp [hne]
  have hhead : ∀ us : List Token, us ≠ [] → ∀ vs,
      (((us ++ vs).head?.map (·.span)).getD stop).start = (Span.over us).start := by
    intro us hus vs
    obtain ⟨u, us, rfl⟩ := List.exists_cons_of_ne_nil hus
    rfl
  have hstart := hhead (cs ++ ps ++ xs) (by simp [hne]) rest
  -- it stops with its exception, or without one with its primary
  have hstop : (x.getD p).mark.stop = (Span.over (cs ++ ps ++ xs)).stop := by
    cases hx with
    | none =>
        rw [List.append_nil, Option.getD_none, hm]
        cases cs with
        | nil => rfl
        | cons c cs => rw [Span.over_append (List.cons_ne_nil c cs) hne]
    | @some s us q hs hq =>
        obtain ⟨hqne, hqm⟩ := derives_mark.primaries q us hq
        rw [Span.over_append hcp (List.cons_ne_nil s us), Span.over_cons hqne, Option.getD_some,
          hqm]
  rw [hstart, hstop]

theorem factor_sound (hprimary : Sound (primary (innerAt depth)) (PrimaryFits depth)) :
    Sound (factor (innerAt depth)) (FactorFits depth) := by
  intro stop ts notes f rest hts h
  -- what was read, part by part; the place of the next token is looked up first and last
  obtain ⟨n₁, start, mid₁, m₁, hstart, hmore₁, rfl⟩ := reads_bind.mp h
  obtain ⟨rfl, rfl, rfl⟩ := reads_here.mp hstart
  obtain ⟨n₂, n, mid₂, m₂, hn, hmore₂, rfl⟩ := reads_bind.mp hmore₁
  obtain ⟨n₃, p, mid₃, m₃, hp, hmore₃, rfl⟩ := reads_bind.mp hmore₂
  obtain ⟨n₄, x, mid₄, m₄, hx, hmore₄, rfl⟩ := reads_bind.mp hmore₃
  obtain ⟨n₅, s, mid₅, m₅, hs, hpure, rfl⟩ := reads_bind.mp hmore₄
  obtain ⟨rfl, rfl, rfl⟩ := reads_span.mp hs
  obtain ⟨rfl, rfl, rfl⟩ := reads_pure.mp hpure
  obtain ⟨cs, rfl, rfl, hcount, hcfit⟩ := count_sound _ _ _ _ _ hts hn
  obtain ⟨ps, rfl, rfl, hpfits⟩ := hprimary _ _ _ _ _ hts.right hp
  obtain ⟨xs, rfl, rfl, hxs, hxnest, hxfit⟩ := exception_sound hprimary _ _ _ _ _ hts.right.right hx
  refine ⟨cs ++ ps ++ xs, by simp, by simp [openNotes_append], ?_, ?_, ?_⟩
  · have hmark := @factor_mark cs ps xs p x hpfits.derives hxs stop mid₄
    rw [List.append_assoc, List.append_assoc] at hmark
    exact .mk hcount hpfits.derives hxs hmark
  · exact Factor.nesting_le_iff.mpr ⟨hpfits.nesting, hxnest⟩
  · exact countsFit_append.mpr ⟨countsFit_append.mpr ⟨hcfit, hpfits.counts⟩, hxfit⟩

/-- No primary begins with a number. -/
theorem primary_head {ts rest : List Token} {p : Primary Span} (h : Primary.Derives .placed ts p) :
    NotNext .number (ts ++ rest) := by
  intro t ht hk
  cases h with
  | reference hk' _ => rw [← Option.some.inj ht] at hk; exact absurd (hk.symm.trans hk') (by decide)
  | literal hk' _ _ => rw [← Option.some.inj ht] at hk; exact absurd (hk.symm.trans hk') (by decide)
  | @bracketed o us c m b e hb _ _ =>
      -- no bracket opens with a number
      have hopen := (encloses_iff.mp hb).1
      rw [← Option.some.inj ht] at hk
      rw [show Reading.placed.kind o = .number from hk] at hopen
      cases hopen

theorem factor_complete
    (hprimary : Complete (primary (innerAt depth)) (PrimaryFits depth) (fun _ => False)) :
    Complete (factor (innerAt depth)) (FactorFits depth) (fun kind => kind = .exceptionSymbol) := by
  rintro stop ts f rest hts ⟨hderives, hnesting, hcounts⟩ hrest
  cases hderives with
  | @mk cs ps xs m n p x hn hp hx hm =>
      obtain ⟨hpn, hxn⟩ := Factor.nesting_le_iff.mp hnesting
      obtain ⟨hcp, hxc⟩ := countsFit_append.mp hcounts
      obtain ⟨hcc, hpc⟩ := countsFit_append.mp hcp
      have hmark := @factor_mark cs ps xs p x hp hx stop rest
      rw [← show m = _ from hm] at hmark
      have hread₁ := count_complete stop cs n (ps ++ (xs ++ rest)) hts.left.left ⟨hn, hcc⟩
        (primary_head hp)
      have hread₂ := hprimary stop ps p (xs ++ rest) hts.left.right ⟨hp, hpn, hpc⟩
        (fun _ _ h => h)
      have hread₃ := exception_complete hprimary stop xs x rest hts.right ⟨hx, hxn, hxc⟩ hrest
      have hsplit : cs ++ ps ++ xs ++ rest = cs ++ (ps ++ (xs ++ rest)) := by simp
      rw [hsplit] at hmark ⊢
      rw [openNotes_append, openNotes_append, ← hmark]
      refine reads_bind.mpr ⟨[], _, _, _, reads_here.mpr ⟨rfl, rfl, rfl⟩, ?_, rfl⟩
      refine reads_bind.mpr ⟨openNotes cs, n, _, _, hread₁, ?_, List.append_assoc ..⟩
      refine reads_bind.mpr ⟨openNotes ps, p, _, _, hread₂, ?_, rfl⟩
      refine reads_bind.mpr ⟨openNotes xs, x, rest, [], hread₃, ?_, (List.append_nil _).symm⟩
      exact reads_bind.mpr ⟨[], _, rest, [], reads_span.mpr ⟨rfl, rfl, rfl⟩,
        reads_pure.mpr ⟨rfl, rfl, rfl⟩, rfl⟩

/-! ## Terms and expressions -/

/-- Items that fit, taken apart into what they derive, how they nest, and their counts. -/
theorem separated_fits {β : Type} {separator : TokenKind} {derives : List Token → β → Prop}
    {nesting : β → Nat} {ts : List Token} {xs : List β} (hsep : separator ≠ .number) :
    Separated (fun s => s.kind = separator) (Fits derives nesting depth) ts xs ↔
      Separated (fun s => s.kind = separator) derives ts xs ∧ (∀ x ∈ xs, nesting x ≤ depth) ∧
        CountsFit ts := by
  constructor
  · intro h
    induction h with
    | one hx =>
        refine ⟨.one hx.derives, ?_, hx.counts⟩
        intro y hy
        rw [List.mem_singleton.mp hy]
        exact hx.nesting
    | cons hx hs _ ih =>
        obtain ⟨h1, h2, h3⟩ := ih
        refine ⟨.cons hx.derives hs h1, ?_, ?_⟩
        · intro y hy
          rcases List.mem_cons.mp hy with heq | hmem
          · rw [heq]; exact hx.nesting
          · exact h2 y hmem
        · rw [countsFit_append, countsFit_cons (by rw [hs]; exact hsep)]
          exact ⟨hx.counts, h3⟩
  · rintro ⟨h, hnesting, hcounts⟩
    induction h with
    | one hx => exact .one ⟨hx, hnesting _ List.mem_cons_self, hcounts⟩
    | cons hx hs _ ih =>
        rw [countsFit_append, countsFit_cons (by rw [hs]; exact hsep)] at hcounts
        refine .cons ⟨hx, hnesting _ List.mem_cons_self, hcounts.1⟩ hs (ih ?_ hcounts.2)
        intro y hy
        exact hnesting y (List.mem_cons_of_mem _ hy)

theorem term_sound (hprimary : Sound (primary (innerAt depth)) (PrimaryFits depth)) :
    Sound (term (innerAt depth)) (TermFits depth) := by
  intro stop ts notes t rest hts h
  obtain ⟨n₁, ⟨f, fs⟩, mid, n₂, hfs, hpure, rfl⟩ := reads_bind.mp h
  obtain ⟨rfl, rfl, rfl⟩ := reads_pure.mp hpure
  obtain ⟨us, rfl, rfl, hsep⟩ :=
    separated_sound (factor_sound hprimary) (by decide) _ _ _ _ _ hts hfs
  obtain ⟨hderives, hnesting, hcounts⟩ := (separated_fits (by decide)).mp hsep
  refine ⟨us, rfl, by simp, .mk hderives ?_, Term.nesting_le_iff.mpr hnesting, hcounts⟩
  exact separated_join (fun ts f h => derives_mark.factors f ts h) hts.left hderives

theorem term_complete
    (hprimary : Complete (primary (innerAt depth)) (PrimaryFits depth) (fun _ => False)) :
    Complete (term (innerAt depth)) (TermFits depth)
      (fun kind => kind = .exceptionSymbol ∨ kind = .comma) := by
  rintro stop ts t rest hts ⟨hderives, hnesting, hcounts⟩ hrest
  cases hderives with
  | @mk ts m f fs hsep hm =>
      have hfits := (separated_fits (by decide)).mpr ⟨hsep, Term.nesting_le_iff.mp hnesting, hcounts⟩
      have hjoin := separated_join (fun ts f h => derives_mark.factors f ts h) hts hsep
      rw [← show m = _ from hm] at hjoin
      have hread := separated_complete (factor_complete hprimary) (by decide) (by decide)
        stop ts (f, fs) rest hts hfits hrest
      rw [← hjoin]
      exact hread.done

theorem choice_sound (hprimary : Sound (primary (innerAt depth)) (PrimaryFits depth)) :
    Sound (choice (innerAt depth)) (ExpressionFits depth) := by
  intro stop ts notes e rest hts h
  obtain ⟨n₁, ⟨t, us⟩, mid, n₂, hus, hpure, rfl⟩ := reads_bind.mp h
  obtain ⟨rfl, rfl, rfl⟩ := reads_pure.mp hpure
  obtain ⟨vs, rfl, rfl, hsep⟩ :=
    separated_sound (term_sound hprimary) (by decide) _ _ _ _ _ hts hus
  obtain ⟨hderives, hnesting, hcounts⟩ := (separated_fits (by decide)).mp hsep
  refine ⟨vs, rfl, by simp, .mk hderives ?_, Expression.nesting_le_iff.mpr hnesting, hcounts⟩
  exact separated_join (fun ts t h => derives_mark.terms t ts h) hts.left hderives

theorem choice_complete
    (hprimary : Complete (primary (innerAt depth)) (PrimaryFits depth) (fun _ => False)) :
    Complete (choice (innerAt depth)) (ExpressionFits depth)
      (fun kind => kind = .exceptionSymbol ∨ kind = .comma ∨ kind = .verticalBar) := by
  rintro stop ts e rest hts ⟨hderives, hnesting, hcounts⟩ hrest
  cases hderives with
  | @mk ts m t us hsep hm =>
      have hfits :=
        (separated_fits (by decide)).mpr ⟨hsep, Expression.nesting_le_iff.mp hnesting, hcounts⟩
      have hjoin := separated_join (fun ts t h => derives_mark.terms t ts h) hts hsep
      rw [← show m = _ from hm] at hjoin
      have hread := separated_complete (term_complete hprimary) (by decide) (by decide)
        stop ts (t, us) rest hts hfits (by
          intro u hu hk
          exact hrest u hu (or_assoc.mp hk))
      rw [← hjoin]
      exact hread.done

end Parts

/-- Expressions are read as they derive, at every depth. -/
theorem expression_sound (depth : Nat) : Sound (expression depth) (ExpressionFits depth) := by
  -- the readers call each other within brackets only, and there the depth is less
  induction depth with
  | zero =>
      rw [expression_eq]
      exact choice_sound (primary_sound fun k hk => nomatch hk)
  | succ depth ih =>
      rw [expression_eq]
      exact choice_sound (primary_sound fun k hk => Nat.succ.inj hk ▸ ih)

theorem expression_complete (depth : Nat) :
    Complete (expression depth) (ExpressionFits depth)
      (fun kind => kind = .exceptionSymbol ∨ kind = .comma ∨ kind = .verticalBar) := by
  induction depth with
  | zero =>
      rw [expression_eq]
      exact choice_complete (primary_complete fun k hk => nomatch hk)
  | succ depth ih =>
      rw [expression_eq]
      exact choice_complete (primary_complete fun k hk => Nat.succ.inj hk ▸ ih)

/-! ## Rules -/

/-- What a rule that fits looks like. -/
abbrev RuleFits := Fits (Rule.Derives .placed) fun r => r.body.nesting

/-- Only the body of a rule has strings and counts. -/
theorem rule_frame {x s c : Token} (hx : x.kind = .identifier) (hs : s.kind = .equals)
    (hc : c.kind = .semicolon) (us : List Token) :
    openNotes (x :: s :: us ++ [c]) = openNotes us ∧
      (CountsFit (x :: s :: us ++ [c]) ↔ CountsFit us) := by
  constructor
  · rw [openNotes_enclosed (by rw [hx]; decide) (by rw [hc]; decide),
      openNotes_cons (by rw [hs]; decide)]
  · rw [countsFit_enclosed (by rw [hx]; decide) (by rw [hc]; decide),
      countsFit_cons (by rw [hs]; decide)]

theorem rule_sound : Sound rule (RuleFits maxNesting) := by
  intro stop ts notes r rest hts h
  obtain ⟨n₁, x, mid₁, m₁, hx, hmore₁, rfl⟩ := reads_bind.mp h
  obtain ⟨rfl, hxk, rfl⟩ := reads_expect.mp hx
  obtain ⟨n₂, s, mid₂, m₂, hs, hmore₂, rfl⟩ := reads_bind.mp hmore₁
  obtain ⟨rfl, hsk, rfl⟩ := reads_expect.mp hs
  obtain ⟨n₃, e, mid₃, m₃, he, hmore₃, rfl⟩ := reads_bind.mp hmore₂
  obtain ⟨n₄, c, mid₄, m₄, hc, hpure, rfl⟩ := reads_bind.mp hmore₃
  obtain ⟨rfl, hck, rfl⟩ := reads_expect.mp hc
  obtain ⟨rfl, rfl, rfl⟩ := reads_pure.mp hpure
  obtain ⟨us, rfl, rfl, hfits⟩ := expression_sound maxNesting _ _ _ _ _ hts.tail.tail he
  have hsplit : x :: s :: (us ++ c :: mid₄) = (x :: s :: us ++ [c]) ++ mid₄ := by simp
  rw [hsplit] at hts ⊢
  obtain ⟨hnotes, hcounts⟩ := rule_frame hxk hsk hck us
  refine ⟨x :: s :: us ++ [c], rfl, ?_, ?_, hfits.nesting, hcounts.mpr hfits.counts⟩
  · rw [hnotes]
    simp
  · exact .mk hxk hsk hfits.derives hck rfl (join_brackets hts.left)

theorem rule_complete : Complete rule (RuleFits maxNesting) (fun _ => False) := by
  rintro stop ts r rest hts ⟨hderives, hnesting, hcounts⟩ -
  cases hderives with
  | @mk x s us c nm e m hx hs he hc hnm hm =>
      have hxk : x.kind = .identifier := hx
      have hsk : s.kind = .equals := hs
      have hck : c.kind = .semicolon := hc
      obtain ⟨hnotes, hfits⟩ := rule_frame hxk hsk hck us
      have hread := expression_complete maxNesting stop us e (c :: rest) hts.left.tail.tail
        ⟨he, hnesting, hfits.mp hcounts⟩ (by
          intro t ht
          rw [← Option.some.inj ht, hck]
          decide)
      have hsplit : x :: s :: us ++ [c] ++ rest = x :: s :: (us ++ c :: rest) := by simp
      have hmark : m = x.span.join c.span := (show m = _ from hm).trans (join_brackets hts).symm
      rw [hnotes, hsplit, hmark, show nm = x.span from hnm]
      refine .expected hxk (.expected hsk ?_)
      refine reads_bind.mpr ⟨openNotes us, e, _, [], hread, ?_, (List.append_nil _).symm⟩
      exact .expected hck (reads_pure.mpr ⟨rfl, rfl, rfl⟩)

end Parser

end EbnfKit
