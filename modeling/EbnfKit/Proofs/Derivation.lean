import EbnfKit.Grammar.Basic
import EbnfKit.Grammar.Literal
import EbnfKit.Proofs.Lexing
import EbnfKit.Proofs.Tree

/-! # Derivations — the grammar of grammars as a relation

    What the parser computes is stated here without it:

        File       = { Rule } ;
        Rule       = Identifier, "=", Expression, ";" ;
        Expression = Term, { "|", Term } ;
        Term       = Factor, { ",", Factor } ;
        Factor     = [ Number, "*" ], Primary, [ "-", Primary ] ;
        Primary    = Identifier | StringLiteral
                   | "(", Expression, ")" | "[", Expression, "]" | "{", Expression, "}" ;

    `Derives ts e` says that the pieces `ts` are a sentence with the derivation tree `e`.
    The pieces are tokens or bare lexemes, and a `Reading` says what lexeme a piece is and
    what the mark of a node has to do with the pieces below it: nothing, or that it is the
    span from the first to the last.  Neither counts nor nesting are limited here, and a
    string need not be closed.  Pieces with the same lexemes have derivations of the same
    shape, whatever the readings (`derives_carry`). -/

namespace EbnfKit

/-- How derivations read their pieces and mark their nodes. -/
structure Reading (τ α : Type) where
  lexeme : τ → Lexeme
  marks : List τ → α → Prop

/-- The lexeme of a token. -/
def Token.lexeme (t : Token) : Lexeme :=
  ⟨t.kind, t.text⟩

/-- From the start of the first token to the stop of the last. -/
def Span.over (ts : List Token) : Span :=
  ⟨(ts.head?.map (·.span.start)).getD 0, (ts.getLast?.map (·.span.stop)).getD 0⟩

namespace Reading

/-- Lexemes under a tree without marks. -/
def bare : Reading Lexeme Unit where
  lexeme := id
  marks := fun _ _ => True

/-- Tokens under a tree whose marks are their spans. -/
def placed : Reading Token Span where
  lexeme := Token.lexeme
  marks := fun ts m => m = Span.over ts

variable {τ α : Type}

/-- The kind of a piece. -/
def kind (d : Reading τ α) (x : τ) : TokenKind :=
  (d.lexeme x).kind

/-- The text of a piece. -/
def text (d : Reading τ α) (x : τ) : Text :=
  (d.lexeme x).text

end Reading

variable {τ α β : Type}

/-- Items with separators between them, at least one. -/
inductive Separated (separates : τ → Prop) (item : List τ → β → Prop) :
    List τ → List β → Prop
  | one {ts x} : item ts x → Separated separates item ts [x]
  | cons {ts x s us xs} : item ts x → separates s → Separated separates item us xs →
      Separated separates item (ts ++ s :: us) (x :: xs)

/-- Nothing, or an item behind its sign. -/
inductive Signed (sign : τ → Prop) (item : List τ → β → Prop) : List τ → Option β → Prop
  | none : Signed sign item [] none
  | some {s ts x} : sign s → item ts x → Signed sign item (s :: ts) (some x)

/-- Nothing, or a count with the sign behind it. -/
inductive Counted (d : Reading τ α) : List τ → Option Nat → Prop
  | none : Counted d [] none
  | some {x s} : d.kind x = .number → d.kind s = .repetitionSymbol →
      Counted d [x, s] (some (Text.decimal (d.text x)))

/-- The kinds of the tokens between which the bracket encloses something. -/
inductive Bracket.Encloses : Bracket → TokenKind → TokenKind → Prop
  | group : Bracket.Encloses .group .leftParen .rightParen
  | optional : Bracket.Encloses .optional .leftBracket .rightBracket
  | repetition : Bracket.Encloses .repetition .leftBrace .rightBrace

/-- `text` is the content between quotes, of which the closing one may be missing. -/
def Quotes (written : Text) (quote : Char) (text : Text) : Prop :=
  written = quote :: text ++ if Lexeme.isClosed written then [quote] else []

mutual

/-- Alternatives with bars between them. -/
inductive Expression.Derives (d : Reading τ α) : List τ → Expression α → Prop
  | mk {ts m t us} :
      Separated (fun s => d.kind s = .verticalBar) (Term.Derives d) ts (t :: us) →
      d.marks ts m → Expression.Derives d ts (.mk m t us)

/-- Factors with commas between them. -/
inductive Term.Derives (d : Reading τ α) : List τ → Term α → Prop
  | mk {ts m f gs} :
      Separated (fun s => d.kind s = .comma) (Factor.Derives d) ts (f :: gs) →
      d.marks ts m → Term.Derives d ts (.mk m f gs)

/-- A primary, perhaps behind a count, perhaps before an exception. -/
inductive Factor.Derives (d : Reading τ α) : List τ → Factor α → Prop
  | mk {cs ps xs m n p x} : Counted d cs n → Primary.Derives d ps p →
      Signed (fun s => d.kind s = .exceptionSymbol) (Primary.Derives d) xs x →
      d.marks (cs ++ ps ++ xs) m → Factor.Derives d (cs ++ ps ++ xs) (.mk m n p x)

/-- A name, a string, or an expression in brackets. -/
inductive Primary.Derives (d : Reading τ α) : List τ → Primary α → Prop
  | reference {x m} : d.kind x = .identifier → d.marks [x] m →
      Primary.Derives d [x] (.reference m (d.text x))
  | literal {x m s q} : d.kind x = .stringLiteral → Quotes (d.text x) q s → d.marks [x] m →
      Primary.Derives d [x] (.literal m s q)
  | bracketed {o ts c m b e} : b.Encloses (d.kind o) (d.kind c) → Expression.Derives d ts e →
      d.marks (o :: ts ++ [c]) m → Primary.Derives d (o :: ts ++ [c]) (.bracketed m b e)

end

/-- A name, the equals sign, the body and a semicolon. -/
inductive Rule.Derives (d : Reading τ α) : List τ → Rule α → Prop
  | mk {x s ts c nm e m} : d.kind x = .identifier → d.kind s = .equals →
      Expression.Derives d ts e → d.kind c = .semicolon → d.marks [x] nm →
      d.marks (x :: s :: ts ++ [c]) m →
      Rule.Derives d (x :: s :: ts ++ [c]) ⟨d.text x, nm, e, m⟩

/-- Rules one after the other. -/
inductive Rule.DerivesAll (d : Reading τ α) : List τ → List (Rule α) → Prop
  | nil : Rule.DerivesAll d [] []
  | cons {ts r us rs} : Rule.Derives d ts r → Rule.DerivesAll d us rs →
      Rule.DerivesAll d (ts ++ us) (r :: rs)

/-! ## Items and their stretches -/

theorem Separated.ne_nil {separates : τ → Prop} {item : List τ → β → Prop} {ts : List τ}
    {xs : List β} (h : Separated separates item ts xs) : xs ≠ [] := by
  cases h with
  | one _ => exact List.cons_ne_nil _ _
  | cons _ _ _ => exact List.cons_ne_nil _ _

/-- Items that take a piece each take some together. -/
theorem Separated.pieces_ne_nil {separates : τ → Prop} {item : List τ → β → Prop} {ts : List τ}
    {xs : List β} (h : Separated separates item ts xs)
    (hitem : ∀ x ∈ xs, ∀ ts, item ts x → ts ≠ []) : ts ≠ [] := by
  cases h with
  | one h => exact hitem _ List.mem_cons_self _ h
  | cons h _ _ => simp

/-- Each of several items is a stretch of the pieces of them all. -/
theorem Separated.stretch {separates : τ → Prop} {item : List τ → β → Prop} {ts : List τ}
    {xs : List β} (h : Separated separates item ts xs) {x : β} (hx : x ∈ xs) :
    ∃ us, us <:+: ts ∧ item us x := by
  induction h with
  | one h =>
      rw [List.mem_singleton.mp hx]
      exact ⟨_, List.infix_refl _, h⟩
  | @cons ts y s us ys h _ _ ih =>
      rcases List.mem_cons.mp hx with heq | hmem
      · rw [heq]
        exact ⟨ts, ⟨[], s :: us, rfl⟩, h⟩
      · obtain ⟨vs, ⟨front, back, rfl⟩, hitem⟩ := ih hmem
        exact ⟨vs, ⟨ts ++ s :: front, back, by simp⟩, hitem⟩

theorem Separated.sublist {separates : τ → Prop} {item : List τ → β → Prop} {ts : List τ}
    {xs : List β} (h : Separated separates item ts xs) {x : β} (hx : x ∈ xs) :
    ∃ us, us.Sublist ts ∧ item us x := by
  obtain ⟨us, hus, hitem⟩ := h.stretch hx
  exact ⟨us, hus.sublist, hitem⟩

/-- Whatever a node derives is not empty. -/
theorem derives_ne_nil {d : Reading τ α} :
    Hereditary (fun e => ∀ ts, Expression.Derives d ts e → ts ≠ [])
      (fun t => ∀ ts, Term.Derives d ts t → ts ≠ []) (fun f => ∀ ts, Factor.Derives d ts f → ts ≠ [])
      (fun p => ∀ ts, Primary.Derives d ts p → ts ≠ []) where
  expression := by
    intro m t us ih ts h
    cases h with
    | mk hsep _ => exact hsep.pieces_ne_nil ih
  term := by
    intro m f gs ih ts h
    cases h with
    | mk hsep _ => exact hsep.pieces_ne_nil ih
  factor := by
    intro m n p x hp _ ts h
    cases h with
    | mk _ hprimary _ _ =>
        have := hp _ hprimary
        simp [this]
  reference := by
    intro m n ts h
    cases h with
    | reference _ _ => exact List.cons_ne_nil _ _
  literal := by
    intro m s q ts h
    cases h with
    | literal _ _ _ => exact List.cons_ne_nil _ _
  bracketed := by
    intro m b e _ ts h
    cases h with
    | bracketed _ _ _ => exact List.cons_ne_nil _ _

/-! ## Other readings of the same lexemes -/

section Carry

variable {σ γ δ κ : Type}

/-- Items that can be read in another way can be read so with separators between them. -/
theorem Separated.carry {separates : τ → Prop} {separates' : σ → Prop}
    {item : List τ → β → Prop} {item' : List σ → γ → Prop} {key : τ → κ} {key' : σ → κ}
    {g : β → δ} {g' : γ → δ} {ts : List τ} {xs : List β} (h : Separated separates item ts xs)
    (hitem : ∀ x ∈ xs, ∀ ts us, item ts x → us.map key' = ts.map key →
      ∃ y, item' us y ∧ g' y = g x)
    (hsep : ∀ s s', key' s' = key s → separates s → separates' s') :
    ∀ us : List σ, us.map key' = ts.map key →
      ∃ ys, Separated separates' item' us ys ∧ ys.map g' = xs.map g := by
  induction h with
  | @one ts x hx =>
      intro us hus
      obtain ⟨y, hy, heq⟩ := hitem x List.mem_cons_self ts us hx hus
      exact ⟨[y], .one hy, by simp [heq]⟩
  | @cons ts x s vs xs hx hs _ ih =>
      intro us hus
      rw [List.map_append, List.map_cons] at hus
      obtain ⟨ts', us', rfl, hts, hus⟩ := List.map_eq_append_iff.mp hus
      obtain ⟨s', vs', rfl, hs', hvs⟩ := List.map_eq_cons_iff.mp hus
      obtain ⟨y, hy, hyx⟩ := hitem x List.mem_cons_self ts ts' hx hts
      obtain ⟨ys, hys, hysxs⟩ := ih (fun z hz => hitem z (List.mem_cons_of_mem x hz)) vs' hvs
      exact ⟨y :: ys, .cons hy (hsep s s' hs' hs) hys, by rw [List.map_cons, List.map_cons, hyx, hysxs]⟩

/-- What may be missing can be read in another way if its item can. -/
theorem Signed.carry {sign : τ → Prop} {sign' : σ → Prop} {item : List τ → β → Prop}
    {item' : List σ → γ → Prop} {key : τ → κ} {key' : σ → κ} {g : β → δ} {g' : γ → δ}
    {ts : List τ} {x : Option β} (h : Signed sign item ts x)
    (hitem : ∀ q ∈ x, ∀ ts us, item ts q → us.map key' = ts.map key →
      ∃ q', item' us q' ∧ g' q' = g q)
    (hsign : ∀ s s', key' s' = key s → sign s → sign' s') {us : List σ}
    (hus : us.map key' = ts.map key) :
    ∃ x', Signed sign' item' us x' ∧ x'.map g' = x.map g := by
  cases h with
  | none =>
      rw [List.map_eq_nil_iff.mp hus]
      exact ⟨Option.none, .none, rfl⟩
  | @some s ts q hs hq =>
      obtain ⟨s', us', rfl, hs', hus'⟩ := List.map_eq_cons_iff.mp hus
      obtain ⟨q', hq', heq⟩ := hitem q rfl ts us' hq hus'
      exact ⟨Option.some q', .some (hsign s s' hs' hs) hq', congrArg Option.some heq⟩

/-- Pieces with the same key have the same lexeme, and what marks a node over the ones has
    a like to mark it over the others. -/
structure Reading.Carries (d : Reading τ α) (d' : Reading σ β) (key : τ → κ) (key' : σ → κ)
    (g : α → δ) (g' : β → δ) : Prop where
  lexeme : ∀ {x y}, key' y = key x → d'.lexeme y = d.lexeme x
  marks : ∀ {ts us m}, us.map key' = ts.map key → ts ≠ [] → d.marks ts m →
    ∃ m', d'.marks us m' ∧ g' m' = g m

variable {d : Reading τ α} {d' : Reading σ β} {key : τ → κ} {key' : σ → κ} {g : α → δ}
  {g' : β → δ}

theorem Reading.Carries.kind (h : d.Carries d' key key' g g') {x : τ} {y : σ}
    (hxy : key' y = key x) : d'.kind y = d.kind x :=
  congrArg Lexeme.kind (h.lexeme hxy)

theorem Reading.Carries.text (h : d.Carries d' key key' g g') {x : τ} {y : σ}
    (hxy : key' y = key x) : d'.text y = d.text x :=
  congrArg Lexeme.text (h.lexeme hxy)

theorem Counted.carry (hd : d.Carries d' key key' g g') {ts : List τ} {us : List σ}
    {n : Option Nat} (h : Counted d ts n) (hus : us.map key' = ts.map key) : Counted d' us n := by
  cases h with
  | none =>
      rw [List.map_eq_nil_iff.mp hus]
      exact .none
  | @some x s hx hs =>
      obtain ⟨x', us', rfl, hx', hus⟩ := List.map_eq_cons_iff.mp hus
      obtain ⟨s', us'', rfl, hs', hus⟩ := List.map_eq_cons_iff.mp hus
      obtain rfl := List.map_eq_nil_iff.mp hus
      rw [← hd.text hx']
      exact .some ((hd.kind hx').trans hx) ((hd.kind hs').trans hs)

/-- **Derivations carry over** to pieces with the same keys, node by node. -/
theorem derives_carry (hd : d.Carries d' key key' g g') :
    Hereditary
      (fun e => ∀ ts us, Expression.Derives d ts e → us.map key' = ts.map key →
        ∃ e', Expression.Derives d' us e' ∧ e'.map g' = e.map g)
      (fun t => ∀ ts us, Term.Derives d ts t → us.map key' = ts.map key →
        ∃ t', Term.Derives d' us t' ∧ t'.map g' = t.map g)
      (fun f => ∀ ts us, Factor.Derives d ts f → us.map key' = ts.map key →
        ∃ f', Factor.Derives d' us f' ∧ f'.map g' = f.map g)
      (fun p => ∀ ts us, Primary.Derives d ts p → us.map key' = ts.map key →
        ∃ p', Primary.Derives d' us p' ∧ p'.map g' = p.map g) where
  expression := by
    intro m t ts ih us vs h hvs
    have hne := derives_ne_nil.expressions _ us h
    cases h with
    | mk hsep hm =>
        obtain ⟨ys, hys, heq⟩ := hsep.carry ih (fun s s' hs h => (hd.kind hs).trans h) vs hvs
        obtain ⟨y, ys, rfl, hy, hmaps⟩ := List.map_eq_cons_iff.mp heq
        obtain ⟨m', hm', hmark⟩ := hd.marks hvs hne hm
        exact ⟨.mk m' y ys, .mk hys hm', by
          rw [Expression.map_mk, Expression.map_mk, hmark, hy, hmaps]⟩
  term := by
    intro m f fs ih us vs h hvs
    have hne := derives_ne_nil.terms _ us h
    cases h with
    | mk hsep hm =>
        obtain ⟨ys, hys, heq⟩ := hsep.carry ih (fun s s' hs h => (hd.kind hs).trans h) vs hvs
        obtain ⟨y, ys, rfl, hy, hmaps⟩ := List.map_eq_cons_iff.mp heq
        obtain ⟨m', hm', hmark⟩ := hd.marks hvs hne hm
        exact ⟨.mk m' y ys, .mk hys hm', by rw [Term.map_mk, Term.map_mk, hmark, hy, hmaps]⟩
  factor := by
    intro m n p x hp hx ts us h hus
    have hne := derives_ne_nil.factors _ ts h
    cases h with
    | @mk cs ps xs _ _ _ _ hcount hprimary hsigned hm =>
        obtain ⟨m', hm', hmark⟩ := hd.marks hus hne hm
        rw [List.map_append, List.map_append] at hus
        obtain ⟨us', xs', rfl, hus, hxs⟩ := List.map_eq_append_iff.mp hus
        obtain ⟨cs', ps', rfl, hcs, hps⟩ := List.map_eq_append_iff.mp hus
        obtain ⟨p', hp', hpmap⟩ := hp ps ps' hprimary hps
        obtain ⟨x', hx', hxmap⟩ :=
          hsigned.carry hx (fun s s' hs h => (hd.kind hs).trans h) hxs
        refine ⟨.mk m' n p' x', .mk (hcount.carry hd hcs) hp' hx' hm', ?_⟩
        rw [Factor.map_mk, Factor.map_mk, hmark, hpmap, hxmap]
  reference := by
    intro m n ts us h hus
    cases h with
    | reference hk hm =>
        obtain ⟨m', hm', hmark⟩ := hd.marks hus (List.cons_ne_nil _ _) hm
        obtain ⟨x', us', rfl, hx', hus⟩ := List.map_eq_cons_iff.mp hus
        obtain rfl := List.map_eq_nil_iff.mp hus
        refine ⟨_, .reference ((hd.kind hx').trans hk) hm', ?_⟩
        rw [Primary.map, Primary.map, hmark, hd.text hx']
  literal := by
    intro m s q ts us h hus
    cases h with
    | literal hk hquotes hm =>
        obtain ⟨m', hm', hmark⟩ := hd.marks hus (List.cons_ne_nil _ _) hm
        obtain ⟨x', us', rfl, hx', hus⟩ := List.map_eq_cons_iff.mp hus
        obtain rfl := List.map_eq_nil_iff.mp hus
        rw [← hd.text hx'] at hquotes
        refine ⟨_, .literal ((hd.kind hx').trans hk) hquotes hm', ?_⟩
        rw [Primary.map, Primary.map, hmark]
  bracketed := by
    intro m b e ih ts us h hus
    cases h with
    | @bracketed o ws c _ _ _ hb he hm =>
        obtain ⟨m', hm', hmark⟩ := hd.marks hus (List.cons_ne_nil _ _) hm
        rw [List.cons_append, List.map_cons, List.map_append] at hus
        obtain ⟨o', us', rfl, ho', hus⟩ := List.map_eq_cons_iff.mp hus
        obtain ⟨ws', cs', rfl, hws, hcs⟩ := List.map_eq_append_iff.mp hus
        obtain ⟨c', cs'', rfl, hc', hcs⟩ := List.map_eq_cons_iff.mp hcs
        obtain rfl := List.map_eq_nil_iff.mp hcs
        obtain ⟨e', he', hmap⟩ := ih ws ws' he hws
        rw [← hd.kind ho', ← hd.kind hc'] at hb
        refine ⟨.bracketed m' b e', .bracketed hb he' hm', ?_⟩
        rw [Primary.map, Primary.map, hmark, hmap]

theorem Rule.Derives.carry (hd : d.Carries d' key key' g g') {ts : List τ} {us : List σ}
    {r : Rule α} (h : Rule.Derives d ts r) (hus : us.map key' = ts.map key) :
    ∃ r', Rule.Derives d' us r' ∧ r'.map g' = r.map g := by
  cases h with
  | @mk x s ws c nm e m hx hs he hc hnm hm =>
      obtain ⟨m', hm', hmark⟩ := hd.marks hus (List.cons_ne_nil _ _) hm
      rw [List.cons_append, List.cons_append, List.map_cons, List.map_cons, List.map_append] at hus
      obtain ⟨x', us', rfl, hx', hus⟩ := List.map_eq_cons_iff.mp hus
      obtain ⟨s', us'', rfl, hs', hus⟩ := List.map_eq_cons_iff.mp hus
      obtain ⟨ws', cs', rfl, hws, hcs⟩ := List.map_eq_append_iff.mp hus
      obtain ⟨c', cs'', rfl, hc', hcs⟩ := List.map_eq_cons_iff.mp hcs
      obtain rfl := List.map_eq_nil_iff.mp hcs
      obtain ⟨e', he', hmap⟩ := (derives_carry hd).expressions e ws ws' he hws
      obtain ⟨nm', hnm', hname⟩ :=
        @Reading.Carries.marks _ _ _ _ _ _ _ _ _ _ _ _ hd [x] [x'] nm (congrArg ([·]) hx')
          (List.cons_ne_nil _ _) hnm
      refine ⟨_, .mk ((hd.kind hx').trans hx) ((hd.kind hs').trans hs) he'
        ((hd.kind hc').trans hc) hnm' hm', ?_⟩
      rw [Rule.map, Rule.map, hd.text hx', hname, hmap, hmark]

end Carry

section Transport

variable {σ : Type} {d : Reading τ α} {d' : Reading σ β}

/-- Where any nodes can be marked, lexemes carry derivations over up to marks. -/
theorem Reading.carries_shapes (hmarks : ∀ us, ∃ m, d'.marks us m) :
    d.Carries d' d.lexeme d'.lexeme (fun _ => ()) (fun _ => ()) where
  lexeme := id
  marks := by
    intro ts us m _ _ _
    obtain ⟨m', hm'⟩ := hmarks us
    exact ⟨m', hm', rfl⟩

/-- **Derivations depend on lexemes only**: pieces with the same lexemes have a derivation
    of the same shape, if any nodes can be marked. -/
theorem Rule.Derives.transport (hmarks : ∀ us, ∃ m, d'.marks us m) {ts : List τ} {us : List σ}
    {r : Rule α} (h : Rule.Derives d ts r) (hus : us.map d'.lexeme = ts.map d.lexeme) :
    ∃ r', Rule.Derives d' us r' ∧ r'.shape = r.shape :=
  h.carry (Reading.carries_shapes hmarks) hus

theorem Rule.DerivesAll.transport (hmarks : ∀ us, ∃ m, d'.marks us m) {ts : List τ}
    {rs : List (Rule α)} (h : Rule.DerivesAll d ts rs) :
    ∀ us : List σ, us.map d'.lexeme = ts.map d.lexeme →
      ∃ rs', Rule.DerivesAll d' us rs' ∧ rs'.map Rule.shape = rs.map Rule.shape := by
  induction h with
  | nil =>
      intro us hus
      obtain rfl := List.map_eq_nil_iff.mp hus
      exact ⟨[], .nil, rfl⟩
  | @cons ts r vs rs hr _ ih =>
      intro us hus
      rw [List.map_append] at hus
      obtain ⟨ts', vs', rfl, hts, hvs⟩ := List.map_eq_append_iff.mp hus
      obtain ⟨r', hr', hshape⟩ := hr.transport hmarks hts
      obtain ⟨rs', hrs', hshapes⟩ := ih vs' hvs
      exact ⟨r' :: rs', .cons hr' hrs', by rw [List.map_cons, List.map_cons, hshape, hshapes]⟩

/-- Any tokens can be marked. -/
theorem placed_marks (us : List Token) : ∃ m, Reading.placed.marks us m :=
  ⟨_, rfl⟩

end Transport

end EbnfKit
