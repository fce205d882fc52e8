import EbnfKit.Proofs.Spelling

/-! # Printing — the canonical text of a tree and what it says

    Every tree has one canonical list of lexemes.  It derives the tree, whatever the marks
    in it, and the canonical text writes it:

      x.render writes x.lexemes,  and  x.lexemes derives x.shape

    All that is asked of the tree is that its lexemes are whole: names that look like names,
    and texts that end where their quotes say.

    Trees that were read from whole lexemes are printed in whole lexemes, though not always
    in the same ones: a count may have been written with zeros in front.  What the lexemes
    that are printed inherit is `Lasting`. -/

namespace EbnfKit

variable {τ α β γ : Type}

/-! ## Canonical lexemes -/

/-- The lexeme of a character that is one by itself. -/
def Lexeme.sign (c : Char) : Lexeme :=
  ⟨.ofChar c, [c]⟩

/-- A count and its sign, if there is one. -/
def countLexemes : Option Nat → List Lexeme
  | none => []
  | some n => [⟨.number, Text.ofNat n⟩, .sign '*']

mutual

/-- The lexemes of the expression as it is printed. -/
def Expression.lexemes : Expression α → List Lexeme
  | .mk _ t ts => t.lexemes ++ Term.lexemesOthers ts

/-- The lexemes of further alternatives, with a bar in front of each. -/
def Term.lexemesOthers : List (Term α) → List Lexeme
  | [] => []
  | t :: ts => .sign '|' :: (t.lexemes ++ Term.lexemesOthers ts)

/-- The lexemes of the term as it is printed. -/
def Term.lexemes : Term α → List Lexeme
  | .mk _ f fs => f.lexemes ++ Factor.lexemesOthers fs

/-- The lexemes of further factors, with a comma in front of each. -/
def Factor.lexemesOthers : List (Factor α) → List Lexeme
  | [] => []
  | f :: fs => .sign ',' :: (f.lexemes ++ Factor.lexemesOthers fs)

/-- The lexemes of the factor as it is printed. -/
def Factor.lexemes : Factor α → List Lexeme
  | .mk _ n p x => countLexemes n ++ p.lexemes ++ Primary.lexemesException x

/-- The lexemes of an exception that may be missing, with its sign in front. -/
def Primary.lexemesException : Option (Primary α) → List Lexeme
  | none => []
  | some p => .sign '-' :: p.lexemes

/-- The lexemes of the primary as it is printed. -/
def Primary.lexemes : Primary α → List Lexeme
  | .reference _ n => [⟨.identifier, n⟩]
  | .literal _ s q => [⟨.stringLiteral, q :: s ++ [q]⟩]
  | .bracketed _ b e => .sign b.opening :: (e.lexemes ++ [.sign b.closing])

end

theorem Term.lexemesOthers_eq_flatMap (ts : List (Term α)) :
    Term.lexemesOthers ts = ts.flatMap fun t => .sign '|' :: t.lexemes := by
  induction ts with
  | nil => rfl
  | cons t ts ih => rw [Term.lexemesOthers, ih, List.flatMap_cons, List.cons_append]

theorem Factor.lexemesOthers_eq_flatMap (fs : List (Factor α)) :
    Factor.lexemesOthers fs = fs.flatMap fun f => .sign ',' :: f.lexemes := by
  induction fs with
  | nil => rfl
  | cons f fs ih => rw [Factor.lexemesOthers, ih, List.flatMap_cons, List.cons_append]

/-- The lexemes of the rule as it is printed. -/
def Rule.lexemes (r : Rule α) : List Lexeme :=
  ⟨.identifier, r.name⟩ :: .sign '=' :: (r.body.lexemes ++ [.sign ';'])

/-- A lexeme as it can be printed: it looks as its kind says, it is no trivia, and it ends
    where its text does. -/
structure Lexeme.Whole (l : Lexeme) : Prop where
  lexical : l.Lexical
  significant : l.kind.isTrivia = false
  ends : l.Ends []

/-- A number fits in 32 bits. -/
def Lexeme.Fits (l : Lexeme) : Prop :=
  l.kind = .number → Text.decimal l.text < UInt32.size

/-- All of the lexemes are whole. -/
def Wholes (ls : List Lexeme) : Prop :=
  ∀ l ∈ ls, l.Whole

theorem wholes_append {ls ms : List Lexeme} : Wholes (ls ++ ms) ↔ Wholes ls ∧ Wholes ms :=
  List.forall_mem_append

theorem wholes_cons {l : Lexeme} {ls : List Lexeme} :
    Wholes (l :: ls) ↔ l.Whole ∧ Wholes ls :=
  List.forall_mem_cons

/-- Where items with a sign in front of all but the first are whole, each of them is. -/
theorem wholes_separated {f : β → List Lexeme} {c : Char} {x : β} {xs : List β}
    (h : Wholes (f x ++ xs.flatMap fun y => .sign c :: f y)) : ∀ y ∈ x :: xs, Wholes (f y) := by
  obtain ⟨hx, hxs⟩ := wholes_append.mp h
  refine List.forall_mem_cons.mpr ⟨hx, fun y hy => ?_⟩
  exact (wholes_cons.mp (List.forall_mem_flatMap.mp hxs y hy)).2

/-! ## Signs and numbers -/

/-- The signs of the grammar. -/
def signs : Text :=
  ['=', ';', ',', '|', '(', ')', '\x7b', '\x7d', '[', ']', '*', '-']

theorem Bracket.opening_mem_signs (b : Bracket) : b.opening ∈ signs := by
  cases b <;> decide

theorem Bracket.closing_mem_signs (b : Bracket) : b.closing ∈ signs := by
  cases b <;> decide

/-- A sign is no blank, no letter, no digit and no quote. -/
theorem sign_facts {c : Char} (h : c ∈ signs) :
    Unicode.isWhiteSpace c = false ∧ Unicode.isAlphabetic c = false ∧
      Lexeme.isDigit c = false ∧ c ≠ '"' ∧ c ≠ '\'' ∧ (TokenKind.ofChar c).isTrivia = false := by
  have hall : (signs.all fun c => !Unicode.isWhiteSpace c && !Unicode.isAlphabetic c &&
      !Lexeme.isDigit c && c != '"' && c != '\'' && !(TokenKind.ofChar c).isTrivia) = true := by
    decide +kernel
  simpa [and_assoc] using List.all_eq_true.mp hall c h

theorem Lexeme.sign_whole {c : Char} (h : c ∈ signs) : (Lexeme.sign c).Whole := by
  obtain ⟨hw, ha, hd, hq, hq', hk⟩ := sign_facts h
  -- what a lexeme looks like and where it ends goes by its kind, so sign by sign
  refine ⟨?_, hk, ?_⟩
  · simp only [signs, List.mem_cons, List.not_mem_nil, or_false] at h
    rcases h with rfl | rfl | rfl | rfl | rfl | rfl | rfl | rfl | rfl | rfl | rfl | rfl <;>
      exact ⟨_, rfl, rfl, hw, ha, hd, hq, hq'⟩
  · simp only [signs, List.mem_cons, List.not_mem_nil, or_false] at h
    rcases h with rfl | rfl | rfl | rfl | rfl | rfl | rfl | rfl | rfl | rfl | rfl | rfl <;>
      simp [Lexeme.Ends, sign, TokenKind.ofChar]

theorem Lexeme.sign_fits {c : Char} (h : c ∈ signs) : (Lexeme.sign c).Fits := by
  have hall : (signs.all fun c => TokenKind.ofChar c != .number) = true := by decide
  intro hk
  exact absurd hk (bne_iff_ne.mp (List.all_eq_true.mp hall c h))

theorem Text.decimal_ofNat (n : Nat) : Text.decimal (Text.ofNat n) = n :=
  Nat.ofDigitChars_ten_toDigits

theorem Lexeme.number_whole (n : Nat) : Lexeme.Whole ⟨.number, Text.ofNat n⟩ := by
  refine ⟨⟨Nat.toDigits_ne_nil, ?_⟩, rfl, fun _ h => nomatch h⟩
  intro c hc
  have hdigit := Nat.isDigit_of_mem_toDigits (by decide) (by decide) hc
  simpa [Char.isDigit, isDigit, Char.le_def] using hdigit

theorem Lexeme.number_fits {n : Nat} (h : n < UInt32.size) :
    Lexeme.Fits ⟨.number, Text.ofNat n⟩ := by
  intro _
  rw [Text.decimal_ofNat]
  exact h

/-! ## What is printed -/

/-- The body of the piece, if it is a comment. -/
def Piece.body? : Piece → Option Text
  | .comment body => some body
  | _ => none

/-- The text writes the lexemes, and no comments. -/
def Plain (x : Text) (ls : List Lexeme) : Prop :=
  ∃ ps : List Piece, (∀ p ∈ ps, p.Valid ∧ p.body? = none) ∧ ps.flatMap Piece.text = x ∧
    ps.filterMap Piece.lexeme? = ls

namespace Plain

variable {x y : Text} {ls ms : List Lexeme}

theorem writes (h : Plain x ls) : Writes x ls := by
  obtain ⟨ps, hps, htext, hlexemes⟩ := h
  exact ⟨ps, fun p hp => (hps p hp).1, htext, hlexemes⟩

theorem nil : Plain [] [] :=
  ⟨[], fun _ h => (nomatch h), rfl, rfl⟩

theorem append (hx : Plain x ls) (hy : Plain y ms) : Plain (x ++ y) (ls ++ ms) := by
  obtain ⟨ps, hps, rfl, rfl⟩ := hx
  obtain ⟨qs, hqs, rfl, rfl⟩ := hy
  exact ⟨ps ++ qs, List.forall_mem_append.mpr ⟨hps, hqs⟩, List.flatMap_append,
    List.filterMap_append⟩

theorem whole {l : Lexeme} (h : l.Whole) : Plain l.text [l] :=
  ⟨[.lexeme l], List.forall_mem_singleton.mpr ⟨⟨h.lexical, h.significant⟩, rfl⟩,
    List.append_nil _, rfl⟩

theorem sign {c : Char} (h : c ∈ signs) : Plain [c] [.sign c] :=
  whole (Lexeme.sign_whole h)

theorem space : Plain [' '] [] :=
  ⟨[.blank ' '], List.forall_mem_singleton.mpr
    ⟨show Unicode.isWhiteSpace ' ' = true by decide, rfl⟩, rfl, rfl⟩

/-- A sign with a space on either side. -/
theorem spaced {c : Char} (h : c ∈ signs) : Plain [' ', c, ' '] [.sign c] :=
  space.append ((sign h).append space)

/-- Items with a separator in front of all but the first. -/
theorem separated {separator : Text} {c : Char} (h : Plain separator [.sign c]) {f : β → Text}
    {g : β → List Lexeme} {x : β} {xs : List β} (hxs : ∀ y ∈ x :: xs, Plain (f y) (g y)) :
    Plain (f x ++ xs.flatMap fun y => separator ++ f y)
      (g x ++ xs.flatMap fun y => .sign c :: g y) := by
  rw [List.forall_mem_cons] at hxs
  refine hxs.1.append ?_
  replace hxs := hxs.2
  induction xs with
  | nil => exact .nil
  | cons y ys ih =>
      obtain ⟨hy, hys⟩ := List.forall_mem_cons.mp hxs
      exact (h.append hy).append (ih hys)

end Plain

/-- **The canonical text writes the canonical lexemes**, and no comments. -/
theorem render_plain :
    Hereditary (fun e : Expression α => Wholes e.lexemes → Plain e.render e.lexemes)
      (fun t => Wholes t.lexemes → Plain t.render t.lexemes)
      (fun f => Wholes f.lexemes → Plain f.render f.lexemes)
      (fun p => Wholes p.lexemes → Plain p.render p.lexemes) where
  expression := by
    intro m t ts ih hwhole
    rw [Expression.lexemes, Term.lexemesOthers_eq_flatMap] at hwhole ⊢
    rw [Expression.render, Term.renderOthers_eq_flatMap]
    exact .separated (.spaced (by decide)) fun u hu => ih u hu (wholes_separated hwhole u hu)
  term := by
    intro m f fs ih hwhole
    rw [Term.lexemes, Factor.lexemesOthers_eq_flatMap] at hwhole ⊢
    rw [Term.render, Factor.renderOthers_eq_flatMap]
    exact .separated ((Plain.sign (by decide)).append .space) fun g hg =>
      ih g hg (wholes_separated hwhole g hg)
  factor := by
    intro m n p x hp hx hwhole
    obtain ⟨hwnp, hwx⟩ := wholes_append.mp hwhole
    obtain ⟨hwn, hwp⟩ := wholes_append.mp hwnp
    have hexception : Plain (Primary.renderException x) (Primary.lexemesException x) := by
      cases x with
      | none => exact .nil
      | some q => exact (Plain.spaced (by decide)).append (hx q rfl (wholes_cons.mp hwx).2)
    cases n with
    | none => exact (hp hwp).append hexception
    | some n =>
        have hcount := (Plain.whole (wholes_cons.mp hwn).1).append
          (@Plain.spaced '*' (by decide))
        exact (hcount.append (hp hwp)).append hexception
  reference := by
    intro m n hwhole
    exact Plain.whole (wholes_cons.mp hwhole).1
  literal := by
    intro m s q hwhole
    exact Plain.whole (wholes_cons.mp hwhole).1
  bracketed := by
    intro m b e he hwhole
    have hwe := (wholes_append.mp (wholes_cons.mp hwhole).2).1
    exact (((Plain.sign b.opening_mem_signs).append .space).append (he hwe)).append
      (Plain.space.append (.sign b.closing_mem_signs))

/-- A rule writes its lexemes. -/
theorem Rule.render_writes {r : Rule α} (h : Wholes r.lexemes) : Writes r.render r.lexemes := by
  obtain ⟨hname, hrest⟩ := wholes_cons.mp h
  obtain ⟨hbody, -⟩ := wholes_append.mp (wholes_cons.mp hrest).2
  have hw := render_plain.expressions r.body hbody
  exact ((((Plain.whole hname).append (.spaced (by decide))).append hw).append
    (Plain.space.append (.sign (by decide)))).writes

/-! ## What the lexemes derive -/

/-- A whole string has a closing quote. -/
theorem quotes_of_whole {s : Text} {q : Char}
    (h : Lexeme.Whole ⟨.stringLiteral, q :: s ++ [q]⟩) : Quotes (q :: s ++ [q]) q s := by
  have hclosed : Lexeme.isClosed (q :: s ++ [q]) = true := h.ends
  rw [Quotes, if_pos hclosed]

theorem countLexemes_counted (n : Option Nat) : Counted .bare (countLexemes n) n := by
  cases n with
  | none => exact .none
  | some n =>
      have h := @Counted.some _ _ Reading.bare ⟨.number, Text.ofNat n⟩ (.sign '*') rfl rfl
      rwa [show Reading.bare.text ⟨.number, Text.ofNat n⟩ = Text.ofNat n from rfl,
        Text.decimal_ofNat] at h

/-- Items with the same separator in front of all but the first. -/
theorem Separated.of_items {separates : τ → Prop} {item : List τ → γ → Prop} {s : τ}
    (hs : separates s) {f : β → List τ} {g : β → γ} {x : β} {xs : List β}
    (hxs : ∀ y ∈ x :: xs, item (f y) (g y)) :
    Separated separates item (f x ++ xs.flatMap fun y => s :: f y) (g x :: xs.map g) := by
  -- the first item changes from step to step
  induction xs generalizing x with
  | nil =>
      rw [List.flatMap_nil, List.append_nil]
      exact .one (hxs x List.mem_cons_self)
  | cons y ys ih =>
      obtain ⟨hx, hys⟩ := List.forall_mem_cons.mp hxs
      exact .cons hx hs (ih hys)

/-- **The canonical lexemes derive the tree.** -/
theorem lexemes_derive :
    Hereditary (fun e : Expression α => Wholes e.lexemes → Expression.Derives .bare e.lexemes e.shape)
      (fun t => Wholes t.lexemes → Term.Derives .bare t.lexemes t.shape)
      (fun f => Wholes f.lexemes → Factor.Derives .bare f.lexemes f.shape)
      (fun p => Wholes p.lexemes → Primary.Derives .bare p.lexemes p.shape) where
  expression := by
    intro m t ts ih hwhole
    rw [Expression.lexemes, Term.lexemesOthers_eq_flatMap] at hwhole ⊢
    rw [Expression.shape_mk]
    refine .mk (.of_items ?_ fun u hu => ih u hu (wholes_separated hwhole u hu)) trivial
    rfl
  term := by
    intro m f fs ih hwhole
    rw [Term.lexemes, Factor.lexemesOthers_eq_flatMap] at hwhole ⊢
    rw [Term.shape_mk]
    refine .mk (.of_items ?_ fun g hg => ih g hg (wholes_separated hwhole g hg)) trivial
    rfl
  factor := by
    intro m n p x hp hx hwhole
    obtain ⟨hwnp, hwx⟩ := wholes_append.mp hwhole
    obtain ⟨-, hwp⟩ := wholes_append.mp hwnp
    rw [Factor.shape_mk]
    refine .mk (countLexemes_counted n) (hp hwp) ?_ trivial
    cases x with
    | none => exact .none
    | some q => exact .some rfl (hx q rfl (wholes_cons.mp hwx).2)
  reference := by
    intro m n _
    exact .reference rfl trivial
  literal := by
    intro m s q hwhole
    exact .literal rfl (quotes_of_whole (wholes_cons.mp hwhole).1) trivial
  bracketed := by
    intro m b e he hwhole
    have hwe := (wholes_append.mp (wholes_cons.mp hwhole).2).1
    have hb : b.Encloses (TokenKind.ofChar b.opening) (TokenKind.ofChar b.closing) := by
      cases b <;> constructor
    exact .bracketed hb (he hwe) trivial

theorem Rule.lexemes_derive {r : Rule α} (h : Wholes r.lexemes) :
    Rule.Derives .bare r.lexemes r.shape := by
  obtain ⟨hname, hrest⟩ := wholes_cons.mp h
  obtain ⟨hbody, -⟩ := wholes_append.mp (wholes_cons.mp hrest).2
  exact .mk rfl rfl (EbnfKit.lexemes_derive.expressions r.body hbody) rfl trivial trivial

/-! ## Trees that were read -/

/-- A property of lexemes that printing keeps: signs have it, a number has it if it is
    written in another way, and only a closed string can. -/
structure Lasting (q : Lexeme → Prop) : Prop where
  sign : ∀ c ∈ signs, q (.sign c)
  number : ∀ l, l.kind = .number → q l → q ⟨.number, Text.ofNat (Text.decimal l.text)⟩
  closed : ∀ l, l.kind = .stringLiteral → q l → Lexeme.isClosed l.text = true

/-- Whole lexemes are printed as such. -/
theorem lasting_whole : Lasting Lexeme.Whole where
  sign := by
    intro c hc
    exact Lexeme.sign_whole hc
  number := by
    intro l _ _
    exact Lexeme.number_whole _
  closed := by
    intro l hk h
    have hends := h.ends
    rwa [Lexeme.Ends, hk] at hends

/-- So are those that fit besides. -/
theorem lasting_fits : Lasting fun l => l.Whole ∧ l.Fits where
  sign := by
    intro c hc
    exact ⟨Lexeme.sign_whole hc, Lexeme.sign_fits hc⟩
  number := by
    intro l hk h
    exact ⟨Lexeme.number_whole _, Lexeme.number_fits (h.2 hk)⟩
  closed := by
    intro l hk h
    exact lasting_whole.closed l hk h.1

section Lasting

variable {d : Reading τ α} {q : Lexeme → Prop}

theorem Separated.lasting (hq : Lasting q) {separates : τ → Prop} {item : List τ → β → Prop}
    {lexemesOf : β → List Lexeme} {c : Char} (hc : c ∈ signs) {ts : List τ} {x : β} {xs : List β}
    (h : Separated separates item ts (x :: xs))
    (hitem : ∀ y ∈ x :: xs, ∀ us, item us y → (∀ u ∈ us, q (d.lexeme u)) → ∀ l ∈ lexemesOf y, q l)
    (hts : ∀ t ∈ ts, q (d.lexeme t)) :
    ∀ l ∈ lexemesOf x ++ xs.flatMap fun y => .sign c :: lexemesOf y, q l := by
  have hparts : ∀ y ∈ x :: xs, ∀ l ∈ lexemesOf y, q l := by
    intro y hy
    obtain ⟨us, hus, huy⟩ := h.sublist hy
    exact hitem y hy us huy fun u hu => hts u (hus.subset hu)
  obtain ⟨hx, hxs⟩ := List.forall_mem_cons.mp hparts
  exact List.forall_mem_append.mpr ⟨hx, List.forall_mem_flatMap.mpr fun y hy =>
    List.forall_mem_cons.mpr ⟨hq.sign c hc, hxs y hy⟩⟩

theorem Counted.lasting (hq : Lasting q) {ts : List τ} {n : Option Nat} (h : Counted d ts n)
    (hts : ∀ t ∈ ts, q (d.lexeme t)) : ∀ l ∈ countLexemes n, q l := by
  cases h with
  | none => exact List.forall_mem_nil _
  | @some x s hx _ =>
      -- its zeros in front are gone
      have hnumber := hq.number _ hx (hts x List.mem_cons_self)
      exact List.forall_mem_cons.mpr
        ⟨hnumber, List.forall_mem_singleton.mpr (hq.sign '*' (by decide))⟩

theorem Signed.lasting (hq : Lasting q) {sign : τ → Prop} {item : List τ → Primary α → Prop}
    {ts : List τ} {x : Option (Primary α)} (h : Signed sign item ts x)
    (hitem : ∀ p ∈ x, ∀ us, item us p → (∀ u ∈ us, q (d.lexeme u)) → ∀ l ∈ p.lexemes, q l)
    (hts : ∀ t ∈ ts, q (d.lexeme t)) : ∀ l ∈ Primary.lexemesException x, q l := by
  cases h with
  | none => exact List.forall_mem_nil _
  | @some s us p _ hp =>
      exact List.forall_mem_cons.mpr ⟨hq.sign '-' (by decide),
        hitem p rfl us hp (List.forall_mem_cons.mp hts).2⟩

/-- **What is printed inherits the properties of what was read.** -/
theorem derives_lasting (hq : Lasting q) :
    Hereditary
      (fun e => ∀ ts, Expression.Derives d ts e → (∀ t ∈ ts, q (d.lexeme t)) → ∀ l ∈ e.lexemes, q l)
      (fun t => ∀ ts, Term.Derives d ts t → (∀ t ∈ ts, q (d.lexeme t)) → ∀ l ∈ t.lexemes, q l)
      (fun f => ∀ ts, Factor.Derives d ts f → (∀ t ∈ ts, q (d.lexeme t)) → ∀ l ∈ f.lexemes, q l)
      (fun p => ∀ ts, Primary.Derives d ts p → (∀ t ∈ ts, q (d.lexeme t)) → ∀ l ∈ p.lexemes, q l)
    where
  expression := by
    intro m t us ih ts h hts
    cases h with
    | mk hsep _ =>
        rw [Expression.lexemes, Term.lexemesOthers_eq_flatMap]
        exact hsep.lasting hq (by decide) ih hts
  term := by
    intro m f gs ih ts h hts
    cases h with
    | mk hsep _ =>
        rw [Term.lexemes, Factor.lexemesOthers_eq_flatMap]
        exact hsep.lasting hq (by decide) ih hts
  factor := by
    intro m n p x hp hx ts h hts
    cases h with
    | @mk cs ps xs _ _ _ _ hcount hprimary hsigned _ =>
        obtain ⟨hcps, hxs⟩ := List.forall_mem_append.mp hts
        obtain ⟨hcs, hps⟩ := List.forall_mem_append.mp hcps
        exact List.forall_mem_append.mpr
          ⟨List.forall_mem_append.mpr ⟨hcount.lasting hq hcs, hp ps hprimary hps⟩,
            hsigned.lasting hq hx hxs⟩
  reference := by
    intro m n ts h hts
    cases h with
    | @reference y _ hk _ =>
        rw [Primary.lexemes, show (⟨.identifier, d.text y⟩ : Lexeme) = d.lexeme y from
          congrArg (Lexeme.mk · (d.text y)) hk.symm]
        exact List.forall_mem_singleton.mpr (hts y List.mem_cons_self)
  literal := by
    intro m s q' ts h hts
    cases h with
    | @literal y _ _ _ hk hquotes _ =>
        have hk' : (d.lexeme y).kind = .stringLiteral := hk
        -- a closed string is printed as it was read
        have hclosed : Lexeme.isClosed (d.text y) = true :=
          hq.closed _ hk' (hts y List.mem_cons_self)
        rw [Quotes, if_pos hclosed] at hquotes
        rw [Primary.lexemes, ← hquotes, ← hk']
        exact List.forall_mem_singleton.mpr (hts y List.mem_cons_self)
  bracketed := by
    intro m b e ih ts h hts
    cases h with
    | @bracketed o ws c _ _ _ _ he _ =>
        have hws := (List.forall_mem_append.mp (List.forall_mem_cons.mp hts).2).1
        exact List.forall_mem_cons.mpr ⟨hq.sign _ b.opening_mem_signs, List.forall_mem_append.mpr
          ⟨ih ws he hws, List.forall_mem_singleton.mpr (hq.sign _ b.closing_mem_signs)⟩⟩

theorem Rule.Derives.lasting (hq : Lasting q) {ts : List τ} {r : Rule α}
    (h : Rule.Derives d ts r) (hts : ∀ t ∈ ts, q (d.lexeme t)) : ∀ l ∈ r.lexemes, q l := by
  cases h with
  | @mk x s ws c nm e m hx hs he hc _ _ =>
      obtain ⟨hname, hsws⟩ := List.forall_mem_cons.mp hts
      have hws := (List.forall_mem_append.mp (List.forall_mem_cons.mp hsws).2).1
      have hname' : q ⟨.identifier, d.text x⟩ := by
        rwa [show (⟨.identifier, d.text x⟩ : Lexeme) = d.lexeme x from
          congrArg (Lexeme.mk · (d.text x)) hx.symm]
      exact List.forall_mem_cons.mpr ⟨hname', List.forall_mem_cons.mpr ⟨hq.sign '=' (by decide),
        List.forall_mem_append.mpr ⟨(derives_lasting hq).expressions e ws he hws,
          List.forall_mem_singleton.mpr (hq.sign ';' (by decide))⟩⟩⟩

end Lasting

end EbnfKit
