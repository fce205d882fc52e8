import EbnfKit.Proofs.Printing

/-! # Adjacency — sentences keep their lexemes apart

    In a sentence no lexeme runs on into the next, even where nothing stands between them.
    After a name or a number there is always a sign, and an opening parenthesis is never
    followed by an asterisk.

      a sentence in front of a sign, or of nothing, is loose

    So a text that writes a sentence is scanned as that sentence, however it is spaced. -/

namespace EbnfKit

/-! ## Signs -/

/-- The kind of a sign. -/
def TokenKind.IsSign (k : TokenKind) : Prop :=
  ∃ c ∈ signs, TokenKind.ofChar c = k

namespace Lexeme

/-- A sign is written in one way. -/
theorem eq_sign {l : Lexeme} (h : l.Lexical) {c : Char} (hc : c ∈ signs)
    (hkind : TokenKind.ofChar c = l.kind) : l = .sign c := by
  have hsingle : ∃ d, l.text = [d] ∧ TokenKind.ofChar d = l.kind := by
    rw [Lexical, ← hkind] at h
    simp only [signs, List.mem_cons, List.not_mem_nil, or_false] at hc
    rcases hc with rfl | rfl | rfl | rfl | rfl | rfl | rfl | rfl | rfl | rfl | rfl | rfl <;>
      exact h.imp fun d hd => ⟨hd.1, hkind ▸ hd.2.1⟩
  obtain ⟨d, htext, hd⟩ := hsingle
  have hsame : d = c := by
    rw [← hkind] at hd
    simp only [signs, List.mem_cons, List.not_mem_nil, or_false] at hc
    rcases hc with rfl | rfl | rfl | rfl | rfl | rfl | rfl | rfl | rfl | rfl | rfl | rfl <;>
      (unfold TokenKind.ofChar at hd; split at hd <;> first | rfl | cases hd)
  obtain ⟨kind, text⟩ := l
  rw [← hsame] at hkind ⊢
  rw [sign, hkind]
  exact congrArg (Lexeme.mk kind) htext

theorem sign_of_kind {l : Lexeme} (h : l.Lexical) (hk : l.kind.IsSign) :
    ∃ c ∈ signs, l = .sign c := by
  obtain ⟨c, hc, hkind⟩ := hk
  exact ⟨c, hc, eq_sign h hc hkind⟩

/-- What ends before nothing ends before a sign, but for a parenthesis before an
    asterisk. -/
theorem Ends.sign {l : Lexeme} (h : l.Ends []) (hl : l.kind.isTrivia = false) {c : Char}
    (hc : c ∈ signs) (hparen : l.kind = .leftParen → c ≠ '*') (y : Text) : l.Ends (c :: y) := by
  have hall : (signs.all fun c => !isNameChar c) = true := by
    decide +kernel
  have hname : isNameChar c = false := by
    simpa using List.all_eq_true.mp hall c hc
  have hdigit := (sign_facts hc).2.2.1
  unfold Ends at h ⊢
  split <;> simp_all [TokenKind.isTrivia]

/-- Only one kind of lexeme begins with an asterisk. -/
theorem head_ne_star {l : Lexeme} (h : l.Whole) (hk : l.kind ≠ .repetitionSymbol) :
    l.text.head? ≠ some '*' := by
  have hstar : Unicode.isAlphabetic '*' = false ∧ isDigit '*' = false := by
    decide +kernel
  obtain ⟨kind, text⟩ := l
  obtain ⟨hlex, htrivia, -⟩ := h
  intro hhead
  obtain ⟨cs, rfl⟩ : ∃ cs, text = '*' :: cs := by
    cases text with
    | nil => cases hhead
    | cons c cs => exact ⟨cs, by rw [Option.some.inj hhead]⟩
  unfold Lexical at hlex
  split at hlex
  case h_2 =>
    obtain ⟨c, cs', htext, -, halpha, -⟩ := hlex
    rw [← (List.cons.inj htext).1, hstar.1] at halpha
    cases halpha
  case h_3 =>
    have hdigit := hlex.2 '*' List.mem_cons_self
    rw [hstar.2] at hdigit
    cases hdigit
  case h_4 =>
    obtain ⟨q, body, htext, hq, -⟩ := hlex
    rw [← (List.cons.inj htext).1] at hq
    revert hq
    decide
  case h_8 => exact hlex
  case h_9 =>
    obtain ⟨c, htext, hkind, -⟩ := hlex
    rw [← (List.cons.inj htext).1] at hkind
    exact hk hkind.symm
  all_goals simp_all [TokenKind.isTrivia]

end Lexeme

/-- A kind that a lexeme of kind `k` does not run on into. -/
def TokenKind.Precedes (k k' : TokenKind) : Prop :=
  match k with
  | .identifier | .number => k'.IsSign
  | .leftParen => k' ≠ .repetitionSymbol
  | _ => True

theorem Loose.cons {l : Lexeme} {ls : List Lexeme} (hl : l.Whole) (hls : Wholes ls)
    (h : ∀ m ∈ ls.head?, l.kind.Precedes m.kind) (hloose : Loose ls) : Loose (l :: ls) := by
  refine ⟨?_, hloose⟩
  cases ls with
  | nil => exact hl.ends
  | cons m ms =>
      have hm := hls m List.mem_cons_self
      have hprecedes := h m rfl
      have hsign : m.kind.IsSign → l.kind ≠ .leftParen → l.Ends (m.text ++ spelled ms) := by
        intro hkind hparen
        obtain ⟨c, hc, rfl⟩ := Lexeme.sign_of_kind hm.lexical hkind
        exact hl.ends.sign hl.significant hc (fun h => absurd h hparen) _
      obtain ⟨c, cs, htext⟩ := List.exists_cons_of_ne_nil hm.lexical.ne_nil
      show l.Ends (m.text ++ spelled ms)
      unfold TokenKind.Precedes at hprecedes
      split at hprecedes
      · rename_i hk
        exact hsign hprecedes (by rw [hk]; decide)
      · rename_i hk
        exact hsign hprecedes (by rw [hk]; decide)
      · rename_i hk
        have hhead := Lexeme.head_ne_star hm hprecedes
        rw [Lexeme.Ends, hk]
        rw [htext] at hhead ⊢
        exact hhead
      · rename_i hi hn hp
        have hends := hl.ends
        have hsig := hl.significant
        unfold Lexeme.Ends at hends ⊢
        split <;> simp_all [TokenKind.isTrivia]

/-! ## Sentences -/

/-- What follows is nothing or begins with a sign. -/
def SignNext (ls : List Lexeme) : Prop :=
  ∀ l ∈ ls.head?, l.kind.IsSign

/-- The lexemes are there, and no asterisk comes first. -/
def Starts (ls : List Lexeme) : Prop :=
  ∃ l ms, ls = l :: ms ∧ l.kind ≠ .repetitionSymbol

/-- `ls` is loose in front of whatever is loose and begins with a sign. -/
def LooseBefore (ls : List Lexeme) : Prop :=
  Starts ls ∧ ∀ rest, Loose rest → Wholes rest → SignNext rest → Loose (ls ++ rest)

theorem isSign_ofChar {c : Char} (h : c ∈ signs) : (TokenKind.ofChar c).IsSign :=
  ⟨c, h, rfl⟩

/-- A sign other than the opening parenthesis ends anywhere. -/
theorem Loose.sign {l : Lexeme} {ls : List Lexeme} (hl : l.Whole) (hk : l.kind.IsSign)
    (hparen : l.kind = .leftParen → Starts ls) (hls : Wholes ls) (hloose : Loose ls) :
    Loose (l :: ls) := by
  refine .cons hl hls ?_ hloose
  intro m hm
  obtain ⟨c, hc, hkind⟩ := hk
  by_cases hp : l.kind = .leftParen
  · obtain ⟨m', ms, rfl, hstar⟩ := hparen hp
    rw [hp, ← Option.some.inj hm]
    exact hstar
  · rw [← hkind] at hp ⊢
    simp only [signs, List.mem_cons, List.not_mem_nil, or_false] at hc
    rcases hc with rfl | rfl | rfl | rfl | rfl | rfl | rfl | rfl | rfl | rfl | rfl | rfl <;>
      trivial

theorem Starts.append {ls : List Lexeme} (h : Starts ls) (ms : List Lexeme) :
    Starts (ls ++ ms) := by
  obtain ⟨l, ks, rfl, hk⟩ := h
  exact ⟨l, ks ++ ms, rfl, hk⟩

/-- Whatever is loose in front of a sign is so in front of one and what follows it. -/
theorem LooseBefore.sign_next {ls rest : List Lexeme} {s : Lexeme} (h : LooseBefore ls)
    (hs : s.Whole) (hsign : s.kind.IsSign) (hparen : s.kind ≠ .leftParen) (hw : Wholes rest)
    (hrest : Loose rest) : Loose (ls ++ s :: rest) := by
  refine h.2 _ ?_ (wholes_cons.mpr ⟨hs, hw⟩) ?_
  · exact .sign hs hsign (fun hp => absurd hp hparen) hw hrest
  · intro l hl
    rw [← Option.some.inj hl]
    exact hsign

theorem LooseBefore.separated {β : Type} {kind : TokenKind} (hkind : kind.IsSign)
    (hparen : kind ≠ .leftParen) {item : List Lexeme → β → Prop} {ls : List Lexeme} {xs : List β}
    (h : Separated (fun s => Reading.bare.kind s = kind) item ls xs)
    (hitem : ∀ x ∈ xs, ∀ ls, item ls x → Wholes ls → LooseBefore ls) (hls : Wholes ls) :
    LooseBefore ls := by
  induction h with
  | one hx => exact hitem _ List.mem_cons_self _ hx hls
  | @cons ks x s ms xs hx hs _ ih =>
      obtain ⟨hks, hsms⟩ := wholes_append.mp hls
      obtain ⟨hsw, hms⟩ := wholes_cons.mp hsms
      have hfirst := hitem x List.mem_cons_self ks hx hks
      obtain ⟨-, hmore⟩ := ih (fun y hy => hitem y (List.mem_cons_of_mem x hy)) hms
      have hs' : s.kind = kind := hs
      refine ⟨hfirst.1.append _, ?_⟩
      intro rest hrest hrestw hnext
      rw [List.append_assoc]
      exact hfirst.sign_next hsw (hs' ▸ hkind) (hs' ▸ hparen) (wholes_append.mpr ⟨hms, hrestw⟩)
        (hmore rest hrest hrestw hnext)

/-- A lexeme that signs do not continue, and that is no asterisk, is loose by itself. -/
theorem LooseBefore.single {l : Lexeme} (hl : l.Whole) (hstar : l.kind ≠ .repetitionSymbol)
    (hsigns : ∀ k : TokenKind, k.IsSign → l.kind.Precedes k) : LooseBefore [l] := by
  refine ⟨⟨l, [], rfl, hstar⟩, ?_⟩
  intro rest hrest hrestw hnext
  exact .cons hl hrestw (fun k hk => hsigns k.kind (hnext k hk)) hrest

/-- An exception goes on behind its sign. -/
theorem LooseBefore.signed {β : Type} {item : List Lexeme → β → Prop} {ls xs : List Lexeme}
    {x : Option β} (hls : LooseBefore ls)
    (h : Signed (fun s => Reading.bare.kind s = .exceptionSymbol) item xs x)
    (hitem : ∀ q ∈ x, ∀ ls, item ls q → Wholes ls → LooseBefore ls) (hxs : Wholes xs) :
    LooseBefore (ls ++ xs) := by
  refine ⟨hls.1.append xs, ?_⟩
  intro rest hrest hrestw hnext
  rw [List.append_assoc]
  cases h with
  | none => exact hls.2 rest hrest hrestw hnext
  | @some s ws q hs hq =>
      obtain ⟨hsw, hws⟩ := wholes_cons.mp hxs
      obtain ⟨-, hmore⟩ := hitem q rfl ws hq hws
      have hs' : s.kind = .exceptionSymbol := hs
      have hsign : s.kind.IsSign := hs' ▸ isSign_ofChar (by decide : '-' ∈ signs)
      exact hls.sign_next hsw hsign (fun hp => nomatch hs'.symm.trans hp)
        (wholes_append.mpr ⟨hws, hrestw⟩) (hmore rest hrest hrestw hnext)

/-- A count ends before its asterisk, and that is a sign like any other. -/
theorem LooseBefore.counted {cs ls : List Lexeme} {n : Option Nat} (hls : LooseBefore ls)
    (h : Counted .bare cs n) (hcs : Wholes cs) (hw : Wholes ls) : LooseBefore (cs ++ ls) := by
  cases h with
  | none => exact hls
  | @some l s hl hs =>
      obtain ⟨hlw, hsw⟩ := wholes_cons.mp hcs
      have hsw := (wholes_cons.mp hsw).1
      have hl' : l.kind = .number := hl
      have hs' : s.kind = .repetitionSymbol := hs
      have hsign : s.kind.IsSign := hs' ▸ isSign_ofChar (by decide : '*' ∈ signs)
      refine ⟨⟨l, _, rfl, by rw [hl']; decide⟩, ?_⟩
      intro rest hrest hrestw hnext
      have hw' : Wholes (ls ++ rest) := wholes_append.mpr ⟨hw, hrestw⟩
      refine .cons hlw (wholes_cons.mpr ⟨hsw, hw'⟩) ?_ ?_
      · intro k hk
        rw [← Option.some.inj hk, hl']
        exact hsign
      · exact .sign hsw hsign (fun hp => nomatch hs'.symm.trans hp) hw'
          (hls.2 rest hrest hrestw hnext)

/-- Brackets are signs. -/
theorem Bracket.Encloses.signs {b : Bracket} {k k' : TokenKind} (h : b.Encloses k k') :
    (k.IsSign ∧ k ≠ .repetitionSymbol) ∧ k'.IsSign ∧ k' ≠ .leftParen := by
  cases h with
  | group =>
      exact ⟨⟨isSign_ofChar (by decide : '(' ∈ EbnfKit.signs), by decide⟩,
        isSign_ofChar (by decide : ')' ∈ EbnfKit.signs), by decide⟩
  | optional =>
      exact ⟨⟨isSign_ofChar (by decide : '[' ∈ EbnfKit.signs), by decide⟩,
        isSign_ofChar (by decide : ']' ∈ EbnfKit.signs), by decide⟩
  | repetition =>
      exact ⟨⟨isSign_ofChar (by decide : '\x7b' ∈ EbnfKit.signs), by decide⟩,
        isSign_ofChar (by decide : '\x7d' ∈ EbnfKit.signs), by decide⟩

/-- **Sentences are loose**, in front of any sign. -/
theorem derives_loose :
    Hereditary (fun e => ∀ ls, Expression.Derives .bare ls e → Wholes ls → LooseBefore ls)
      (fun t => ∀ ls, Term.Derives .bare ls t → Wholes ls → LooseBefore ls)
      (fun f => ∀ ls, Factor.Derives .bare ls f → Wholes ls → LooseBefore ls)
      (fun p => ∀ ls, Primary.Derives .bare ls p → Wholes ls → LooseBefore ls) where
  expression := by
    intro m t ts ih ls h hls
    cases h with
    | mk hsep _ =>
        exact .separated (isSign_ofChar (by decide : '|' ∈ signs)) (by decide) hsep ih hls
  term := by
    intro m f fs ih ls h hls
    cases h with
    | mk hsep _ =>
        exact .separated (isSign_ofChar (by decide : ',' ∈ signs)) (by decide) hsep ih hls
  factor := by
    intro m n p x hp hx ls h hls
    cases h with
    | @mk cs ps xs _ _ _ _ hcount hprimary hsigned _ =>
        obtain ⟨hcps, hxs⟩ := wholes_append.mp hls
        obtain ⟨hcs, hps⟩ := wholes_append.mp hcps
        have hbase := (hp ps hprimary hps).signed hsigned hx hxs
        rw [List.append_assoc]
        exact hbase.counted hcount hcs (wholes_append.mpr ⟨hps, hxs⟩)
  reference := by
    intro m n ls h hls
    cases h with
    | @reference l _ hk _ =>
        have hk' : l.kind = .identifier := hk
        refine .single (wholes_cons.mp hls).1 (by rw [hk']; decide) fun k hsign => ?_
        rw [hk']
        exact hsign
  literal := by
    intro m s q ls h hls
    cases h with
    | @literal l _ _ _ hk _ _ =>
        have hk' : l.kind = .stringLiteral := hk
        refine .single (wholes_cons.mp hls).1 (by rw [hk']; decide) fun k _ => ?_
        rw [hk']
        trivial
  bracketed := by
    intro m b e ih ls h hls
    cases h with
    | @bracketed o ws c _ _ _ hb he _ =>
        obtain ⟨how, hwc⟩ := wholes_cons.mp hls
        obtain ⟨hws, hcw⟩ := wholes_append.mp hwc
        have hinner := ih ws he hws
        obtain ⟨hopen, hclose⟩ := hb.signs
        refine ⟨⟨o, _, rfl, hopen.2⟩, ?_⟩
        intro rest hrest hrestw hnext
        have hsplit : o :: ws ++ [c] ++ rest = o :: (ws ++ (c :: rest)) := by simp
        have hcrest : Wholes (c :: rest) :=
          wholes_cons.mpr ⟨(wholes_cons.mp hcw).1, hrestw⟩
        rw [hsplit]
        -- a parenthesis is the one sign that looks at what is behind it
        refine .sign how hopen.1 (fun _ => hinner.1.append _) (wholes_append.mpr ⟨hws, hcrest⟩) ?_
        exact hinner.sign_next (wholes_cons.mp hcw).1 hclose.1 hclose.2 hrestw hrest

/-- Rules are loose in front of anything that is. -/
theorem Rule.Derives.loose {ls : List Lexeme} {r : Rule Unit} (h : Rule.Derives .bare ls r)
    (hls : Wholes ls) {rest : List Lexeme} (hrest : Loose rest) (hrestw : Wholes rest) :
    Loose (ls ++ rest) := by
  cases h with
  | @mk x s ws c nm e m hx hs he hc _ _ =>
      obtain ⟨hxw, hsws⟩ := wholes_cons.mp hls
      obtain ⟨hsw, hwc⟩ := wholes_cons.mp hsws
      obtain ⟨hws, hcw⟩ := wholes_append.mp hwc
      have hx' : x.kind = .identifier := hx
      have hs' : s.kind = .equals := hs
      have hc' : c.kind = .semicolon := hc
      have hequals : s.kind.IsSign := hs' ▸ isSign_ofChar (by decide : '=' ∈ signs)
      have hsemicolon : c.kind.IsSign := hc' ▸ isSign_ofChar (by decide : ';' ∈ signs)
      have hcrest : Wholes (c :: rest) := wholes_cons.mpr ⟨(wholes_cons.mp hcw).1, hrestw⟩
      have hbody : Wholes (ws ++ (c :: rest)) := wholes_append.mpr ⟨hws, hcrest⟩
      have hsplit : x :: s :: ws ++ [c] ++ rest = x :: s :: (ws ++ (c :: rest)) := by simp
      rw [hsplit]
      refine .cons hxw (wholes_cons.mpr ⟨hsw, hbody⟩) ?_ ?_
      · intro l hl
        rw [hx', ← Option.some.inj hl]
        exact hequals
      · refine .sign hsw hequals (fun hp => nomatch hs'.symm.trans hp) hbody ?_
        exact (derives_loose.expressions e ws he hws).sign_next (wholes_cons.mp hcw).1 hsemicolon
          (fun hp => nomatch hc'.symm.trans hp) hrestw hrest

/-- Any number of rules is loose. -/
theorem Rule.DerivesAll.loose {ls : List Lexeme} {rs : List (Rule Unit)}
    (h : Rule.DerivesAll .bare ls rs) (hls : Wholes ls) : Loose ls := by
  induction h with
  | nil => trivial
  | cons hr _ ih =>
      obtain ⟨h1, h2⟩ := wholes_append.mp hls
      exact hr.loose h1 (ih h2) h2

/-! ## What is printed -/

/-- The significant lexemes of a rule are its own, and its text is finished. -/
theorem lexemes_rule {α : Type} {r : Rule α} (h : Wholes r.lexemes) :
    (lexemes r.render).filter (fun l => !l.kind.isTrivia) = r.lexemes ∧ Finished r.render := by
  refine (Rule.render_writes h).lexemes ?_
  have hloose := @Rule.Derives.loose _ _ (Rule.lexemes_derive h) h [] trivial
    (fun _ h => nomatch h)
  rwa [List.append_nil] at hloose

/-- So are those of a factor. -/
theorem lexemes_factor {α : Type} {f : Factor α} (h : Wholes f.lexemes) :
    (lexemes f.render).filter (fun l => !l.kind.isTrivia) = f.lexemes := by
  refine ((render_plain.factors f h).writes.lexemes ?_).1
  have hloose := (derives_loose.factors _ _ (lexemes_derive.factors f h) h).2 [] trivial
    (List.forall_mem_nil _) fun _ hl => nomatch hl
  rwa [List.append_nil] at hloose

end EbnfKit
