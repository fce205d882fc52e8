import Mathlib.Data.Bool.AllAny
import EbnfKit.Proofs.Nodes
import EbnfKit.Proofs.Printing

/-! # Census — what shows both in the pieces and in the tree

    Reading forgets how counts are written, and nothing else of which kind a piece is and what
    it names.  So the pieces and the canonical lexemes of what they derive have the same
    gists:

      ts derives x   implies   gists of ts = gists of x.lexemes

    What every node tells by itself can be counted in the lexemes instead, such as the names
    that are used or the groups that there are:

      x.lexemes.flatMap told = x.nodes.flatMap own -/

namespace EbnfKit

variable {τ α β γ : Type}

/-! ## Gists -/

/-- The name that the lexeme is, if it is one. -/
def Lexeme.name? (l : Lexeme) : Option Text :=
  if l.kind = .identifier then some l.text else none

/-- The kind of the lexeme and its name. -/
def Lexeme.gist (l : Lexeme) : TokenKind × Option Text :=
  (l.kind, l.name?)

theorem Lexeme.gist_of_kind {l m : Lexeme} (h : l.kind = m.kind) (hm : m.kind ≠ .identifier) :
    l.gist = m.gist := by
  rw [gist, gist, name?, name?, if_neg hm, h, if_neg hm]

/-- What the pieces amount to. -/
def Reading.gists (d : Reading τ α) (ts : List τ) : List (TokenKind × Option Text) :=
  ts.map fun t => (d.lexeme t).gist

theorem Reading.gists_append (d : Reading τ α) (ts us : List τ) :
    d.gists (ts ++ us) = d.gists ts ++ d.gists us :=
  List.map_append

theorem Reading.gists_cons (d : Reading τ α) (t : τ) (ts : List τ) :
    d.gists (t :: ts) = (d.lexeme t).gist :: d.gists ts := rfl

/-- Marks do not show in the lexemes. -/
theorem lexemes_map (f : α → β) :
    Hereditary (fun e : Expression α => (e.map f).lexemes = e.lexemes)
      (fun t => (t.map f).lexemes = t.lexemes) (fun g => (g.map f).lexemes = g.lexemes)
      (fun p => (p.map f).lexemes = p.lexemes) where
  expression := by
    intro m t ts ih
    obtain ⟨ht, hts⟩ := List.forall_mem_cons.mp ih
    rw [Expression.map_mk, Expression.lexemes, Expression.lexemes, ht,
      Term.lexemesOthers_eq_flatMap, Term.lexemesOthers_eq_flatMap, List.flatMap_map]
    exact congrArg _ (List.flatMap_congr fun u hu => by rw [hts u hu])
  term := by
    intro m g gs ih
    obtain ⟨hg, hgs⟩ := List.forall_mem_cons.mp ih
    rw [Term.map_mk, Term.lexemes, Term.lexemes, hg, Factor.lexemesOthers_eq_flatMap,
      Factor.lexemesOthers_eq_flatMap, List.flatMap_map]
    exact congrArg _ (List.flatMap_congr fun h hh => by rw [hgs h hh])
  factor := by
    intro m n p x hp hx
    cases x with
    | none => rw [Factor.map_mk, Factor.lexemes, Factor.lexemes, hp]; rfl
    | some q =>
        rw [Factor.map_mk, Factor.lexemes, Factor.lexemes, hp, Option.map_some,
          Primary.lexemesException, Primary.lexemesException, hx q rfl]
  reference := by intro m n; rfl
  literal := by intro m s q; rfl
  bracketed := by
    intro m b e he
    rw [Primary.map, Primary.lexemes, Primary.lexemes, he]

section Gists

variable {d : Reading τ α}

theorem Separated.gists {kind : TokenKind} {item : List τ → β → Prop}
    {lexemesOf : β → List Lexeme} {c : Char} (hc : (Lexeme.sign c).kind = kind)
    (hkind : kind ≠ .identifier) {ts : List τ} {xs : List β}
    (h : Separated (fun s => d.kind s = kind) item ts xs)
    (hitem : ∀ x ∈ xs, ∀ us, item us x → d.gists us = (lexemesOf x).map Lexeme.gist) :
    ∀ x ys, xs = x :: ys → d.gists ts
      = (lexemesOf x ++ ys.flatMap fun y => .sign c :: lexemesOf y).map Lexeme.gist := by
  induction h with
  | @one ts y hy =>
      rintro x ys heq
      obtain ⟨rfl, rfl⟩ := List.cons.inj heq
      rw [List.flatMap_nil, List.append_nil]
      exact hitem y List.mem_cons_self ts hy
  | @cons ts y s us zs hy hs hsep ih =>
      rintro x ys heq
      obtain ⟨rfl, rfl⟩ := List.cons.inj heq
      obtain ⟨z, zs, rfl⟩ := List.exists_cons_of_ne_nil hsep.ne_nil
      have hsign : (d.lexeme s).gist = (Lexeme.sign c).gist :=
        Lexeme.gist_of_kind (hs.trans hc.symm) (hc ▸ hkind)
      have hrest := ih (fun w hw => hitem w (List.mem_cons_of_mem y hw)) z zs rfl
      rw [d.gists_append, d.gists_cons, hitem y List.mem_cons_self ts hy, hsign, hrest]
      simp only [List.flatMap_cons, List.map_append, List.cons_append, List.map_cons]

theorem Counted.gists {ts : List τ} {n : Option Nat} (h : Counted d ts n) :
    d.gists ts = (countLexemes n).map Lexeme.gist := by
  cases h with
  | none => rfl
  | @some x s hx hs =>
      have hnumber : (d.lexeme x).gist
          = (⟨.number, Text.ofNat (Text.decimal (d.text x))⟩ : Lexeme).gist :=
        Lexeme.gist_of_kind hx (by decide : TokenKind.number ≠ .identifier)
      have hstar : (d.lexeme s).gist = (Lexeme.sign '*').gist :=
        Lexeme.gist_of_kind hs (by decide)
      rw [d.gists_cons, d.gists_cons, hnumber, hstar]
      rfl

theorem Signed.gists {item : List τ → Primary α → Prop} {ts : List τ} {x : Option (Primary α)}
    (h : Signed (fun s => d.kind s = .exceptionSymbol) item ts x)
    (hitem : ∀ p ∈ x, ∀ us, item us p → d.gists us = p.lexemes.map Lexeme.gist) :
    d.gists ts = (Primary.lexemesException x).map Lexeme.gist := by
  cases h with
  | none => rfl
  | @some s us p hs hp =>
      have hminus : (d.lexeme s).gist = (Lexeme.sign '-').gist :=
        Lexeme.gist_of_kind hs (by decide)
      rw [d.gists_cons, hminus, hitem p rfl us hp]
      rfl

/-- **Pieces and print have the same gists.** -/
theorem derives_gists :
    Hereditary (fun e => ∀ ts, Expression.Derives d ts e → d.gists ts = e.lexemes.map Lexeme.gist)
      (fun t => ∀ ts, Term.Derives d ts t → d.gists ts = t.lexemes.map Lexeme.gist)
      (fun f => ∀ ts, Factor.Derives d ts f → d.gists ts = f.lexemes.map Lexeme.gist)
      (fun p => ∀ ts, Primary.Derives d ts p → d.gists ts = p.lexemes.map Lexeme.gist) where
  expression := by
    intro m t us ih ts h
    cases h with
    | mk hsep _ =>
        rw [Expression.lexemes, Term.lexemesOthers_eq_flatMap]
        exact hsep.gists rfl (by decide) ih t us rfl
  term := by
    intro m f gs ih ts h
    cases h with
    | mk hsep _ =>
        rw [Term.lexemes, Factor.lexemesOthers_eq_flatMap]
        exact hsep.gists rfl (by decide) ih f gs rfl
  factor := by
    intro m n p x hp hx ts h
    cases h with
    | @mk cs ps xs _ _ _ _ hcount hprimary hsigned _ =>
        rw [d.gists_append, d.gists_append, hcount.gists, hp ps hprimary, hsigned.gists hx,
          Factor.lexemes, List.map_append, List.map_append]
  reference := by
    intro m n ts h
    cases h with
    | @reference y _ hk _ =>
        show [(d.lexeme y).gist] = [(⟨.identifier, d.text y⟩ : Lexeme).gist]
        rw [show d.lexeme y = ⟨.identifier, d.text y⟩ from
          congrArg (Lexeme.mk · (d.text y)) hk]
  literal := by
    intro m s q ts h
    cases h with
    | @literal y _ _ _ hk _ _ =>
        have hstring : (d.lexeme y).gist = (⟨.stringLiteral, q :: s ++ [q]⟩ : Lexeme).gist :=
          Lexeme.gist_of_kind hk (by decide : TokenKind.stringLiteral ≠ .identifier)
        rw [d.gists_cons, hstring]
        rfl
  bracketed := by
    intro m b e ih ts h
    cases h with
    | @bracketed o ws c _ _ _ hb he _ =>
        have hbrackets : (d.lexeme o).gist = (Lexeme.sign b.opening).gist ∧
            (d.lexeme c).gist = (Lexeme.sign b.closing).gist := by
          generalize hok : d.kind o = ok at hb
          generalize hck : d.kind c = ck at hb
          cases hb <;>
            exact ⟨Lexeme.gist_of_kind hok (by decide), Lexeme.gist_of_kind hck (by decide)⟩
        rw [d.gists_append, d.gists_cons, d.gists_cons, hbrackets.1, hbrackets.2, ih ws he,
          Primary.lexemes, List.map_cons, List.map_append]
        rfl

theorem Rule.Derives.gists {ts : List τ} {r : Rule α} (h : Rule.Derives d ts r) :
    d.gists ts = r.lexemes.map Lexeme.gist := by
  cases h with
  | @mk x s ws c nm e m hx hs he hc _ _ =>
      have hname : d.lexeme x = ⟨.identifier, d.text x⟩ := congrArg (Lexeme.mk · (d.text x)) hx
      have hequals : (d.lexeme s).gist = (Lexeme.sign '=').gist :=
        Lexeme.gist_of_kind hs (by decide)
      have hsemicolon : (d.lexeme c).gist = (Lexeme.sign ';').gist :=
        Lexeme.gist_of_kind hc (by decide)
      rw [d.gists_append, d.gists_cons, d.gists_cons, d.gists_cons, hname, hequals, hsemicolon,
        derives_gists.expressions e ws he, Rule.lexemes, List.map_cons, List.map_cons, List.map_append]
      rfl

theorem Rule.DerivesAll.gists {ts : List τ} {rs : List (Rule α)} (h : Rule.DerivesAll d ts rs) :
    d.gists ts = (rs.flatMap Rule.lexemes).map Lexeme.gist := by
  induction h with
  | nil => rfl
  | cons hr _ ih => rw [d.gists_append, hr.gists, ih, List.flatMap_cons, List.map_append]

end Gists

/-! ## What nodes tell -/

/-- What a lexeme tells, of which each node tells its own share: a bracket with its opening
    sign, a name or a string with itself, and the rest nothing. -/
structure Census (told : Lexeme → List γ) (own : Node α → List γ) : Prop where
  sign : ∀ c ∈ ['|', ',', '*', '-', ')', ']', '\x7d'], told (.sign c) = []
  number : ∀ x, told ⟨.number, x⟩ = []
  expression : ∀ e, own (.expression e) = []
  term : ∀ t, own (.term t) = []
  factor : ∀ f, own (.factor f) = []
  reference : ∀ m n, own (.primary (.reference m n)) = told ⟨.identifier, n⟩
  literal : ∀ m s q, own (.primary (.literal m s q)) = told ⟨.stringLiteral, q :: s ++ [q]⟩
  bracketed : ∀ m b e, own (.primary (.bracketed m b e)) = told (.sign b.opening)

/-- **The lexemes of a tree tell what its nodes do.** -/
theorem lexemes_census {told : Lexeme → List γ} {own : Node α → List γ} (h : Census told own) :
    Hereditary (fun e => e.lexemes.flatMap told = e.nodes.flatMap own)
      (fun t => t.lexemes.flatMap told = t.nodes.flatMap own)
      (fun f => f.lexemes.flatMap told = f.nodes.flatMap own)
      (fun p => p.lexemes.flatMap told = p.nodes.flatMap own) where
  expression := by
    intro m t ts ih
    have hparts : (t :: ts).flatMap (fun u => u.lexemes.flatMap told)
        = (t :: ts).flatMap fun u => u.nodes.flatMap own := List.flatMap_congr ih
    rw [Expression.lexemes, Expression.nodes_mk, List.flatMap_cons, h.expression, List.nil_append,
      List.flatMap_assoc, ← hparts, List.flatMap_cons, List.flatMap_append,
      Term.lexemesOthers_eq_flatMap, List.flatMap_assoc]
    simp only [List.flatMap_cons, h.sign '|' (by decide), List.nil_append]
  term := by
    intro m f fs ih
    have hparts : (f :: fs).flatMap (fun g => g.lexemes.flatMap told)
        = (f :: fs).flatMap fun g => g.nodes.flatMap own := List.flatMap_congr ih
    rw [Term.lexemes, Term.nodes_mk, List.flatMap_cons, h.term, List.nil_append,
      List.flatMap_assoc, ← hparts, List.flatMap_cons, List.flatMap_append,
      Factor.lexemesOthers_eq_flatMap, List.flatMap_assoc]
    simp only [List.flatMap_cons, h.sign ',' (by decide), List.nil_append]
  factor := by
    intro m n p x hp hx
    have hcount : (countLexemes n).flatMap told = [] := by
      cases n with
      | none => rfl
      | some n =>
          rw [countLexemes, List.flatMap_cons, List.flatMap_cons, h.number, h.sign '*' (by decide)]
          rfl
    have hexception : (Primary.lexemesException x).flatMap told
        = (x.toList.flatMap Primary.nodes).flatMap own := by
      cases x with
      | none => rfl
      | some q =>
          rw [Primary.lexemesException, List.flatMap_cons, h.sign '-' (by decide), hx q rfl,
            Option.toList_some, List.flatMap_singleton]
          rfl
    rw [Factor.lexemes, Factor.nodes_mk, List.flatMap_append, List.flatMap_append, hcount, hp,
      hexception, List.flatMap_cons, h.factor, List.flatMap_append]
    rfl
  reference := by
    intro m n
    rw [Primary.lexemes, Primary.nodes, List.flatMap_singleton, List.flatMap_singleton, h.reference]
  literal := by
    intro m s q
    rw [Primary.lexemes, Primary.nodes, List.flatMap_singleton, List.flatMap_singleton, h.literal]
  bracketed := by
    intro m b e ih
    have hclosing : told (.sign b.closing) = [] := h.sign _ (by cases b <;> decide)
    rw [Primary.lexemes, Primary.nodes, List.flatMap_cons, List.flatMap_append,
      List.flatMap_singleton, hclosing, List.append_nil, ih, List.flatMap_cons, h.bracketed]

end EbnfKit
