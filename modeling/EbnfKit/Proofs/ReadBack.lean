import EbnfKit.Proofs.Acceptance
import EbnfKit.Proofs.Adjacency

/-! # Reading back — from a text that writes rules to those rules

    A text that writes whole lexemes which derive some rules is parsed as these rules, up to
    marks.  All that can go wrong is that brackets nest too deep or a number does not fit.

      x writes ls,  ls derives rs   imply   diagnostics = []  iff  nesting ≤ 128 in rs,
                                                                   numbers < 2 ^ 32 in ls
      and then                              (parse x).rules.map shape = rs

    For the same reason trees that are printed alike are the same, up to marks. -/

namespace EbnfKit

/-- A rule without marks is its own shape. -/
theorem Rule.shape_unit (r : Rule Unit) : r.shape = r :=
  r.map_id

/-- A property of shapes holds of all rules or of none with the same shapes. -/
theorem forall_nesting_of_shapes {α β : Type} {rs : List (Rule α)} {rs' : List (Rule β)}
    (h : rs.map Rule.shape = rs'.map Rule.shape) {n : Nat} :
    (∀ r ∈ rs, r.body.nesting ≤ n) ↔ ∀ r ∈ rs', r.body.nesting ≤ n := by
  have hshape : ∀ {γ : Type} (us : List (Rule γ)),
      (∀ r ∈ us, r.body.nesting ≤ n) ↔ ∀ r ∈ us.map Rule.shape, r.body.nesting ≤ n := by
    intro γ us
    rw [List.forall_mem_map]
    refine forall_congr' fun r => imp_congr_right fun _ => ?_
    show _ ↔ r.body.shape.nesting ≤ n
    rw [nesting_shape.expressions r.body]
  rw [hshape rs, hshape rs', h]

/-- The significant tokens of a text that writes loose lexemes are those. -/
theorem Writes.significant {x : Text} {ls : List Lexeme} (h : Writes x ls) (hloose : Loose ls) :
    (significant x).map Token.lexeme = ls := by
  rw [significant_eq]
  exact (map_lexeme_withoutTrivia 0 _).trans (h.lexemes hloose).1

/-- The kinds of the tokens of a text are those of its lexemes, and then the end. -/
theorem kinds_tokenize (x : Text) :
    (tokenize x).map (·.kind) = (lexemes x).map (·.kind) ++ [.endOfInput] := by
  have hkinds : ∀ ts : List Token,
      ts.map (fun t => t.kind) = (ts.map Token.lexeme).map (fun l => l.kind) := by
    intro ts
    rw [List.map_map]
    rfl
  rw [tokenize_eq, List.map_append, hkinds, map_lexeme_tokensAt]
  rfl

theorem Finished.commentsClosed_tokenize {x : Text} (h : Finished x) :
    CommentsClosed ((tokenize x).map (·.kind)) := by
  rw [kinds_tokenize]
  exact h.commentsClosed.append (commentsClosed_of_not_mem (by simp))

namespace Grammar

/-- **What is written is read back**, unless brackets nest too deep in it or a number does
    not fit. -/
theorem parse_of_writes {x : Text} {ls : List Lexeme} {rs : List (Rule Unit)}
    (hx : Writes x ls) (hls : Wholes ls) (hrs : Rule.DerivesAll .bare ls rs) :
    ((parse x).diagnostics = [] ↔
      (∀ r ∈ rs, r.body.nesting ≤ maxNesting) ∧ ∀ l ∈ ls, l.Fits) ∧
      ((parse x).diagnostics = [] → (parse x).rules.map Rule.shape = rs) := by
  have hloose := hrs.loose hls
  have htokens := hx.significant hloose
  obtain ⟨rules, hrules, hshapes⟩ := hrs.transport placed_marks (significant x)
    (htokens.trans (List.map_id ls).symm)
  have hrs' : rs.map Rule.shape = rs := by
    rw [List.map_congr_left fun r _ => Rule.shape_unit r, List.map_id']
  have hcounts : CountsFit (significant x) ↔ ∀ l ∈ ls, l.Fits := by
    rw [← htokens, List.forall_mem_map]
    rfl
  have hstrings : StringsClosed (significant x) := by
    intro t ht hk
    exact lasting_whole.closed t.lexeme hk (hls _ (htokens ▸ List.mem_map_of_mem ht))
  constructor
  · rw [← hcounts, ← forall_nesting_of_shapes hshapes]
    constructor
    · intro hclean
      obtain ⟨haccepted, hfits, -, -⟩ := accepted_of_clean hclean
      rw [rules_unique hclean hrules]
      exact ⟨haccepted.2, hfits⟩
    · rintro ⟨hnesting, hfits⟩
      exact clean_of_accepted ⟨hrules, hnesting⟩ hfits hstrings
        (hx.lexemes hloose).2.commentsClosed_tokenize
  · intro hclean
    rw [← rules_unique hclean hrules, hshapes, hrs']

end Grammar

/-! ## Equal texts -/

/-- Rules with the same lexemes have the same shape. -/
theorem Rule.shape_eq_of_lexemes {α : Type} {r r' : Rule α}
    (hr : ∀ l ∈ r.lexemes, l.Whole ∧ l.Fits) (h : r.lexemes = r'.lexemes) : r.shape = r'.shape := by
  have hderives := Rule.lexemes_derive fun l hl => (hr l hl).1
  have hderives' : Rule.Derives .bare r.lexemes r'.shape := by
    have hr' : Wholes r'.lexemes := fun l hl => (hr l (h ▸ hl)).1
    rw [h]
    exact Rule.lexemes_derive hr'
  -- laid end to end, the lexemes are tokens, and those have one derivation
  have hscanned : Scanned (tokensAt 0 r.lexemes) :=
    tokensAt_scanned fun l hl => (hr l hl).1.lexical
  have hcounts : CountsFit (tokensAt 0 r.lexemes) :=
    fun t ht => (hr t.lexeme (mem_tokensAt ht).1).2
  have htokens : (tokensAt 0 r.lexemes).map Reading.placed.lexeme
      = r.lexemes.map Reading.bare.lexeme :=
    (map_lexeme_tokensAt 0 r.lexemes).trans (List.map_id _).symm
  obtain ⟨q, hq, hshape⟩ := hderives.transport placed_marks htokens
  obtain ⟨q', hq', hshape'⟩ := hderives'.transport placed_marks htokens
  rw [← List.append_nil (tokensAt 0 r.lexemes)] at hscanned hcounts
  obtain ⟨-, rfl⟩ := Rule.Derives.unique hscanned hcounts hq hq' rfl
  rw [← Rule.shape_unit r.shape, ← hshape, hshape', Rule.shape_unit]

/-- Rules that are printed alike have the same shape. -/
theorem Rule.shape_eq_of_render {α : Type} {r r' : Rule α}
    (hr : ∀ l ∈ r.lexemes, l.Whole ∧ l.Fits) (hr' : ∀ l ∈ r'.lexemes, l.Whole ∧ l.Fits)
    (h : r.render = r'.render) : r.shape = r'.shape := by
  refine Rule.shape_eq_of_lexemes hr ?_
  rw [← (lexemes_rule fun l hl => (hr l hl).1).1, h, (lexemes_rule fun l hl => (hr' l hl).1).1]

/-- The name `x`. -/
theorem Lexeme.whole_x : Lexeme.Whole ⟨.identifier, ['x']⟩ := by
  refine ⟨⟨'x', [], rfl, ?_, ?_, List.forall_mem_nil _⟩, rfl, fun _ h => nomatch h⟩
  · decide +kernel
  · decide +kernel

/-- The rule `x = e ;`. -/
def Expression.toRule {α : Type} (e : Expression α) : Rule α :=
  ⟨['x'], e.mark, e, e.mark⟩

/-- Expressions that are printed alike have the same shape. -/
theorem Expression.shape_eq_of_render {α : Type} {e e' : Expression α}
    (he : ∀ l ∈ e.lexemes, l.Whole ∧ l.Fits) (he' : ∀ l ∈ e'.lexemes, l.Whole ∧ l.Fits)
    (h : e.render = e'.render) : e.shape = e'.shape := by
  have hwhole : ∀ d : Expression α, (∀ l ∈ d.lexemes, l.Whole ∧ l.Fits) →
      ∀ l ∈ d.toRule.lexemes, l.Whole ∧ l.Fits := by
    intro d hd
    have hsign : ∀ c ∈ signs, (Lexeme.sign c).Whole ∧ (Lexeme.sign c).Fits :=
      fun c hc => ⟨Lexeme.sign_whole hc, Lexeme.sign_fits hc⟩
    exact List.forall_mem_cons.mpr ⟨⟨Lexeme.whole_x, fun hk => by cases hk⟩, List.forall_mem_cons.mpr
      ⟨hsign '=' (by decide), List.forall_mem_append.mpr
        ⟨hd, List.forall_mem_singleton.mpr (hsign ';' (by decide))⟩⟩⟩
  have hrender : e.toRule.render = e'.toRule.render := by
    show ['x'] ++ [' ', '=', ' '] ++ e.render ++ [' ', ';']
      = ['x'] ++ [' ', '=', ' '] ++ e'.render ++ [' ', ';']
    rw [h]
  exact congrArg Rule.body (Rule.shape_eq_of_render (hwhole e he) (hwhole e' he') hrender)

/-- Factors that are printed alike have the same shape. -/
theorem Factor.shape_eq_of_render {α : Type} {f f' : Factor α}
    (hf : ∀ l ∈ f.lexemes, l.Whole ∧ l.Fits) (hf' : ∀ l ∈ f'.lexemes, l.Whole ∧ l.Fits)
    (h : f.render = f'.render) : f.shape = f'.shape := by
  -- by itself in an expression a factor has the same lexemes and the same text
  have hlexemes : ∀ g : Factor α, (Expression.mk g.mark (.mk g.mark g []) []).lexemes = g.lexemes := by
    intro g
    simp [Expression.lexemes, Term.lexemesOthers, Term.lexemes, Factor.lexemesOthers]
  have hrender : ∀ g : Factor α, (Expression.mk g.mark (.mk g.mark g []) []).render = g.render := by
    intro g
    simp [Expression.render, Term.renderOthers, Term.render, Factor.renderOthers]
  have hshape := @Expression.shape_eq_of_render _ (.mk f.mark (.mk f.mark f []) [])
    (.mk f'.mark (.mk f'.mark f' []) []) (by rwa [hlexemes]) (by rwa [hlexemes])
    (by rw [hrender, hrender, h])
  simpa using hshape

end EbnfKit
