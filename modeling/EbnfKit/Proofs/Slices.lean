import EbnfKit.Proofs.Clean
import EbnfKit.Proofs.Nodes
import EbnfKit.Proofs.Restart

/-! # Slices — spans cover the text of what they mark

    The text under the mark of a rule is that rule, and the text under the mark of a node is
    that node, once it stands in a rule of its own:

      s.slice? r.mark = x    parse x            is r,  moved to the front
      s.slice? n.mark = x    parse "x = x ;"    is n,  moved behind the equals sign

    This holds of every text, with or without syntax errors: the tokens of a node are a
    stretch of those of the text, so scanning its slice finds them again, and what they
    derive does not depend on where they stand. -/

namespace EbnfKit

/-! ## Derivations that are moved -/

theorem Span.over_shift (n : Nat) {ts : List Token} (hne : ts ≠ []) :
    Span.over (ts.map (Token.shift n)) = (Span.over ts).shift n := by
  have hne' : ts.map (Token.shift n) ≠ [] := fun h => hne (List.map_eq_nil_iff.mp h)
  have hstart := Span.over_start hne'
  have hstop := Span.over_stop hne'
  rw [List.head_map] at hstart
  rw [List.getLast_map] at hstop
  rw [Span.shift, Span.over_start hne, Span.over_stop hne]
  exact congrArg₂ Span.mk hstart hstop

/-- Tokens that stand further behind derive the tree with its marks there. -/
theorem Reading.carries_shift (n : Nat) :
    Reading.placed.Carries .placed (Token.shift n) id (Span.shift n) id where
  lexeme := by
    rintro t u rfl
    rfl
  marks := by
    rintro ts us m hus hne rfl
    rw [List.map_id] at hus
    exact ⟨_, rfl, by rw [hus, Span.over_shift n hne]; rfl⟩

/-- Whatever tokens derive further behind, they derive where they stand. -/
theorem Reading.carries_unshift (n : Nat) :
    Reading.placed.Carries .placed id (Token.shift n) id (Span.shift n) where
  lexeme := by
    rintro t u rfl
    rfl
  marks := by
    rintro ts us m hus hne rfl
    rw [List.map_id] at hus
    rw [← hus] at hne ⊢
    exact ⟨_, rfl, (Span.over_shift n fun h => hne (by rw [h]; rfl)).symm⟩

theorem Expression.Derives.shift (n : Nat) {ts : List Token} {e : Expression Span}
    (h : Expression.Derives .placed ts e) :
    Expression.Derives .placed (ts.map (Token.shift n)) (e.map (Span.shift n)) := by
  obtain ⟨e', he', hmap⟩ := (derives_carry (Reading.carries_shift n)).expressions e ts
    (ts.map (Token.shift n)) h (List.map_id _)
  rwa [← hmap, map_id.expressions e']

theorem Expression.Derives.unshift {n : Nat} {ts : List Token} {e : Expression Span}
    (h : Expression.Derives .placed (ts.map (Token.shift n)) e) :
    ∃ e', Expression.Derives .placed ts e' ∧ e'.map (Span.shift n) = e := by
  obtain ⟨e', he', hmap⟩ := (derives_carry (Reading.carries_unshift n)).expressions e _ ts h
    (List.map_id _).symm
  exact ⟨e', he', hmap.trans (map_id.expressions e)⟩

theorem Rule.Derives.unshift {n : Nat} {ts : List Token} {r : Rule Span}
    (h : Rule.Derives .placed (ts.map (Token.shift n)) r) :
    ∃ r', Rule.Derives .placed ts r' ∧ r'.map (Span.shift n) = r := by
  obtain ⟨r', hr', hmap⟩ := h.carry (Reading.carries_unshift n) (List.map_id _).symm
  exact ⟨r', hr', hmap.trans r.map_id⟩

/-! ## Texts that are read -/

theorem Parser.Accepted.single {ts : List Token} {r : Rule Span} (h : Rule.Derives .placed ts r)
    (hnesting : r.body.nesting ≤ maxNesting) : Accepted ts [r] := by
  have hone := Rule.DerivesAll.cons h .nil
  rw [List.append_nil] at hone
  exact ⟨hone, List.forall_mem_singleton.mpr hnesting⟩

/-- A finished text is read as what its tokens derive. -/
theorem Grammar.parse_of_finished {x : Text} {rules : List (Rule Span)} (hx : Finished x)
    (hwhole : ∀ t ∈ significant x, t.lexeme.Whole ∧ t.lexeme.Fits)
    (h : Parser.Accepted (significant x) rules) :
    (parse x).diagnostics = [] ∧ (parse x).rules = rules := by
  have hstrings : StringsClosed (significant x) :=
    fun t ht hk => lasting_whole.closed t.lexeme hk (hwhole t ht).1
  have hclean := clean_of_accepted h (fun t ht => (hwhole t ht).2) hstrings
    hx.commentsClosed_tokenize
  exact ⟨hclean, (rules_unique hclean h.1).symm⟩

/-- The text of the rule `x = t ;`. -/
def Text.asRule (t : Text) : Text :=
  ['x', ' ', '=', ' '] ++ t ++ [' ', ';']

namespace Excerpt

variable {s x : Text} {used : List Token} {n : Nat}

/-- An excerpt does not begin with white space. -/
theorem unindented (h : Excerpt s used n x) (y : Text) : Unindented (x ++ y) := by
  obtain ⟨l, ls, hls⟩ := List.exists_cons_of_ne_nil (mt lexemes_eq_nil_iff.mp h.ne_nil)
  obtain ⟨hlexical, hkind⟩ := h.head l (by rw [hls]; rfl)
  obtain ⟨c, cs, htext⟩ := List.exists_cons_of_ne_nil hlexical.ne_nil
  have hx := lexemes_texts x
  rw [hls, List.flatMap_cons, htext] at hx
  intro d hd
  rw [← hx] at hd
  rw [← Option.some.inj hd]
  exact Lexeme.not_isWhiteSpace_head hlexical hkind htext

theorem lexemes_asRule (h : Excerpt s used n x) : lexemes x.asRule
    = ⟨.identifier, ['x']⟩ :: ⟨.whitespace, [' ']⟩ :: .sign '=' :: ⟨.whitespace, [' ']⟩ ::
      (lexemes x ++ [⟨.whitespace, [' ']⟩, .sign ';']) := by
  have hsign : ∀ {c : Char} {y : Text}, c ∈ signs → Unindented (c :: y) := by
    intro c y hc d hd
    rw [← Option.some.inj hd]
    exact (sign_facts hc).1
  have hspace : ∀ {y : Text}, Unindented y → lexemes (' ' :: y) = ⟨.whitespace, [' ']⟩ :: lexemes y :=
    fun hy => lexemes_white (List.cons_ne_nil ' ' []) (List.forall_mem_singleton.mpr (by decide)) hy
  have hlexeme : ∀ {l : Lexeme} {y : Text}, l.Whole → lexemes (l.text ++ ' ' :: y)
      = l :: lexemes (' ' :: y) := fun hl =>
    lexemes_lexeme hl.lexical hl.significant (hl.ends.separator (.inl (by decide)) hl.significant _)
  have hsemicolon : lexemes [';'] = [.sign ';'] := by
    have hwhole := Lexeme.sign_whole (c := ';') (by decide)
    exact Lexeme.lexemes_text hwhole.lexical hwhole.significant
  have hback : lexemes (x ++ [' ', ';']) = lexemes x ++ [⟨.whitespace, [' ']⟩, .sign ';'] := by
    rw [lexemes_append, hspace (hsign (by decide)), hsemicolon]
    intro l hl
    obtain ⟨hkind, hends⟩ := h.last l hl
    exact hends.separator (.inl (by decide)) hkind _
  have hequals : lexemes ('=' :: ' ' :: (x ++ [' ', ';']))
      = .sign '=' :: lexemes (' ' :: (x ++ [' ', ';'])) :=
    hlexeme (Lexeme.sign_whole (c := '=') (by decide))
  have hx : lexemes x.asRule
      = ⟨.identifier, ['x']⟩ :: lexemes (' ' :: '=' :: ' ' :: (x ++ [' ', ';'])) :=
    hlexeme Lexeme.whole_x
  rw [hx, hspace (hsign (by decide)), hequals, hspace (h.unindented _), hback]

/-- The tokens of the rule are those of the excerpt, moved behind the equals sign. -/
theorem significant_asRule (h : Excerpt s used n x) : ∃ name equals semicolon : Token,
    name.lexeme = ⟨.identifier, ['x']⟩ ∧ equals.lexeme = .sign '=' ∧ semicolon.lexeme = .sign ';' ∧
      significant x.asRule
        = name :: equals :: (significant x).map (Token.shift 4) ++ [semicolon] := by
  have hmoved : withoutTrivia (tokensAt 4 (lexemes x)) = (significant x).map (Token.shift 4) := by
    rw [significant_eq, ← withoutTrivia_shift, ← tokensAt_shift, Nat.zero_add]
  refine ⟨⟨.identifier, ⟨0, 1⟩, ['x']⟩, ⟨.equals, ⟨2, 3⟩, ['=']⟩,
    ⟨.semicolon, ⟨4 + Text.size x + 1, 4 + Text.size x + 2⟩, [';']⟩, rfl, rfl, rfl, ?_⟩
  have hspelled : spelled (lexemes x) = x := lexemes_texts x
  rw [significant_eq, h.lexemes_asRule, ← hmoved]
  show withoutTrivia (_ :: _ :: _ :: _ :: tokensAt 4 (lexemes x ++ _)) = _
  rw [tokensAt_append, hspelled]
  show _ :: _ :: withoutTrivia (tokensAt 4 (lexemes x) ++ _) = _
  rw [withoutTrivia_append]
  rfl

theorem finished_asRule (h : Excerpt s used n x) : Finished x.asRule := by
  intro l hl
  rw [h.lexemes_asRule] at hl
  have hlast : l = .sign ';' := by simpa [List.getLast?_cons] using hl.symm
  rw [hlast]
  exact (Lexeme.sign_whole (by decide)).ends

/-- The tokens of an excerpt are as whole as those that it was cut from. -/
theorem whole (h : Excerpt s used n x) (hwhole : ∀ t ∈ used, t.lexeme.Whole ∧ t.lexeme.Fits) :
    ∀ t ∈ significant x, t.lexeme.Whole ∧ t.lexeme.Fits := by
  intro t ht
  refine hwhole (t.shift n) ?_
  rw [h.tokens]
  exact List.mem_map_of_mem ht

/-- An excerpt of a rule is read as the rule. -/
theorem parse_rule (h : Excerpt s used n x) (hwhole : ∀ t ∈ used, t.lexeme.Whole ∧ t.lexeme.Fits)
    {r : Rule Span} (hr : Rule.Derives .placed used r) (hnesting : r.body.nesting ≤ maxNesting) :
    (Grammar.parse x).diagnostics = [] ∧
      ∃ q, (Grammar.parse x).rules = [q] ∧ q.map (Span.shift n) = r := by
  have hall := h.whole hwhole
  rw [h.tokens] at hr
  obtain ⟨q, hq, rfl⟩ := hr.unshift
  rw [Rule.map, (nesting_map _).expressions q.body] at hnesting
  obtain ⟨hclean, hrules⟩ := Grammar.parse_of_finished h.finished hall (.single hq hnesting)
  exact ⟨hclean, q, hrules, rfl⟩

/-- An excerpt of a body is read as the body, in a rule of its own. -/
theorem parse_asRule (h : Excerpt s used n x)
    (hwhole : ∀ t ∈ used, t.lexeme.Whole ∧ t.lexeme.Fits) {e : Expression Span}
    (he : Expression.Derives .placed used e) (hnesting : e.nesting ≤ maxNesting) :
    (Grammar.parse x.asRule).diagnostics = [] ∧
      ∃ q, (Grammar.parse x.asRule).rules = [q] ∧ q.name = ['x'] ∧
        q.body.map (Span.shift n) = e.map (Span.shift 4) := by
  have hall := h.whole hwhole
  rw [h.tokens] at he
  obtain ⟨e', he', rfl⟩ := he.unshift
  rw [(nesting_map _).expressions e'] at hnesting
  obtain ⟨name, equals, semicolon, hname, hequals, hsemicolon, htokens⟩ := h.significant_asRule
  have hrule := Rule.Derives.mk (d := .placed) (congrArg Lexeme.kind hname)
    (congrArg Lexeme.kind hequals) (he'.shift 4) (congrArg Lexeme.kind hsemicolon) rfl rfl
  rw [← htokens] at hrule
  have hwhole' : ∀ t ∈ significant x.asRule, t.lexeme.Whole ∧ t.lexeme.Fits := by
    have hsign : ∀ c ∈ signs, (Lexeme.sign c).Whole ∧ (Lexeme.sign c).Fits :=
      fun c hc => ⟨Lexeme.sign_whole hc, Lexeme.sign_fits hc⟩
    have hmoved : ∀ t ∈ (significant x).map (Token.shift 4), t.lexeme.Whole ∧ t.lexeme.Fits :=
      List.forall_mem_map.mpr hall
    rw [htokens]
    refine List.forall_mem_append.mpr ⟨List.forall_mem_cons.mpr ⟨?_, List.forall_mem_cons.mpr
      ⟨?_, hmoved⟩⟩, List.forall_mem_singleton.mpr ?_⟩
    · rw [hname]
      exact ⟨Lexeme.whole_x, fun hk => nomatch hk⟩
    · rw [hequals]
      exact hsign '=' (by decide)
    · rw [hsemicolon]
      exact hsign ';' (by decide)
  rw [← (nesting_map (Span.shift 4)).expressions e'] at hnesting
  obtain ⟨hclean, hrules⟩ := Grammar.parse_of_finished h.finished_asRule hwhole'
    (.single hrule hnesting)
  refine ⟨hclean, _, hrules, congrArg Lexeme.text hname, ?_⟩
  show (e'.map _).map _ = (e'.map _).map _
  rw [(map_map _ _).expressions e', (map_map _ _).expressions e']
  congr 1
  funext m
  exact congrArg₂ Span.mk (Nat.add_right_comm _ _ _) (Nat.add_right_comm _ _ _)

end Excerpt

/-! ## Slices of a text -/

namespace Grammar

variable {s : Text} {r : Rule Span}

/-- Whatever derives from a stretch of the tokens of a rule has an excerpt. -/
theorem exists_excerpt_of_fits {used us : List Token} (hused : used <:+: significant s)
    (hfits : Parser.RuleFits maxNesting used r) (hus : us <:+: used) (hne : us ≠ []) :
    ∃ x, Excerpt s us (Span.over us).start x := by
  have hwhole := wholes_of_fits hused.sublist hfits
  obtain ⟨n, x, h⟩ := exists_excerpt (hus.trans hused) hne
    fun t ht => (hwhole t (hus.subset (List.mem_of_getLast? ht))).1.ends
  exact ⟨x, by rw [h.span]; exact h⟩

/-- **Spans are faithful.**  The text under a rule is read as that rule, and the text under a
    node of its body as that node, each without syntax errors. -/
theorem slices_read_back (hr : r ∈ (parse s).rules) :
    (∃ x, s.slice? r.mark = some x ∧ (parse x).diagnostics = [] ∧
      ∃ q, (parse x).rules = [q] ∧ q.map (Span.shift r.mark.start) = r) ∧
    ∀ n ∈ r.body.nodes, ∃ x, s.slice? n.mark = some x ∧ (parse x.asRule).diagnostics = [] ∧
      ∃ q, (parse x.asRule).rules = [q] ∧ q.name = ['x'] ∧
        q.body.map (Span.shift n.mark.start) = n.asBody.map (Span.shift 4) := by
  obtain ⟨used, hused, hfits⟩ := (parse_amid s).stretch hr
  have hwhole := wholes_of_fits hused.sublist hfits
  constructor
  · obtain ⟨x, h⟩ := exists_excerpt_of_fits hused hfits (List.infix_refl used)
      (Parser.rule_ne_nil hfits.derives)
    rw [hfits.derives.mark_eq]
    exact ⟨x, h.slice, h.parse_rule hwhole hfits.derives hfits.nesting⟩
  · intro n hn
    obtain ⟨as, bs, cs, rfl, -, -, hbody⟩ := hfits.derives.body
    obtain ⟨us, hus, hnode⟩ := nodes_stand.expressions r.body bs hbody n hn
    have hus := hus.trans (List.infix_append as bs cs)
    obtain ⟨x, h⟩ := exists_excerpt_of_fits hused hfits hus hnode.ne_nil
    have hnesting : n.asBody.nesting ≤ maxNesting := by
      rw [n.nesting_asBody]
      exact Nat.le_trans (nesting_node.expressions r.body n hn) hfits.nesting
    rw [show n.mark = Span.over us from hnode.marks]
    exact ⟨x, h.slice, h.parse_asRule (fun t ht => hwhole t (hus.subset ht)) hnode.asBody hnesting⟩

/-- A rule behind a broken one, with a comment inside and letters of two bytes. -/
theorem slices_read_back_salvaged :
    ∃ r ∈ (parse "= ( ; é = 2 * 'ü' (* ; *) - [ b ] ;".toList).rules,
      r.name = ['é'] ∧ r.mark = ⟨6, 37⟩ ∧
      (∃ x, Text.slice? "= ( ; é = 2 * 'ü' (* ; *) - [ b ] ;".toList r.mark = some x ∧
        (parse x).diagnostics = [] ∧
        ∃ q, (parse x).rules = [q] ∧ q.map (Span.shift r.mark.start) = r) ∧
      ∀ n ∈ r.body.nodes,
        ∃ x, Text.slice? "= ( ; é = 2 * 'ü' (* ; *) - [ b ] ;".toList n.mark = some x ∧
          (parse x.asRule).diagnostics = [] ∧
          ∃ q, (parse x.asRule).rules = [q] ∧ q.name = ['x'] ∧
            q.body.map (Span.shift n.mark.start) = n.asBody.map (Span.shift 4) := by
  have hrules : (parse "= ( ; é = 2 * 'ü' (* ; *) - [ b ] ;".toList).rules.map
      (fun r => (r.name, r.mark)) = [(['é'], ⟨6, 37⟩)] := by
    decide +kernel
  obtain ⟨r, rs, heq, hr, -⟩ := List.map_eq_cons_iff.mp hrules
  have hmem : r ∈ (parse "= ( ; é = 2 * 'ü' (* ; *) - [ b ] ;".toList).rules := by
    rw [heq]
    exact List.mem_cons_self
  exact ⟨r, hmem, congrArg Prod.fst hr, congrArg Prod.snd hr, slices_read_back hmem⟩

end Grammar

end EbnfKit
