import EbnfKit.Proofs.OpenStrings
import EbnfKit.Proofs.Slices

/-! # Quotes — where a string stops, and whether it is closed

    Scanning takes a string from the left, and steps over the character behind each
    backslash.  The split at the quotes comes from the right, and counts the backslashes in
    front of the last quote.  They agree on every string:

      "content"       stops at the quote     closed
      "content        stops at the end       open
      "content\       stops at the end       open

    where no quote stands in the content but behind a backslash.  An open string is the last
    token but for the end of the input, so it stands behind every rule that was read, and no
    literal in a rule comes from it. -/

namespace EbnfKit

/-! ## Scanning a string -/

namespace Lexeme

/-- What may stand between the quotes of a string: a backslash takes the character behind it
    along, and no other character is a quote. -/
inductive Content (quote : Char) : Text → Prop
  | nil : Content quote []
  | escaped {cs : Text} (d : Char) : Content quote cs → Content quote ('\\' :: d :: cs)
  | other {c : Char} {cs : Text} : c ≠ '\\' → c ≠ quote → Content quote cs → Content quote (c :: cs)

/-- What makes a string stop. -/
inductive Stop
  | closingQuote
  | endOfInput
deriving DecidableEq

/-- A string with `body` behind its opening quote stops there, in front of `rest`.  At the end
    of the input a backslash may be left with nothing behind it. -/
inductive StopsAt (quote : Char) : Text → Text → Stop → Prop
  | quote {content : Text} (rest : Text) : Content quote content →
      StopsAt quote (content ++ [quote]) rest .closingQuote
  | input {content : Text} : Content quote content → StopsAt quote content [] .endOfInput
  | backslash {content : Text} : Content quote content →
      StopsAt quote (content ++ ['\\']) [] .endOfInput

variable {quote : Char} {cs body rest : Text} {stop : Stop}

/-- Whether a string is closed is decided behind its content. -/
theorem Content.closes_append (h : Content quote cs) (ys : Text) :
    closes quote (cs ++ ys) = closes quote ys := by
  induction h with
  | nil => rfl
  | @escaped cs d _ ih =>
      show closes quote ('\\' :: d :: (cs ++ ys)) = closes quote ys
      rw [closes, if_pos rfl, ih]
  | @other c cs hc hq _ ih =>
      rw [← ih, List.cons_append]
      cases cs ++ ys with
      | nil => simp [closes, hq]
      | cons e es => rw [closes, if_neg hc, if_neg hq]

namespace StopsAt

/-- More of the content in front changes nothing behind it. -/
theorem prepend {x : Text} (hx : ∀ content, Content quote content → Content quote (x ++ content))
    (h : StopsAt quote body rest stop) : StopsAt quote (x ++ body) rest stop := by
  cases h with
  | quote rest hcontent =>
      rw [← List.append_assoc]
      exact .quote rest (hx _ hcontent)
  | input hcontent => exact .input (hx _ hcontent)
  | backslash hcontent =>
      rw [← List.append_assoc]
      exact .backslash (hx _ hcontent)

/-- A string is closed exactly if it stops at a quote. -/
theorem closes_iff (hq : quote ≠ '\\') (h : StopsAt quote body rest stop) :
    closes quote body = true ↔ stop = .closingQuote := by
  cases h with
  | quote rest hcontent => simp [hcontent.closes_append, closes, hq]
  | input hcontent =>
      have hopen := hcontent.closes_append []
      rw [List.append_nil] at hopen
      simp [hopen, closes]
  | backslash hcontent => simp [hcontent.closes_append, closes]

/-- There is one reason for a string to stop. -/
theorem unique {rest' : Text} {stop' : Stop} (hq : quote ≠ '\\') (h : StopsAt quote body rest stop)
    (h' : StopsAt quote body rest' stop') : stop = stop' := by
  have hiff := (h.closes_iff hq).symm.trans (h'.closes_iff hq)
  cases stop with
  | closingQuote => exact (hiff.mp rfl).symm
  | endOfInput =>
      cases stop' with
      | closingQuote => exact hiff.mpr rfl
      | endOfInput => rfl

theorem iff_eq {stop' : Stop} (hq : quote ≠ '\\') (h : StopsAt quote body rest stop) :
    StopsAt quote body rest stop' ↔ stop = stop' := by
  refine ⟨h.unique hq, ?_⟩
  rintro rfl
  exact h

/-- Whatever is behind a string that stops at a quote, it stops there. -/
theorem behind_quote (h : StopsAt quote body rest .closingQuote) (y : Text) :
    StopsAt quote body y .closingQuote := by
  cases h with
  | quote _ hcontent => exact .quote y hcontent

end StopsAt

/-- **Scanning a string stops** at the first quote that is not escaped, or at the end. -/
theorem stringTail_stops (quote : Char) (cs : Text) :
    ∃ stop, StopsAt quote (stringTail quote cs) (afterString quote cs) stop := by
  fun_induction stringTail quote cs with
  | case1 => exact ⟨_, .input .nil⟩
  | case2 c =>
      by_cases hc : c = '\\'
      · rw [hc]
        exact ⟨_, .backslash .nil⟩
      · by_cases hq : c = quote
        · rw [hq]
          exact ⟨_, .quote [] .nil⟩
        · exact ⟨_, .input (.other hc hq .nil)⟩
  | case3 d cs ih =>
      obtain ⟨stop, h⟩ := ih
      rw [afterString, if_pos rfl]
      exact ⟨stop, @StopsAt.prepend _ _ _ _ ['\\', d] (fun _ => .escaped d) h⟩
  | case4 d cs hc =>
      rw [afterString, if_neg hc, if_pos rfl]
      exact ⟨_, .quote (d :: cs) .nil⟩
  | case5 c d cs hc hq ih =>
      obtain ⟨stop, h⟩ := ih
      rw [afterString, if_neg hc, if_neg hq]
      exact ⟨stop, @StopsAt.prepend _ _ _ _ [c] (fun _ => .other hc hq) h⟩

/-- A string as it is written stops by itself, and is closed exactly if it stops at a quote. -/
theorem Lexical.stopsAt {l : Lexeme} (hl : l.Lexical) (hk : l.kind = .stringLiteral) :
    ∃ quote body stop, l.text = quote :: body ∧ quote ≠ '\\' ∧ StopsAt quote body [] stop ∧
      ((Quoted.ofText l.text).closed = true ↔ stop = .closingQuote) := by
  have hclosed := (quotes_ofText hl hk).2
  rw [Lexical, hk] at hl
  obtain ⟨quote, body, htext, hquote, hwhole⟩ := hl
  have hq : quote ≠ '\\' := by rcases hquote with rfl | rfl <;> decide
  have hafter : afterString quote body = [] := by
    have hsplit := stringTail_append_afterString quote body
    rw [hwhole] at hsplit
    exact List.append_right_eq_self.mp hsplit
  obtain ⟨stop, hstops⟩ := stringTail_stops quote body
  rw [hwhole, hafter] at hstops
  refine ⟨quote, body, stop, htext, hq, hstops, ?_⟩
  rw [hclosed, htext]
  exact hstops.closes_iff hq

/-- A string that is closed is written as its content between its quotes. -/
theorem Lexical.text_of_closed {l : Lexeme} (hl : l.Lexical) (hk : l.kind = .stringLiteral)
    (hclosed : (Quoted.ofText l.text).closed = true) :
    l.text = (Quoted.ofText l.text).quote ::
      ((Quoted.ofText l.text).text ++ [(Quoted.ofText l.text).quote]) := by
  obtain ⟨hquotes, hagree⟩ := quotes_ofText hl hk
  rw [Quotes, ← hagree, if_pos hclosed] at hquotes
  exact hquotes

end Lexeme

/-! ## Literals -/

section Literals

variable {α : Type}

/-- Where the node is a literal, its mark with what is quoted and by what. -/
def Node.literal? : Node α → Option (α × Text × Char)
  | .primary (.literal m text quote) => some (m, text, quote)
  | _ => none

/-- The literals of the expression, in source order. -/
def Expression.literals (e : Expression α) : List (α × Text × Char) :=
  e.nodes.filterMap Node.literal?

theorem Expression.mem_literals_iff {e : Expression α} {m : α} {text : Text} {quote : Char} :
    (m, text, quote) ∈ e.literals ↔ .primary (.literal m text quote) ∈ e.nodes := by
  rw [literals, List.mem_filterMap]
  constructor
  · rintro ⟨n, hn, hliteral⟩
    unfold Node.literal? at hliteral
    split at hliteral
    · cases hliteral
      exact hn
    · cases hliteral
  · intro hn
    exact ⟨_, hn, rfl⟩

end Literals

/-! ## Strings of a text -/

namespace Grammar

variable {s : Text} {t : Token} {r : Rule Span}

/-- A string is a quote and all that scanning takes with it. -/
theorem string_lexical (ht : t ∈ tokenize s) (hk : t.kind = .stringLiteral) : t.lexeme.Lexical :=
  lexical_of_mem ht (hk ▸ TokenKind.noConfusion)

/-- A string that its split leaves open is the last token but for the end of the input. -/
theorem last_of_open (ht : t ∈ tokenize s) (hk : t.kind = .stringLiteral)
    (hopen : (Quoted.ofText t.text).closed = false) :
    ∃ ts, tokenize s = ts ++ [t, .atEnd s.size] := by
  refine open_string_last ht hk ?_
  rw [← hopen]
  exact (quotes_ofText (string_lexical ht hk) hk).2.symm

/-- The last token but for the end of the input has nothing behind it. -/
theorem rest_of_last {ts : List Token} {x y : Text} (h : tokenize s = ts ++ [t, .atEnd s.size])
    (hs : s = x ++ (t.text ++ y)) (hspan : t.span = ⟨x.size, x.size + t.text.size⟩) : y = [] := by
  have hnext := (tiles_tokenize s).next
  rw [h, List.isChain_append] at hnext
  have hstop : t.span.stop = s.size := (List.isChain_cons_cons.mp hnext.2.1).1
  rw [hspan, hs, Text.size_append, Text.size_append] at hstop
  by_contra hne
  have hpos := Text.size_pos hne
  simp only at hstop
  omega

/-- A string stands somewhere in its text, and stops there for the reason that its split at the
    quotes gives. -/
theorem string_stops (ht : t ∈ tokenize s) (hk : t.kind = .stringLiteral) :
    ∃ front quote body rest, s.cut? t.span.start = some (front, t.text ++ rest) ∧
      t.text = quote :: body ∧
      ((Quoted.ofText t.text).closed = true ↔ Lexeme.StopsAt quote body rest .closingQuote) ∧
      ((Quoted.ofText t.text).closed = false ↔ Lexeme.StopsAt quote body rest .endOfInput) := by
  obtain ⟨quote, body, stop, htext, hq, hstops, hclosed⟩ := (string_lexical ht hk).stopsAt hk
  obtain ⟨front, rest, hsplit, hspan⟩ := @exists_of_mem_place [] (lexemes s) t ht
  rw [List.nil_append, spelled, lexemes_texts] at hsplit
  have hclosed : (Quoted.ofText t.text).closed = true ↔ stop = .closingQuote := hclosed
  have hopen : (Quoted.ofText t.text).closed = false ↔ stop = .endOfInput := by
    rw [← Bool.not_eq_true, hclosed]
    cases stop <;> simp
  have hhere : Lexeme.StopsAt quote body rest stop := by
    cases stop with
    | closingQuote => exact hstops.behind_quote rest
    | endOfInput =>
        obtain ⟨ts, hlast⟩ := last_of_open ht hk (hopen.mpr rfl)
        rw [rest_of_last hlast hsplit hspan]
        exact hstops
  refine ⟨front, quote, body, rest, ?_, htext, hclosed.trans (hhere.iff_eq hq).symm,
    hopen.trans (hhere.iff_eq hq).symm⟩
  rw [hspan, hsplit]
  exact Text.cut?_append _ _

/-- The text of a string alone is scanned as that string. -/
theorem tokenize_string (ht : t ∈ tokenize s) (hk : t.kind = .stringLiteral) :
    tokenize t.text = [⟨.stringLiteral, ⟨0, t.text.size⟩, t.text⟩, .atEnd t.text.size] := by
  have hkind : t.lexeme.kind = .stringLiteral := hk
  have hlexemes : lexemes t.text = [t.lexeme] :=
    Lexeme.lexemes_text (string_lexical ht hk) (by rw [hkind]; rfl)
  rw [tokenize_eq, hlexemes, tokensAt, hkind, Nat.zero_add]
  rfl

/-! ## Rules -/

/-- The strings of a rule that was read are closed. -/
theorem closed_of_fits {used : List Token} (hused : used.Sublist (significant s))
    (hfits : Parser.RuleFits maxNesting used r) :
    ∀ t ∈ used, t.kind = .stringLiteral → (Quoted.ofText t.text).closed = true := by
  intro t ht hk
  have hwhole := (wholes_of_fits hused hfits t ht).1
  exact (quotes_ofText hwhole.lexical hk).2.trans (lasting_whole.closed t.lexeme hk hwhole)

/-- An open string stands behind every rule that was read. -/
theorem stop_le_of_open (ht : t ∈ tokenize s) (hk : t.kind = .stringLiteral)
    (hopen : (Quoted.ofText t.text).closed = false) (hr : r ∈ (parse s).rules) :
    r.mark.stop ≤ t.span.start := by
  obtain ⟨ts, hlast⟩ := last_of_open ht hk hopen
  obtain ⟨front, hfront⟩ := significant_last hlast (by rw [hk]; rfl) (hk ▸ TokenKind.noConfusion)
  obtain ⟨used, hused, hfits⟩ := (parse_amid s).sublist hr
  have hts := significant_scanned s
  have hbefore : ∀ u ∈ used, u ∈ front := by
    intro u hu
    have hmem := hused.subset hu
    rw [hfront] at hmem
    refine (List.mem_append.mp hmem).resolve_right fun hlast => ?_
    obtain rfl := List.mem_singleton.mp hlast
    exact Bool.false_ne_true (hopen.symm.trans (closed_of_fits hused hfits u hu hk))
  rw [hfront] at hts
  have hne := Parser.rule_ne_nil hfits.derives
  rw [hfits.derives.mark_eq, Span.over_stop hne]
  exact hts.stop_le_start (hbefore _ (List.getLast_mem hne)) (List.mem_singleton_self t)

/-- A literal in a rule comes from a string of the text that is closed. -/
theorem exists_string_of_literal (hr : r ∈ (parse s).rules) {m : Span} {text : Text} {quote : Char}
    (hliteral : (m, text, quote) ∈ r.body.literals) :
    ∃ t ∈ tokenize s, t.kind = .stringLiteral ∧ t.span = m ∧
      Quoted.ofText t.text = ⟨quote, text, true⟩ := by
  obtain ⟨used, hused, hfits⟩ := (parse_amid s).sublist hr
  have hclosed := closed_of_fits hused hfits
  obtain ⟨as, bs, cs, rfl, -, -, hbody⟩ := hfits.derives.body
  obtain ⟨us, hus, hnode⟩ := nodes_stand.expressions r.body bs hbody _
    (Expression.mem_literals_iff.mp hliteral)
  have hmem : ∀ u ∈ us, u ∈ as ++ bs ++ cs := (hus.trans (List.infix_append as bs cs)).subset
  have hnode : Primary.Derives .placed us (.literal m text quote) := hnode
  cases hnode with
  | @literal x _ _ _ hk hquotes hm =>
      have hx := hmem x (List.mem_singleton_self x)
      have hsignificant := hused.subset hx
      have hlexical := (significant_scanned s).lexical x hsignificant
      have hquote := (quotes_ofText hlexical hk).1.unique hquotes
      refine ⟨x, List.filter_sublist.subset hsignificant, hk, hm.symm, ?_⟩
      rw [← hquote.1, ← hquote.2, ← hclosed x hx hk]
      rfl

/-- The string `t` of the text `s` ends alike for scanning and for the split at its quotes. -/
structure EndsAlike (s : Text) (t : Token) : Prop where
  stops : ∃ front quote body rest, s.cut? t.span.start = some (front, t.text ++ rest) ∧
    t.text = quote :: body ∧
    ((Quoted.ofText t.text).closed = true ↔ Lexeme.StopsAt quote body rest .closingQuote) ∧
    ((Quoted.ofText t.text).closed = false ↔ Lexeme.StopsAt quote body rest .endOfInput)
  written : (Quoted.ofText t.text).closed = true → t.text = (Quoted.ofText t.text).quote ::
    ((Quoted.ofText t.text).text ++ [(Quoted.ofText t.text).quote])
  alone : tokenize t.text = [⟨.stringLiteral, ⟨0, t.text.size⟩, t.text⟩, .atEnd t.text.size]
  last : (Quoted.ofText t.text).closed = false → ∃ ts, tokenize s = ts ++ [t, .atEnd s.size]
  behind : (Quoted.ofText t.text).closed = false →
    ∀ r ∈ (parse s).rules, r.mark.stop ≤ t.span.start

/-- **Scanning and reading agree on where a string ends.**  The split at the quotes finds a
    string closed exactly if scanning stopped at a quote that is not escaped, and open exactly
    if it stopped at the end.  What is closed is its content between its quotes, and scanned
    alone it is the same string.  What is open is the last token but for the end of the input,
    and no rule that was read reaches it or has a literal from it. -/
theorem strings_end_alike (s : Text) :
    (∀ t ∈ tokenize s, t.kind = .stringLiteral → EndsAlike s t) ∧
    ∀ r ∈ (parse s).rules, ∀ m text quote, (m, text, quote) ∈ r.body.literals →
      ∃ t ∈ tokenize s, t.kind = .stringLiteral ∧ t.span = m ∧
        Quoted.ofText t.text = ⟨quote, text, true⟩ := by
  constructor
  · intro t ht hk
    exact {
      stops := string_stops ht hk
      written := (string_lexical ht hk).text_of_closed hk
      alone := tokenize_string ht hk
      last := last_of_open ht hk
      behind := fun hopen r hr => stop_le_of_open ht hk hopen hr }
  · intro r hr m text quote hliteral
    exact exists_string_of_literal hr hliteral

/-- A quote behind an escaped backslash closes its string, and an escaped quote does not. -/
theorem strings_end_alike_backslashes : ∃ (s : Text) (t u : Token),
    s = "a = \"\\\\\" ; b = 'x\\'".toList ∧
    t = ⟨.stringLiteral, ⟨4, 8⟩, "\"\\\\\"".toList⟩ ∧ EndsAlike s t ∧
    (Quoted.ofText t.text).closed = true ∧
    u = ⟨.stringLiteral, ⟨15, 19⟩, "'x\\'".toList⟩ ∧ EndsAlike s u ∧
    (Quoted.ofText u.text).closed = false ∧
    (parse s).rules.map (·.mark) = [⟨0, 10⟩] ∧
    ∃ v ∈ tokenize s, v.kind = .stringLiteral ∧ v.span = ⟨4, 8⟩ ∧
      Quoted.ofText v.text = ⟨'"', "\\\\".toList, true⟩ := by
  have hrules : (parse "a = \"\\\\\" ; b = 'x\\'".toList).rules.map
      (fun r => (r.mark, r.body.literals)) = [(⟨0, 10⟩, [(⟨4, 8⟩, "\\\\".toList, '"')])] := by
    decide +kernel
  obtain ⟨r, rs, heq, hr, hrs⟩ := List.map_eq_cons_iff.mp hrules
  obtain rfl := List.map_eq_nil_iff.mp hrs
  obtain ⟨hmark, hliterals⟩ := Prod.mk.inj hr
  obtain ⟨hstrings, hread⟩ := strings_end_alike "a = \"\\\\\" ; b = 'x\\'".toList
  refine ⟨_, _, _, rfl, rfl, hstrings _ (by decide +kernel) rfl, by decide +kernel, rfl,
    hstrings _ (by decide +kernel) rfl, by decide +kernel, ?_, ?_⟩
  · rw [heq, List.map_singleton, hmark]
  · refine hread r ?_ _ _ _ ?_
    · rw [heq]
      exact List.mem_singleton_self r
    · rw [hliterals]
      exact List.mem_singleton_self _

end Grammar

end EbnfKit
