import EbnfKit.Fix.Round
import EbnfKit.Proofs.Rounds

/-! # Convergence — repeated rounds come to an end

    Every fix makes the tokens lighter, where a semicolon and an opening parenthesis weigh
    one, a comma two, and the rest nothing:

      removing a rule          takes its semicolon
      dropping parentheses     takes an opening one
      counting a run           takes a comma at least, and puts one parenthesis at most

    In a text without syntax errors the semicolons are the rules and the parentheses the
    groups, so that the tokens weigh

      rules + 2 * commas + groups

    and there are no more rounds than that, with or without a limit on them. -/

namespace EbnfKit

/-! ## Weights -/

/-- What a lexeme of the kind weighs. -/
def TokenKind.weight : TokenKind → Nat
  | .semicolon | .leftParen => 1
  | .comma => 2
  | _ => 0

/-- What the lexemes weigh together. -/
def weight : List Lexeme → Nat
  | [] => 0
  | l :: ls => l.kind.weight + weight ls

@[simp] theorem weight_nil : weight [] = 0 := rfl

@[simp] theorem weight_cons (l : Lexeme) (ls : List Lexeme) :
    weight (l :: ls) = l.kind.weight + weight ls := rfl

@[simp] theorem weight_append (ls ms : List Lexeme) : weight (ls ++ ms) = weight ls + weight ms := by
  induction ls with
  | nil => rw [List.nil_append, weight_nil, Nat.zero_add]
  | cons l ls ih => rw [List.cons_append, weight_cons, weight_cons, ih, Nat.add_assoc]

theorem weight_of_gists {ls ms : List Lexeme} (h : ls.map Lexeme.gist = ms.map Lexeme.gist) :
    weight ls = weight ms := by
  induction ls generalizing ms with
  | nil => rw [List.map_eq_nil_iff.mp h.symm]
  | cons l ls ih =>
      cases ms with
      | nil => cases h
      | cons m ms =>
          obtain ⟨hgist, hgists⟩ := List.cons.inj h
          have hkind : l.kind = m.kind := congrArg Prod.fst hgist
          rw [weight_cons, weight_cons, hkind, ih hgists]

/-- The weight counts semicolons and opening parentheses once, and commas twice. -/
theorem weight_eq (ls : List Lexeme) : weight ls = ls.countP (·.kind == .semicolon) +
    2 * ls.countP (·.kind == .comma) + ls.countP (·.kind == .leftParen) := by
  induction ls with
  | nil => rfl
  | cons l ls ih =>
      obtain ⟨kind, text⟩ := l
      rw [weight_cons, ih, List.countP_cons, List.countP_cons, List.countP_cons]
      cases kind <;> simp [TokenKind.weight] <;> omega

/-! ## Fixes make lighter -/

section Lighter

variable {f : Fix} {us : List Token}

/-- A fix of a node writes less than it stands over. -/
theorem Fix.StandsOver.lighter (h : f.StandsOver us) (hus : Legible us) :
    weight f.lexemes < weight (us.map Token.lexeme) := by
  cases h with
  | @count b r hr _ hb =>
      obtain ⟨hwritten, hgists⟩ := Fix.lexemes_countRun hus hr hb
      obtain ⟨hlen, -, -, -⟩ := Run.ofBlock?_eq_some_iff.mp hr
      -- there is a second factor, with a comma in front
      obtain ⟨g, gs, hgs⟩ : ∃ g gs, b.2 = g :: gs :=
        List.exists_cons_of_length_pos (Nat.lt_of_succ_lt_succ hlen)
      have hstands : weight r.factor.lexemes + 2 ≤ weight (us.map Token.lexeme) := by
        rw [weight_of_gists hgists, hgs, weight_append, List.flatMap_cons, List.cons_append,
          weight_cons]
        show _ + 2 ≤ _ + (2 + _)
        omega
      have honce : weight r.once.lexemes ≤ weight r.factor.lexemes + 1 := by
        rw [Run.lexemes_once, weight_append]
        show 0 + _ ≤ _
        split
        · omega
        · rw [weight_cons, weight_append]
          show 0 + (1 + (_ + 0)) ≤ _
          omega
      rw [hwritten]
      omega
  | @drop _ p q hq hp =>
      obtain ⟨hwritten, hgists⟩ := Fix.lexemes_dropParentheses hus hq hp
      rw [hwritten, weight_of_gists hgists, weight_cons, weight_append]
      show _ < 1 + (_ + 0)
      omega

/-- The fix writes less than the tokens that it is over. -/
def Fix.Lightens (f : Fix) (ts : List Token) : Prop :=
  ∃ us, f.Over us ts ∧ weight f.lexemes < weight (us.map Token.lexeme)

/-- **Each fix takes weight away.** -/
theorem weight_editTokens {fixes : List Fix} (hordered : Ordered fixes) {ts : List Token}
    (hts : Scanned ts) (h : ∀ f ∈ fixes, f.Lightens ts) :
    weight (editTokens fixes ts) + fixes.length ≤ weight (ts.map Token.lexeme) := by
  induction fixes with
  | nil => exact Nat.le_of_eq (congrArg weight (editTokens_untouched (List.forall_mem_nil _)))
  | cons f fixes ih =>
      obtain ⟨⟨us, hover, hlight⟩, hfixes⟩ := List.forall_mem_cons.mp h
      obtain ⟨as, bs, -, hwith, hwithout⟩ := editTokens_cons hordered hts hover
      have hle := ih (List.pairwise_cons.mp hordered).2 hfixes
      rw [hwithout, weight_append, weight_append] at hle
      rw [hwith, weight_append, weight_append, List.length_cons]
      omega

end Lighter

/-! ## The weight of a text -/

/-- The node is a group. -/
def Node.isGroup {α : Type} : Node α → Bool
  | .primary (.bracketed _ .group _) => true
  | _ => false

/-- What can be taken from a text by fixing it: its rules, its commas, each twice, and its
    groups. -/
def effort (s : Text) : Nat :=
  (Grammar.parse s).rules.length + 2 * (tokenize s).countP (·.is .comma) +
    (Grammar.parse s).nodes.countP Node.isGroup

section Counts

variable {α : Type}

/-- A mark for everything that is counted. -/
def tick (b : Bool) : List Unit :=
  if b then [()] else []

theorem countP_eq_length {β : Type} (p : β → Bool) (xs : List β) :
    xs.countP p = (xs.flatMap fun x => tick (p x)).length := by
  induction xs with
  | nil => rfl
  | cons x xs ih =>
      rw [List.countP_cons, List.flatMap_cons, List.length_append, ← ih, Nat.add_comm]
      cases p x <;> rfl

theorem census_groups : Census (fun l => tick (l.kind == .leftParen))
    (fun n : Node α => tick n.isGroup) where
  sign := List.all_iff_forall_prop.mp rfl
  number _ := rfl
  expression _ := rfl
  term _ := rfl
  factor _ := rfl
  reference _ _ := rfl
  literal _ _ _ := rfl
  bracketed _ b _ := by cases b <;> rfl

theorem census_semicolons : Census (fun l => tick (l.kind == .semicolon))
    (fun _ : Node α => []) where
  sign := List.all_iff_forall_prop.mp rfl
  number _ := rfl
  expression _ := rfl
  term _ := rfl
  factor _ := rfl
  reference _ _ := rfl
  literal _ _ _ := rfl
  bracketed _ b _ := by cases b <;> rfl

/-- A rule has a semicolon, and a parenthesis for every group. -/
theorem Rule.countP_lexemes (r : Rule α) : r.lexemes.countP (·.kind == .semicolon) = 1 ∧
    r.lexemes.countP (·.kind == .leftParen) = r.body.nodes.countP Node.isGroup := by
  have hsemicolons : r.body.lexemes.countP (·.kind == .semicolon) = 0 := by
    rw [countP_eq_length, (lexemes_census census_semicolons).expressions r.body]
    simp
  have hgroups : r.body.lexemes.countP (·.kind == .leftParen) = r.body.nodes.countP Node.isGroup := by
    rw [countP_eq_length, countP_eq_length, (lexemes_census census_groups).expressions r.body]
  constructor
  · rw [Rule.lexemes, List.countP_cons, List.countP_cons, List.countP_append, hsemicolons]
    rfl
  · rw [Rule.lexemes, List.countP_cons, List.countP_cons, List.countP_append, hgroups]
    rfl

end Counts

namespace Grammar

variable {s s' : Text} {fixes : List Fix}

/-- A text without syntax errors weighs what can be taken from it. -/
theorem effort_eq_weight (h : (parse s).diagnostics = []) :
    effort s = weight ((significant s).map Token.lexeme) := by
  have hgists := (derives_of_clean h).gists
  rw [Reading.gists_placed] at hgists
  -- what is counted by kind can be counted in the lexemes of the rules
  have hkinds : ∀ k : TokenKind, ((significant s).map Token.lexeme).countP (·.kind == k)
      = ((parse s).rules.flatMap Rule.lexemes).countP (·.kind == k) := by
    intro k
    have hmap : ∀ ls : List Lexeme,
        ls.countP (·.kind == k) = (ls.map Lexeme.gist).countP (·.1 == k) := by
      intro ls
      rw [List.countP_map]
      rfl
    rw [hmap, hmap, hgists]
  have hrules : ((parse s).rules.flatMap Rule.lexemes).countP (·.kind == .semicolon)
      = (parse s).rules.length := by
    rw [List.countP_flatMap]
    show ((parse s).rules.map fun r => r.lexemes.countP (·.kind == .semicolon)).sum = _
    rw [List.map_congr_left fun r _ => (Rule.countP_lexemes r).1]
    simp
  have hgroups : ((parse s).rules.flatMap Rule.lexemes).countP (·.kind == .leftParen)
      = (parse s).nodes.countP Node.isGroup := by
    rw [nodes, List.countP_flatMap, List.countP_flatMap]
    exact congrArg List.sum (List.map_congr_left fun r _ => (Rule.countP_lexemes r).2)
  have hcommas : ((significant s).map Token.lexeme).countP (·.kind == .comma)
      = (tokenize s).countP (·.is .comma) := by
    rw [List.countP_map, significant, List.countP_filter]
    refine List.countP_congr fun t _ => ?_
    obtain ⟨kind, span, text⟩ := t
    cases kind <;> simp [Token.is, Token.lexeme, TokenKind.isTrivia]
  rw [weight_eq, hkinds, hkinds .leftParen, hrules, hgroups, hcommas]
  rfl

/-- A fix that serves a rule makes the text lighter. -/
theorem Serves.lightens (h : (parse s).diagnostics = []) {f : Fix} (hf : (parse s).Serves f) :
    f.Lightens (significant s) := by
  have hlegible := legible_of_clean h
  obtain ⟨ps, hs⟩ := (finished_of_clean h).layout
  rcases hf with ⟨r, hr, -, rfl⟩ | ⟨r, hr, hf⟩
  · obtain ⟨us, hus, hderives⟩ := (derives_of_clean h).stretch hr
    obtain ⟨hstart, -, hstop, -, honly⟩ := span_of_removal h hs hr
    have hgists := hderives.gists
    rw [Reading.gists_placed] at hgists
    rw [source_parse]
    rw [hderives.mark_eq] at hstart hstop honly
    refine ⟨us, ⟨hus, Parser.rule_ne_nil hderives, hstart, hstop, honly⟩, ?_⟩
    have hsemicolon := (Rule.countP_lexemes r).1
    rw [Fix.lexemes_removeRule, weight_of_gists hgists, weight_eq r.lexemes, weight_nil]
    omega
  · obtain ⟨ts, hts, hderives⟩ := (derives_of_clean h).stretch hr
    obtain ⟨as, us, bs, rfl, -, -, hbody⟩ := hderives.body
    obtain ⟨vs, hvs, hstands⟩ := fixes_stand (nodes_stand.expressions r.body us hbody) f hf
    have hvs := (hvs.trans (List.infix_append as us bs)).trans hts
    exact ⟨vs, hstands.over hvs hlegible, hstands.lighter (hlegible.sublist hvs.sublist)⟩

/-- A round takes as much as it has fixes. -/
theorem Round.effort_le (h : (parse s).diagnostics = []) (hround : Round s fixes s')
    (hclean : (parse s').diagnostics = []) : effort s' + fixes.length ≤ effort s := by
  rw [effort_eq_weight h, effort_eq_weight hclean, hround.significant]
  exact weight_editTokens hround.ordered (significant_scanned s)
    fun f hf => (hround.serves f hf).lightens h

/-- A round has no more fixes than can be taken from the text. -/
theorem Round.length_le (h : (parse s).diagnostics = []) (hround : Round s fixes s') :
    fixes.length ≤ effort s := by
  have hweight := weight_editTokens hround.ordered (significant_scanned s)
    fun f hf => (hround.serves f hf).lightens h
  rw [effort_eq_weight h]
  omega

/-! ## Rounds without a limit -/

/-- A round is its fixes, offered and applied. -/
theorem round_eq_ok {g : Grammar} {ds : List Diagnostic} {x : Text}
    (hoffer : Fix.offerAll g ds = .ok fixes) (happly : Fix.apply g.source fixes = .ok x) :
    Fix.round g ds = .ok (fixes, x) := by
  rw [Fix.round, hoffer]
  show (Fix.apply g.source fixes >>= fun text => pure (fixes, text)) = _
  rw [happly]
  rfl

/-- A text without syntax errors goes through one round, and only one. -/
theorem round_of_clean (h : (parse s).diagnostics = []) :
    ∃ fixes s', Fix.round (parse s) (parse s).analyze = .ok (fixes, s') ∧
      Fix.offerAll (parse s) (parse s).analyze = .ok fixes ∧ Round s fixes s' := by
  obtain ⟨fixes, s', hoffer, happly, hround⟩ := exists_round h
  rw [← source_parse s] at happly
  exact ⟨fixes, s', round_eq_ok hoffer happly, hoffer, hround⟩

/-- Nothing is found where there are no rules. -/
theorem analyze_eq_nil {g : Grammar} (h : g.rules = []) : g.analyze = [] := by
  refine List.eq_nil_iff_forall_not_mem.mpr fun d hd => ?_
  obtain ⟨pass, hpass⟩ := mem_analyze.mp hd
  cases pass <;>
    simp [Pass.run, Check.undefinedRules, Check.duplicateRules, Check.unreachableRules,
      Check.startRule?, Check.endlessRules, Check.ambiguousExpressions, Check.redundantGroups,
      Check.repeatedRuns, sites, duplicates, duplicatesAfter, firstRule?, definitions, distinctBy,
      redundantGroups, repeatedRuns, nodes, h] at hpass

/-- How rounds come to an end: nothing is left to fix, or a round below the bound broke the
    grammar, or it was broken from the start. -/
def Settled (s : Text) (number : Nat) : Except Fix.RoundsError Fix.Fixed → Prop
  | .ok fixed => Fix.offerAll (parse fixed.text) (parse fixed.text).analyze = .ok []
  | .error (.broken round count) => number ≤ round ∧ round < number + effort s ∧ 0 < count
  | .error (.fix e) => (parse s).diagnostics ≠ [] ∧ e = .syntaxErrors (parse s).diagnostics.length

/-- Rounds end as well with one more in front that takes something. -/
theorem Settled.after_round {number : Nat} {outcome : Except Fix.RoundsError Fix.Fixed}
    (h : Settled s' (number + 1) outcome) (hclean : (parse s').diagnostics = [])
    (hless : effort s' < effort s) (applied : Nat) :
    Settled s number (outcome.map fun fixed => ⟨fixed.text, applied + fixed.applied⟩) := by
  cases outcome with
  | ok fixed => exact h
  | error e =>
      cases e with
      | broken round count =>
          obtain ⟨hround, hbound, hcount⟩ := h
          exact ⟨by omega, by omega, hcount⟩
      | fix e => exact absurd hclean h.1

/-- Where nothing is offered, rounds end at once. -/
theorem rounds_of_nothing {x : Text} (h : Fix.round (parse s) (parse s).analyze = .ok ([], x))
    (number left : Nat) : Fix.rounds number left (parse s) = .ok ⟨s, 0⟩ := by
  cases left with
  | zero => rw [Fix.rounds, source_parse]
  | succ left => rw [Fix.rounds, h, source_parse]

/-- **Rounds on a text without syntax errors settle**, by induction on what can still be taken
    from it. -/
theorem rounds_settle_clean (n : Nat) : ∀ {s : Text}, effort s = n → (parse s).diagnostics = [] →
    ∀ number left, effort s ≤ left →
      Fix.rounds number left (parse s) = Fix.rounds number (effort s) (parse s) ∧
        Settled s number (Fix.rounds number (effort s) (parse s)) := by
  induction n using Nat.strongRecOn with
  | ind n ih =>
      intro s hn h number left hleft
      obtain ⟨fixes, s', hrun, hoffer, hround⟩ := round_of_clean h
      cases fixes with
      | nil =>
          rw [rounds_of_nothing hrun, rounds_of_nothing hrun]
          exact ⟨rfl, hoffer⟩
      | cons f fixes =>
          have hlength := hround.length_le h
          obtain ⟨e, he⟩ : ∃ e, effort s = e + 1 := Nat.exists_eq_add_one.mpr (by
            rw [List.length_cons] at hlength
            omega)
          obtain ⟨l, rfl⟩ : ∃ l, left = l + 1 := Nat.exists_eq_add_one.mpr (by omega)
          have hstep : ∀ k, Fix.rounds number (k + 1) (parse s) =
              if (parse s').isBroken then .error (.broken number (parse s').diagnostics.length)
              else (Fix.rounds (number + 1) k (parse s')).map fun fixed =>
                ⟨fixed.text, (f :: fixes).length + fixed.applied⟩ := by
            intro k
            rw [Fix.rounds, hrun]
          rw [he, hstep, hstep]
          by_cases hbroken : (parse s').diagnostics = []
          · have hless := hround.effort_le h hbroken
            rw [List.length_cons] at hless
            have hunbroken := isBroken_of_clean hbroken
            have hnext := ih (effort s') (by omega) rfl hbroken (number + 1)
            obtain ⟨hsame, hsettled⟩ := hnext e (by omega)
            rw [hunbroken, if_neg Bool.false_ne_true, if_neg Bool.false_ne_true, (hnext l (by omega)).1,
              hsame]
            exact ⟨rfl, hsettled.after_round hbroken (by omega) _⟩
          · have hisbroken : (parse s').isBroken = true := by
              rw [isBroken, Bool.not_eq_true', List.isEmpty_eq_false_iff]
              exact hbroken
            rw [hisbroken, if_pos rfl, if_pos rfl]
            exact ⟨rfl, Nat.le_refl _, by omega, List.length_pos_iff.mpr hbroken⟩

/-- On a broken text nothing is fixed. -/
theorem rounds_settle_broken (h : (parse s).diagnostics ≠ []) (number left : Nat)
    (hleft : effort s ≤ left) :
    Fix.rounds number left (parse s) = Fix.rounds number (effort s) (parse s) ∧
      Settled s number (Fix.rounds number (effort s) (parse s)) := by
  cases hfound : (parse s).analyze with
  | nil =>
      have hoffer : Fix.offerAll (parse s) (parse s).analyze = .ok [] := by rw [hfound]; rfl
      have hrun := round_eq_ok (x := (parse s).source) hoffer rfl
      rw [rounds_of_nothing hrun, rounds_of_nothing hrun]
      exact ⟨rfl, hoffer⟩
  | cons d ds =>
      have hisbroken : (parse s).isBroken = true := by
        rw [isBroken, Bool.not_eq_true', List.isEmpty_eq_false_iff]
        exact h
      have hoffer : Fix.round (parse s) (parse s).analyze
          = .error (.syntaxErrors (parse s).diagnostics.length) := by
        rw [Fix.round, hfound, Fix.offerAll, Fix.offerAfter, Fix.offerAt, if_pos hisbroken]
        rfl
      have hrules : 0 < (parse s).rules.length := by
        refine List.length_pos_iff.mpr fun hnil => ?_
        rw [analyze_eq_nil hnil] at hfound
        cases hfound
      have hrounds : ∀ k, 0 < k → Fix.rounds number k (parse s)
          = .error (.fix (.syntaxErrors (parse s).diagnostics.length)) := by
        intro k hk
        obtain ⟨k, rfl⟩ := Nat.exists_eq_add_one.mpr hk
        rw [Fix.rounds, hoffer]
      have heffort : 0 < effort s := by
        rw [effort]
        omega
      rw [hrounds left (by omega), hrounds (effort s) heffort]
      exact ⟨rfl, h, rfl⟩

/-- **Repeated fixing converges.**  A round that applies a fix and leaves no syntax errors
    takes something from the text for every fix.  So with a limit that high or higher rounds
    end in the same way, with nothing left to fix or with syntax errors. -/
theorem rounds_converge (s : Text) :
    ((parse s).diagnostics = [] → ∀ fixes s',
      Fix.round (parse s) (parse s).analyze = .ok (fixes, s') → fixes ≠ [] →
      (parse s').diagnostics = [] → effort s' < effort s) ∧
    ∀ number left, effort s ≤ left →
      Fix.rounds number left (parse s) = Fix.rounds number (effort s) (parse s) ∧
        Settled s number (Fix.rounds number (effort s) (parse s)) := by
  constructor
  · intro h fixes s' hrun hne hclean
    obtain ⟨fixes', s'', hrun', -, hround⟩ := round_of_clean h
    rw [hrun] at hrun'
    obtain ⟨rfl, rfl⟩ := Prod.mk.inj (Except.ok.inj hrun')
    have hless := hround.effort_le h hclean
    have hpos := List.length_pos_iff.mpr hne
    omega
  · intro number left hleft
    by_cases h : (parse s).diagnostics = []
    · exact rounds_settle_clean (effort s) rfl h number left hleft
    · exact rounds_settle_broken h number left hleft

/-- Two groups, a run and a rule that is not needed: three of the four go in the first
    round. -/
theorem rounds_converge_two_groups :
    (∃ fixes, Fix.round (parse "a = ( ( 'x' ) ) , 'x' , 'x' ; b = a ;".toList)
        (parse "a = ( ( 'x' ) ) , 'x' , 'x' ; b = a ;".toList).analyze
          = .ok (fixes, "a = ( 'x' ) , 2 * 'x' ; ".toList) ∧
      effort "a = ( 'x' ) , 2 * 'x' ; ".toList < effort "a = ( ( 'x' ) ) , 'x' , 'x' ; b = a ;".toList) ∧
    Fix.rounds 1 100 (parse "a = ( ( 'x' ) ) , 'x' , 'x' ; b = a ;".toList)
      = Fix.rounds 1 (effort "a = ( ( 'x' ) ) , 'x' , 'x' ; b = a ;".toList)
          (parse "a = ( ( 'x' ) ) , 'x' , 'x' ; b = a ;".toList) := by
  have hclean : (parse "a = ( ( 'x' ) ) , 'x' , 'x' ; b = a ;".toList).diagnostics = [] := by
    decide +kernel
  have hclean' : (parse "a = ( 'x' ) , 2 * 'x' ; ".toList).diagnostics = [] := by
    decide +kernel
  have hround : (Fix.round (parse "a = ( ( 'x' ) ) , 'x' , 'x' ; b = a ;".toList)
      (parse "a = ( ( 'x' ) ) , 'x' , 'x' ; b = a ;".toList).analyze).toOption.map
        (fun p => (p.1.length, p.2)) = some (3, "a = ( 'x' ) , 2 * 'x' ; ".toList) := by
    decide +kernel
  have heffort : effort "a = ( ( 'x' ) ) , 'x' , 'x' ; b = a ;".toList ≤ 100 := by
    decide +kernel
  obtain ⟨hless, hsame⟩ := rounds_converge "a = ( ( 'x' ) ) , 'x' , 'x' ; b = a ;".toList
  obtain ⟨fixes, s', hrun, -, -⟩ := round_of_clean hclean
  rw [hrun] at hround
  obtain ⟨hlength, rfl⟩ := Prod.mk.inj (Option.some.inj hround)
  have hne : fixes ≠ [] := by
    rintro rfl
    cases hlength
  exact ⟨⟨fixes, hrun, hless hclean fixes _ hrun hne hclean'⟩, (hsame 1 100 heffort).1⟩

end Grammar

end EbnfKit
