import EbnfKit.Proofs.Framing

/-! # Problems — all that the parser complains of is syntax

    A reader complains by notes, which do not stop it, and by the error that does.  All of
    them are syntax errors, and so are those about comments and skipped characters:

      d ∈ (ofTokens ts).diagnostics   implies   d.problem = syntaxError

    So in a report the problems of the parser are told from those that the checks find. -/

namespace EbnfKit

variable {α β : Type}

namespace Reader

/-- All that `p` complains of is syntax, whatever the tokens. -/
def Syntactic (p : Reader α) : Prop :=
  ∀ stop ts, (∀ d ∈ (p stop ts).notes, d.problem = .syntaxError) ∧
    ∀ e, (p stop ts).result = .error e → e.problem = .syntaxError

/-- A reader that has no complaint. -/
theorem Syntactic.of_ok {p : Reader α} (h : ∀ stop ts, ∃ backward a rest,
    p stop ts = ⟨[], backward, .ok a, rest⟩) : Syntactic p := by
  intro stop ts
  obtain ⟨backward, a, rest, hreply⟩ := h stop ts
  rw [hreply]
  exact ⟨List.forall_mem_nil _, nofun⟩

theorem Syntactic.bind {p : Reader α} {f : α → Reader β} (hp : Syntactic p)
    (hf : ∀ a, Syntactic (f a)) : Syntactic (p >>= f) := by
  intro stop ts
  obtain ⟨hnotes, herror⟩ := hp stop ts
  rcases hreply : p stop ts with ⟨notes, backward, result, rest⟩
  rw [hreply] at hnotes herror
  cases result with
  | error e =>
      rw [bind_error hreply]
      refine ⟨hnotes, fun e' he' => ?_⟩
      rw [← Except.error.inj he']
      exact herror e rfl
  | ok a =>
      obtain ⟨hlater, herror'⟩ := hf a stop rest
      rw [bind_ok hreply]
      exact ⟨List.forall_mem_append.mpr ⟨hnotes, hlater⟩, herror'⟩

theorem syntactic_pure (a : α) : Syntactic (Pure.pure a : Reader α) :=
  .of_ok fun _ ts => ⟨[], a, ts, rfl⟩

theorem syntactic_fail (span : Span) (message : String) :
    Syntactic (fail (.syntaxError span message) : Reader α) := by
  refine fun _ _ => ⟨List.forall_mem_nil _, fun e he => ?_⟩
  rw [← Except.error.inj he]
  rfl

theorem syntactic_note (span : Span) (message : String) :
    Syntactic (note (.syntaxError span message)) :=
  fun _ _ => ⟨List.forall_mem_singleton.mpr rfl, nofun⟩

theorem syntactic_unexpected (expected : String) : Syntactic (unexpected expected : Reader α) := by
  refine fun _ _ => ⟨List.forall_mem_nil _, fun e he => ?_⟩
  rw [← Except.error.inj he]
  rfl

theorem syntactic_accept (kind : TokenKind) : Syntactic (accept kind) := by
  refine .of_ok fun stop ts => ?_
  rcases next_cases kind ts with ⟨t, rest, hk, rfl⟩ | hnot
  · exact ⟨[], some t, rest, accept_of_eq hk stop rest⟩
  · exact ⟨[], none, ts, accept_of_notNext hnot stop⟩

theorem syntactic_expect (kind : TokenKind) : Syntactic (expect kind) :=
  (syntactic_accept kind).bind fun x =>
    match x with
    | none => syntactic_unexpected _
    | some t => syntactic_pure t

theorem syntactic_others {separator : TokenKind} {item : Reader α} (hitem : Syntactic item)
    (n : Nat) : Syntactic (others separator item n) := by
  induction n with
  | zero => exact syntactic_pure []
  | succ n ih =>
      refine (syntactic_accept separator).bind fun x => ?_
      cases x with
      | none => exact syntactic_pure []
      | some _ => exact hitem.bind fun a => ih.bind fun as => syntactic_pure (a :: as)

theorem syntactic_separated {separator : TokenKind} {item : Reader α} (hitem : Syntactic item) :
    Syntactic (separated separator item) := by
  have hothers : Syntactic fun stop ts => others separator item ts.length stop ts :=
    fun stop ts => syntactic_others hitem ts.length stop ts
  exact hitem.bind fun a => hothers.bind fun as => syntactic_pure (a, as)

end Reader

/-! ## The readers of the parser -/

namespace Parser

open Reader

theorem syntactic_count : Syntactic count := by
  refine (syntactic_accept _).bind fun x => ?_
  cases x with
  | none => exact syntactic_pure none
  | some t =>
      dsimp only
      cases t.text.count? with
      | none => exact syntactic_fail _ _
      | some n => exact (syntactic_expect _).bind fun _ => syntactic_pure (some n)

theorem syntactic_literal (t : Token) : Syntactic (literal t) := by
  rw [literal]
  show Syntactic (if !(Quoted.ofText t.text).closed then _ else _)
  split
  · exact (syntactic_note _ _).bind fun _ => syntactic_pure _
  · exact syntactic_pure _

section Inner

variable {inner : Option (Reader (Expression Span))}

theorem syntactic_bracketed (hinner : ∀ p ∈ inner, Syntactic p) (bracket : Bracket)
    (opening : Span) : Syntactic (bracketed inner bracket opening) := by
  cases inner with
  | none => exact syntactic_fail _ _
  | some p =>
      exact (hinner p rfl).bind fun _ => (syntactic_expect _).bind fun _ => syntactic_pure _

theorem syntactic_primary (hinner : ∀ p ∈ inner, Syntactic p) : Syntactic (primary inner) := by
  intro stop ts
  rw [primary.eq_def]
  -- a primary goes by its first token
  split
  · exact syntactic_unexpected _ stop []
  · split
    · exact ⟨List.forall_mem_nil _, nofun⟩
    · exact syntactic_literal _ stop _
    · exact syntactic_bracketed hinner _ _ stop _
    · exact syntactic_unexpected _ stop _

theorem syntactic_exception (hinner : ∀ p ∈ inner, Syntactic p) : Syntactic (exception inner) := by
  refine (syntactic_accept _).bind fun x => ?_
  cases x with
  | none => exact syntactic_pure none
  | some _ => exact (syntactic_primary hinner).bind fun p => syntactic_pure (some p)

theorem syntactic_factor (hinner : ∀ p ∈ inner, Syntactic p) : Syntactic (factor inner) := by
  have hhere : Syntactic here := .of_ok fun _ ts => ⟨[], _, ts, rfl⟩
  have hspan : ∀ start stop, Syntactic (span start stop) :=
    fun _ _ => .of_ok fun _ ts => ⟨_, _, ts, rfl⟩
  exact hhere.bind fun _ => syntactic_count.bind fun _ =>
    (syntactic_primary hinner).bind fun _ => (syntactic_exception hinner).bind fun _ =>
      (hspan _ _).bind fun _ => syntactic_pure _

theorem syntactic_choice (hinner : ∀ p ∈ inner, Syntactic p) : Syntactic (choice inner) := by
  have hterm : Syntactic (term inner) :=
    (syntactic_separated (syntactic_factor hinner)).bind fun _ => syntactic_pure _
  exact (syntactic_separated hterm).bind fun _ => syntactic_pure _

end Inner

theorem syntactic_expression (depth : Nat) : Syntactic (expression depth) := by
  induction depth with
  | zero => exact syntactic_choice nofun
  | succ depth ih => exact syntactic_choice fun p hp => Option.some.inj hp ▸ ih

theorem syntactic_rule : Syntactic rule :=
  (syntactic_expect _).bind fun _ => (syntactic_expect _).bind fun _ =>
    (syntactic_expression maxNesting).bind fun _ => (syntactic_expect _).bind fun _ =>
      syntactic_pure _

/-- Step by step, whether it ends in a rule or not. -/
theorem syntactic_sectionAt (stop : Span) (ts : List Token) :
    (∀ d ∈ (sectionAt stop ts).notes, d.problem = .syntaxError) ∧
      ∀ e, (sectionAt stop ts).error? = some e → e.problem = .syntaxError := by
  obtain ⟨hnotes, herror⟩ := syntactic_rule stop ts
  have hskip : ∀ (reported : Span) (given : List Token), ∀ d ∈ given.flatMap (skipNote reported),
      d.problem = .syntaxError := by
    intro reported given d hd
    obtain ⟨t, -, hd⟩ := List.mem_flatMap.mp hd
    rw [skipNote] at hd
    split at hd
    · rw [List.mem_singleton.mp hd]
      rfl
    · cases hd
  rw [sectionAt]
  cases hresult : (rule stop ts).result with
  | ok r => exact ⟨hnotes, nofun⟩
  | error e =>
      refine ⟨List.forall_mem_append.mpr ⟨hnotes, hskip _ _⟩, fun e' he' => ?_⟩
      rw [← Option.some.inj he']
      exact herror e hresult

/-- Every step through a file starts somewhere in it. -/
theorem mem_sectionsWithin {stop : Span} {step : Section} :
    ∀ {n : Nat} {ts : List Token}, step ∈ sectionsWithin stop n ts →
      ∃ us, us <:+ ts ∧ step = sectionAt stop us := by
  intro n
  induction n with
  | zero => exact fun h => nomatch h
  | succ n ih =>
      intro ts h
      cases ts with
      | nil => cases h
      | cons t ts =>
          rcases List.mem_cons.mp h with rfl | h
          · exact ⟨t :: ts, List.suffix_refl _, rfl⟩
          · obtain ⟨us, hus, rfl⟩ := ih h
            exact ⟨us, hus.trans (List.drop_suffix _ _), rfl⟩

end Parser

/-- Each error about comments starts where an opening mark does. -/
theorem Comments.exists_of_mem_unterminatedAll {d : Diagnostic} {ts : List Token}
    (h : d ∈ unterminatedAll ts) :
    ∃ t ∈ ts, t.kind = .commentStart ∧ ∃ n, d = unterminated ⟨t.span.start, n⟩ := by
  induction ts with
  | nil => cases h
  | cons t ts ih =>
      have hlater : d ∈ unterminatedAll ts → ∃ u ∈ t :: ts, u.kind = .commentStart ∧
          ∃ n, d = unterminated ⟨u.span.start, n⟩ := by
        intro h
        obtain ⟨u, hu, hstart⟩ := ih h
        exact ⟨u, List.mem_cons_of_mem t hu, hstart⟩
      rw [unterminatedAll] at h
      split at h
      · rename_i hk
        split at h
        · rename_i n _
          rcases List.mem_cons.mp h with hd | h
          · exact ⟨t, List.mem_cons_self, hk, n, hd⟩
          · exact hlater h
        · exact hlater h
      · exact hlater h

theorem Comments.syntactic_unterminatedAll (ts : List Token) :
    ∀ d ∈ unterminatedAll ts, d.problem = .syntaxError := by
  intro d hd
  obtain ⟨t, -, -, n, rfl⟩ := exists_of_mem_unterminatedAll hd
  rfl

/-- **The parser complains of syntax only**, whatever the tokens. -/
theorem Grammar.problem_of_mem_diagnostics {all : List Token} {d : Diagnostic}
    (h : d ∈ (ofTokens all).diagnostics) : d.problem = .syntaxError := by
  have hstep : ∀ step ∈ Parser.sectionsOf all, ∃ stop us, step = Parser.sectionAt stop us := by
    intro step hstep
    obtain ⟨us, -, hus⟩ := Parser.mem_sectionsWithin hstep
    exact ⟨_, us, hus⟩
  rw [ofTokens, Diagnostic.sort, (stableSort_perm _).mem_iff, List.mem_append, List.mem_append] at h
  rcases h with (h | h) | h
  · exact Comments.syntactic_unterminatedAll all d h
  · obtain ⟨step, hmem, hd⟩ := List.mem_flatMap.mp h
    obtain ⟨stop, us, rfl⟩ := hstep step hmem
    exact (Parser.syntactic_sectionAt stop us).1 d hd
  · obtain ⟨step, hmem, hd⟩ := List.mem_filterMap.mp h
    obtain ⟨stop, us, rfl⟩ := hstep step hmem
    exact (Parser.syntactic_sectionAt stop us).2 d hd

end EbnfKit
