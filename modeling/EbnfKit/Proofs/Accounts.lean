import EbnfKit.Proofs.Sections

/-! # Accounts — what a reader says of the tokens that it took

    Whatever a reader comes to, its reply is accounted for by the tokens that it took and by
    the one that it left in front.  It takes no bad character, notes the strings that are not
    closed among those taken and nothing else, and if it fails the error is at the token left in
    front, or says of one that was taken that its count is too large or its bracket too deep:

      p on used ++ rest   replies   notes = openNotes used,   and an error stops at rest

    This holds of all readers of the parser because it does one after the other. -/

namespace EbnfKit

variable {α β : Type}

namespace Reader

/-- Why reading stopped: the next token, or the end of the input, was not what had to follow,
    or the token that was taken last breaks a limit. -/
inductive Stops (stop : Span) (taken rest : List Token) : Diagnostic → Prop
  | unexpected (expected : String) : Stops stop taken rest
      (.syntaxError ((rest.head?.map (·.span)).getD stop)
        s!"expected {expected}, found {found rest.head?}")
  | count {t} : taken.getLast? = some t → t.kind = .number → Stops stop taken rest
      (.syntaxError t.span s!"repetition count `{String.ofList t.text}` is out of range")
  | nesting {t} : taken.getLast? = some t → Bracket.ofOpening? t.kind ≠ none →
      Stops stop taken rest
        (.syntaxError t.span s!"nesting too deep: more than {maxNesting} levels of brackets")

/-- It stopped for the same reason if more was taken before. -/
theorem Stops.after {stop : Span} {taken rest : List Token} {e : Diagnostic}
    (h : Stops stop taken rest e) (before : List Token) : Stops stop (before ++ taken) rest e := by
  have hlast : ∀ {t}, taken.getLast? = some t → (before ++ taken).getLast? = some t := by
    intro t ht
    rw [List.getLast?_append, ht, Option.some_or]
  cases h with
  | unexpected expected => exact .unexpected expected
  | count ht hk => exact .count (hlast ht) hk
  | nesting ht hk => exact .nesting (hlast ht) hk

/-- From scanned tokens, `p` takes some that are no bad characters.  Of these and of those in
    `front`, which were taken just before, it notes the strings that are not closed, and they
    or the next token tell why it stops. -/
def Accounts (front : List Token) (p : Reader α) : Prop :=
  ∀ stop ts, Scanned ts → ∃ used, ts = used ++ (p stop ts).rest ∧
    (∀ t ∈ used, t.kind ≠ .badCharacter) ∧ (p stop ts).notes = openNotes (front ++ used) ∧
      ∀ e, (p stop ts).result = .error e → Stops stop (front ++ used) (p stop ts).rest e

section Basic

variable {front : List Token}

theorem Accounts.bind {p : Reader α} {f : α → Reader β} (hp : Accounts front p)
    (hf : ∀ a, Accounts [] (f a)) : Accounts front (p >>= f) := by
  intro stop ts hts
  obtain ⟨used, hsplit, hplain, hnotes, herror⟩ := hp stop ts hts
  rcases hreply : p stop ts with ⟨notes, backward, result, rest⟩
  rw [hreply] at hsplit hnotes herror
  cases result with
  | error e =>
      rw [bind_error hreply]
      refine ⟨used, hsplit, hplain, hnotes, fun e' he' => ?_⟩
      rw [← Except.error.inj he']
      exact herror e rfl
  | ok a =>
      have hrest : Scanned rest := by
        rw [hsplit] at hts
        exact hts.right
      obtain ⟨used', hsplit', hplain', hnotes', herror'⟩ := hf a stop rest hrest
      rw [bind_ok hreply]
      refine ⟨used ++ used', ?_, List.forall_mem_append.mpr ⟨hplain, hplain'⟩, ?_, fun e he => ?_⟩
      · rw [List.append_assoc, ← hsplit']
        exact hsplit
      · rw [← List.append_assoc, openNotes_append]
        exact congrArg₂ _ hnotes hnotes'
      · rw [← List.append_assoc]
        exact (herror' e he).after _

/-- A reader that takes nothing and notes nothing, where there is nothing to note. -/
theorem Accounts.of_done {p : Reader α} (hfront : openNotes front = [])
    (h : ∀ stop ts, (p stop ts).rest = ts ∧ (p stop ts).notes = [] ∧
      ∀ e, (p stop ts).result = .error e → Stops stop front ts e) : Accounts front p := by
  intro stop ts _
  obtain ⟨hrest, hnotes, herror⟩ := h stop ts
  rw [hrest]
  refine ⟨[], rfl, List.forall_mem_nil _, ?_, ?_⟩
  · rw [List.append_nil, hnotes, hfront]
  · rw [List.append_nil]
    exact herror

theorem accounts_pure (hfront : openNotes front = []) (a : α) : Accounts front (Pure.pure a) :=
  .of_done hfront fun _ _ => ⟨rfl, rfl, nofun⟩

theorem accounts_unexpected (expected : String) : Accounts [] (unexpected expected : Reader α) := by
  refine .of_done rfl fun stop ts => ⟨rfl, rfl, fun e he => ?_⟩
  rw [← Except.error.inj he]
  exact .unexpected expected

theorem accounts_here : Accounts [] here :=
  .of_done rfl fun _ _ => ⟨rfl, rfl, nofun⟩

theorem accounts_span (start finish : Nat) : Accounts [] (span start finish) :=
  .of_done rfl fun _ _ => ⟨rfl, rfl, nofun⟩

/-- What is read behind a token accounts for it. -/
theorem Accounts.from_next {t : Token} {p : Reader α} (hp : Accounts [t] p)
    (hk : t.kind ≠ .badCharacter) {stop : Span} {ts : List Token} (hts : Scanned ts) :
    ∃ used, t :: ts = used ++ (p stop ts).rest ∧ (∀ u ∈ used, u.kind ≠ .badCharacter) ∧
      (p stop ts).notes = openNotes ([] ++ used) ∧
        ∀ e, (p stop ts).result = .error e → Stops stop ([] ++ used) (p stop ts).rest e := by
  obtain ⟨used, hsplit, hplain, hnotes, herror⟩ := hp stop ts hts
  exact ⟨t :: used, congrArg (t :: ·) hsplit, List.forall_mem_cons.mpr ⟨hk, hplain⟩, hnotes, herror⟩

/-- Either the next token is taken, and accounted for by what is read behind it, or not. -/
theorem Accounts.accept {kind : TokenKind} {f : Option Token → Reader α}
    (hkind : kind ≠ .badCharacter)
    (hsome : ∀ t, t.kind = kind → t.lexeme.Lexical → Accounts [t] (f (some t)))
    (hnone : Accounts [] (f none)) : Accounts [] (accept kind >>= f) := by
  intro stop ts hts
  rcases next_cases kind ts with ⟨t, rest, hk, rfl⟩ | hnot
  · have hsame : (Reader.accept kind >>= f) stop (t :: rest) = f (some t) stop rest := by
      rw [bind_ok (accept_of_eq hk stop rest)]
      rfl
    rw [hsame]
    exact (hsome t hk (hts.lexical t List.mem_cons_self)).from_next (hk ▸ hkind) hts.tail
  · have hsame : (Reader.accept kind >>= f) stop ts = f none stop ts := by
      rw [bind_ok (accept_of_notNext hnot stop)]
      rfl
    rw [hsame]
    exact hnone stop ts hts

/-- No note is due for a token that is no string. -/
theorem openNotes_singleton {t : Token} (h : t.kind ≠ .stringLiteral) : openNotes [t] = [] := by
  rw [openNotes_cons h]
  rfl

theorem accounts_expect {kind : TokenKind} (hbad : kind ≠ .badCharacter)
    (hstring : kind ≠ .stringLiteral) : Accounts [] (expect kind) :=
  .accept hbad (fun t hk _ => accounts_pure (openNotes_singleton (hk ▸ hstring)) t)
    (accounts_unexpected _)

/-- A token that no note is due for may stand in front. -/
theorem Accounts.behind {p : Reader α} (hp : Accounts [] p) {t : Token}
    (h : t.kind ≠ .stringLiteral) : Accounts [t] p := by
  intro stop ts hts
  obtain ⟨used, hsplit, hplain, hnotes, herror⟩ := hp stop ts hts
  refine ⟨used, hsplit, hplain, ?_, fun e he => (herror e he).after [t]⟩
  rw [hnotes, List.nil_append]
  exact (openNotes_cons h used).symm

end Basic

section Separated

variable {separator : TokenKind} {item : Reader α}

theorem accounts_others (hitem : Accounts [] item) (hbad : separator ≠ .badCharacter)
    (hstring : separator ≠ .stringLiteral) (n : Nat) : Accounts [] (others separator item n) := by
  induction n with
  | zero => exact accounts_pure rfl []
  | succ n ih =>
      refine .accept hbad (fun t hk _ => ?_) (accounts_pure rfl [])
      refine .behind ?_ (hk ▸ hstring)
      exact hitem.bind fun a => ih.bind fun as => accounts_pure rfl (a :: as)

theorem accounts_separated (hitem : Accounts [] item) (hbad : separator ≠ .badCharacter)
    (hstring : separator ≠ .stringLiteral) : Accounts [] (separated separator item) := by
  have hothers : Accounts [] fun stop ts => others separator item ts.length stop ts :=
    fun stop ts => accounts_others hitem hbad hstring ts.length stop ts
  exact hitem.bind fun a => hothers.bind fun as => accounts_pure rfl (a, as)

end Separated

end Reader

/-! ## The readers of the parser -/

namespace Parser

open Reader

theorem accounts_count : Accounts [] count := by
  refine .accept (by decide) (fun t hk _ => ?_) (accounts_pure rfl none)
  have hstring : t.kind ≠ .stringLiteral := by
    rw [hk]
    decide
  dsimp only
  cases t.text.count? with
  | none =>
      refine .of_done (openNotes_singleton hstring) fun stop ts => ⟨rfl, rfl, fun e he => ?_⟩
      rw [← Except.error.inj he]
      exact .count List.getLast?_singleton hk
  | some n =>
      refine .behind ?_ hstring
      exact (accounts_expect (by decide) (by decide)).bind fun _ => accounts_pure rfl (some n)

/-- A string is noted if it is not closed. -/
theorem accounts_literal {t : Token} (hk : t.kind = .stringLiteral) (hlexical : t.lexeme.Lexical) :
    Accounts [t] (literal t) := by
  have hclosed : (Quoted.ofText t.text).closed = Lexeme.isClosed t.text :=
    (quotes_ofText hlexical hk).2
  intro stop ts _
  cases hc : Lexeme.isClosed t.text with
  | true =>
      have hnotes : openNotes [t] = [] := by simp [openNotes, hc]
      rw [hc] at hclosed
      simp only [literal, hclosed, Bool.not_true, Bool.false_eq_true, if_false]
      exact ⟨[], rfl, List.forall_mem_nil _, hnotes.symm, fun _ he => by cases he⟩
  | false =>
      have hnotes : openNotes [t] = [unterminatedLiteral t.span (Quoted.ofText t.text).quote] := by
        simp [openNotes, hk, hc]
      rw [hc] at hclosed
      simp only [literal, hclosed, Bool.not_false, if_true]
      exact ⟨[], rfl, List.forall_mem_nil _, hnotes.symm, fun _ he => by cases he⟩

section Inner

variable {inner : Option (Reader (Expression Span))} (hinner : ∀ p ∈ inner, Accounts [] p)

include hinner

theorem accounts_bracketed {t : Token} {bracket : Bracket}
    (hopen : Bracket.ofOpening? t.kind = some bracket) :
    Accounts [t] (bracketed inner bracket t.span) := by
  have hstring : t.kind ≠ .stringLiteral := by
    intro hk
    rw [hk] at hopen
    cases hopen
  cases inner with
  | none =>
      refine .of_done (openNotes_singleton hstring) fun stop ts => ⟨rfl, rfl, fun e he => ?_⟩
      rw [← Except.error.inj he]
      exact .nesting List.getLast?_singleton (by rw [hopen]; exact Option.some_ne_none _)
  | some p =>
      refine .behind ((hinner p rfl).bind fun e => ?_) hstring
      refine (accounts_expect ?_ ?_).bind fun c => accounts_pure rfl _
      · cases bracket <;> decide
      · cases bracket <;> decide

theorem accounts_primary : Accounts [] (primary inner) := by
  intro stop ts hts
  rw [primary.eq_def]
  -- a primary goes by its first token
  split
  · exact accounts_unexpected _ stop [] hts
  · rename_i t rest
    split
    · rename_i hk
      refine Accounts.from_next (accounts_pure (openNotes_singleton ?_) _) ?_ hts.tail
      · rw [hk]
        decide
      · rw [hk]
        decide
    · rename_i hk
      refine Accounts.from_next (accounts_literal hk (hts.lexical t List.mem_cons_self)) ?_ hts.tail
      rw [hk]
      decide
    · rename_i hopen _ _
      refine Accounts.from_next (accounts_bracketed hinner hopen) ?_ hts.tail
      intro hk
      rw [hk] at hopen
      cases hopen
    · exact accounts_unexpected _ stop _ hts

theorem accounts_exception : Accounts [] (exception inner) := by
  refine .accept (by decide) (fun t hk _ => ?_) (accounts_pure rfl none)
  refine .behind ?_ (by rw [hk]; decide)
  exact (accounts_primary hinner).bind fun p => accounts_pure rfl (some p)

theorem accounts_factor : Accounts [] (factor inner) :=
  accounts_here.bind fun _ => accounts_count.bind fun _ => (accounts_primary hinner).bind fun _ =>
    (accounts_exception hinner).bind fun _ => (accounts_span _ _).bind fun _ => accounts_pure rfl _

theorem accounts_choice : Accounts [] (choice inner) := by
  have hterm : Accounts [] (term inner) :=
    (accounts_separated (accounts_factor hinner) (by decide) (by decide)).bind fun _ =>
      accounts_pure rfl _
  exact (accounts_separated hterm (by decide) (by decide)).bind fun _ => accounts_pure rfl _

end Inner

theorem accounts_expression (depth : Nat) : Accounts [] (expression depth) := by
  induction depth with
  | zero => exact accounts_choice nofun
  | succ depth ih => exact accounts_choice fun p hp => Option.some.inj hp ▸ ih

/-- **A rule accounts for what it takes.** -/
theorem accounts_rule : Accounts [] rule :=
  (accounts_expect (by decide) (by decide)).bind fun _ =>
    (accounts_expect (by decide) (by decide)).bind fun _ =>
      (accounts_expression maxNesting).bind fun _ =>
        (accounts_expect (by decide) (by decide)).bind fun _ => accounts_pure rfl _

/-! ## Steps through a file -/

/-- A step covers the tokens that the rule took, and those given up if it failed.  It notes the
    strings that are not closed among the former and the bad characters among the latter, but
    for one that the error is at. -/
inductive Section.Account (stop : Span) (ts : List Token) : Section → Prop
  | read {used rest backward r} : ts = used ++ rest → (∀ t ∈ used, t.kind ≠ .badCharacter) →
      Section.Account stop ts ⟨used, openNotes used, backward, .ok r⟩
  | failed {used rest backward e} : ts = used ++ rest → (∀ t ∈ used, t.kind ≠ .badCharacter) →
      Stops stop used rest e → Section.Account stop ts
        ⟨used ++ givenUp ts rest, openNotes used ++ (givenUp ts rest).flatMap (skipNote e.span),
          backward, .error e⟩

/-- **What a step through a file does.** -/
theorem sectionAt_account (stop : Span) {ts : List Token} (hts : Scanned ts) :
    Section.Account stop ts (sectionAt stop ts) := by
  obtain ⟨used, hsplit, hplain, hnotes, herror⟩ := accounts_rule stop ts hts
  rcases hreply : rule stop ts with ⟨notes, backward, result, rest⟩
  simp only [hreply, List.nil_append] at hsplit hnotes herror
  cases result with
  | ok r =>
      rw [sectionAt_of_ok hreply, take_taken hsplit.symm, hnotes]
      exact .read hsplit hplain
  | error e =>
      rw [sectionAt_of_error hreply, take_taken hsplit.symm, hnotes]
      exact .failed hsplit hplain (herror e rfl)

end Parser

end EbnfKit
