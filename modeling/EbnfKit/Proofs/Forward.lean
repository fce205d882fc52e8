import EbnfKit.Proofs.Problems
import EbnfKit.Proofs.Tiling

/-! # Forward spans — no node stops before it starts

    The span of a node is put together from those of tokens.  It is forward if the tokens are,
    and if none of them starts in front of one that it follows:

      t.start ≤ t.stop,  t before u   implies   t.start ≤ u.start     in the tokens
      m.start ≤ m.stop                                                in whatever is read

    What was read before an error counts as well, and so does a comment that is never closed.
    The tokens of a text are such tokens. -/

namespace EbnfKit

/-- The span starts at `n` or behind it, and is forward. -/
def Span.Lies (n : Nat) (s : Span) : Prop :=
  n ≤ s.start ∧ s.start ≤ s.stop

theorem Span.Lies.join {n : Nat} {a b : Span} (ha : a.Lies n) (hb : b.Lies n) :
    (a.join b).Lies n := by
  obtain ⟨hstart, hforward⟩ := ha
  refine ⟨Nat.le_min.mpr ⟨hstart, hb.1⟩, ?_⟩
  exact Nat.le_trans (Nat.min_le_left _ _) (Nat.le_trans hforward (Nat.le_max_left _ _))

/-- Forward tokens that start at `n` or behind it, none in front of one that it follows. -/
structure Ascends (n : Nat) (ts : List Token) : Prop where
  lies : ∀ t ∈ ts, t.span.Lies n
  ordered : ts.Pairwise fun t u => t.span.start ≤ u.span.start

namespace Ascends

variable {n : Nat} {ts us : List Token}

theorem sublist (h : Ascends n us) (hs : ts.Sublist us) : Ascends n ts :=
  ⟨fun t ht => h.lies t (hs.subset ht), h.ordered.sublist hs⟩

theorem suffix (h : Ascends n us) (hs : ts <:+ us) : Ascends n ts :=
  h.sublist hs.sublist

/-- They start where the first of them does, or behind it. -/
theorem head {t : Token} (h : Ascends n (t :: ts)) : Ascends t.span.start (t :: ts) := by
  obtain ⟨hlater, -⟩ := List.pairwise_cons.mp h.ordered
  refine ⟨List.forall_mem_cons.mpr ⟨⟨Nat.le_refl _, (h.lies t List.mem_cons_self).2⟩, ?_⟩, h.ordered⟩
  exact fun u hu => ⟨hlater u hu, (h.lies u (List.mem_cons_of_mem t hu)).2⟩

end Ascends

variable {α β : Type}

namespace Reader

/-- From tokens that ascend from `n`, `p` puts forward spans together only, whatever it comes
    to, and a value of the given sort. -/
def Advances (n : Nat) (sound : α → Prop) (p : Reader α) : Prop :=
  ∀ stop ts, Ascends n ts → (p stop ts).rest <:+ ts ∧ (p stop ts).backward = [] ∧
    ∀ a, (p stop ts).result = .ok a → sound a

section Basic

variable {n : Nat} {sound : α → Prop} {sound' : β → Prop}

theorem Advances.bind {p : Reader α} {f : α → Reader β} (hp : Advances n sound p)
    (hf : ∀ a, sound a → Advances n sound' (f a)) : Advances n sound' (p >>= f) := by
  intro stop ts hts
  obtain ⟨hrest, hbackward, hvalue⟩ := hp stop ts hts
  rcases hreply : p stop ts with ⟨notes, backward, result, rest⟩
  rw [hreply] at hrest hbackward hvalue
  cases result with
  | error e =>
      rw [bind_error hreply]
      exact ⟨hrest, hbackward, nofun⟩
  | ok a =>
      obtain ⟨hrest', hbackward', hvalue'⟩ := hf a (hvalue a rfl) stop rest (hts.suffix hrest)
      rw [bind_ok hreply]
      exact ⟨hrest'.trans hrest, List.append_eq_nil_iff.mpr ⟨hbackward, hbackward'⟩, hvalue'⟩

theorem advances_pure {a : α} (h : sound a) : Advances n sound (Pure.pure a) := by
  intro stop ts _
  exact ⟨List.suffix_refl ts, rfl, fun b hb => Except.ok.inj hb ▸ h⟩

theorem advances_fail (d : Diagnostic) : Advances n sound (fail d) :=
  fun _ ts _ => ⟨List.suffix_refl ts, rfl, nofun⟩

theorem advances_note (d : Diagnostic) : Advances n (fun _ => True) (note d) :=
  fun _ ts _ => ⟨List.suffix_refl ts, rfl, fun _ _ => trivial⟩

theorem advances_unexpected (expected : String) : Advances n sound (unexpected expected) :=
  fun _ ts _ => ⟨List.suffix_refl ts, rfl, nofun⟩

/-- A span that lies behind `n` is forward. -/
theorem advances_span {start stop : Nat} (h : Span.Lies n ⟨start, stop⟩) :
    Advances n (Span.Lies n) (span start stop) := by
  intro finish ts _
  have hforward : (Span.mk start stop).isBackward = false := decide_eq_false (Nat.not_lt.mpr h.2)
  refine ⟨List.suffix_refl ts, ?_, fun s hs => Except.ok.inj hs ▸ h⟩
  show (if (Span.mk start stop).isBackward then _ else _) = _
  rw [hforward]
  rfl

theorem advances_accept (kind : TokenKind) :
    Advances n (fun x => ∀ t ∈ x, t.span.Lies n) (accept kind) := by
  intro stop ts hts
  rcases next_cases kind ts with ⟨t, rest, hk, rfl⟩ | hnot
  · rw [accept_of_eq hk]
    refine ⟨List.suffix_cons t rest, rfl, fun x hx u hu => ?_⟩
    rw [← Except.ok.inj hx] at hu
    rw [← Option.some.inj hu]
    exact hts.lies t List.mem_cons_self
  · rw [accept_of_notNext hnot]
    refine ⟨List.suffix_refl ts, rfl, fun x hx u hu => ?_⟩
    rw [← Except.ok.inj hx] at hu
    cases hu

theorem advances_expect (kind : TokenKind) :
    Advances n (fun t => t.span.Lies n) (expect kind) := by
  refine (advances_accept kind).bind fun x hx => ?_
  cases x with
  | none => exact advances_unexpected _
  | some t => exact advances_pure (hx t rfl)

end Basic

section Separated

variable {n : Nat} {sound : α → Prop} {separator : TokenKind} {item : Reader α}

theorem advances_others (hitem : Advances n sound item) (k : Nat) :
    Advances n (fun as => ∀ a ∈ as, sound a) (others separator item k) := by
  induction k with
  | zero => exact advances_pure (List.forall_mem_nil _)
  | succ k ih =>
      refine (advances_accept separator).bind fun x _ => ?_
      cases x with
      | none => exact advances_pure (List.forall_mem_nil _)
      | some _ =>
          refine hitem.bind fun a ha => ih.bind fun as has => ?_
          exact advances_pure (List.forall_mem_cons.mpr ⟨ha, has⟩)

theorem advances_separated (hitem : Advances n sound item) :
    Advances n (fun x => sound x.1 ∧ ∀ a ∈ x.2, sound a) (separated separator item) := by
  refine hitem.bind fun a ha => ?_
  have hothers : Advances n (fun as => ∀ a ∈ as, sound a)
      fun stop ts => others separator item ts.length stop ts :=
    fun stop ts => advances_others hitem ts.length stop ts
  exact hothers.bind fun as has => advances_pure ⟨ha, has⟩

end Separated

end Reader

/-! ## The readers of the parser -/

namespace Parser

open Reader

variable {n : Nat}

theorem advances_count : Advances n (fun _ => True) count := by
  refine (advances_accept .number).bind fun x _ => ?_
  cases x with
  | none => exact advances_pure trivial
  | some t =>
      dsimp only
      cases t.text.count? with
      | none => exact advances_fail _
      | some k => exact (advances_expect _).bind fun _ _ => advances_pure trivial

theorem advances_literal {t : Token} (ht : t.span.Lies n) :
    Advances n (fun p => p.mark.Lies n) (literal t) := by
  have hvalue : (Primary.literal t.span (Quoted.ofText t.text).text
      (Quoted.ofText t.text).quote).mark.Lies n := ht
  rw [literal]
  show Advances n _ (if !(Quoted.ofText t.text).closed then _ else _)
  split
  · exact (advances_note _).bind fun _ _ => advances_pure hvalue
  · exact advances_pure hvalue

/-- What several items span lies where they do. -/
theorem lies_joined {mark : α → Span} {x : α × List α} (h : (mark x.1).Lies n ∧
    ∀ a ∈ x.2, (mark a).Lies n) : ((mark x.1).join (mark (x.2.getLast?.getD x.1))).Lies n := by
  refine h.1.join ?_
  cases hlast : x.2.getLast? with
  | none => exact h.1
  | some a => exact h.2 a (List.mem_of_getLast? hlast)

section Inner

variable {inner : Option (Reader (Expression Span))}
  (hinner : ∀ p ∈ inner, ∀ n, Advances n (fun e : Expression Span => e.mark.Lies n) p)

include hinner

theorem advances_bracketed (bracket : Bracket) {opening : Span} (hopening : opening.Lies n) :
    Advances n (fun p => p.mark.Lies n) (bracketed inner bracket opening) := by
  cases inner with
  | none => exact advances_fail _
  | some p =>
      refine (hinner p rfl n).bind fun e _ => (advances_expect _).bind fun closing hclosing => ?_
      have hvalue : (Primary.bracketed (opening.join closing.span) bracket e).mark.Lies n :=
        hopening.join hclosing
      exact advances_pure hvalue

theorem advances_primary : Advances n (fun p => p.mark.Lies n) (primary inner) := by
  intro stop ts hts
  rw [primary.eq_def]
  -- a primary goes by its first token
  split
  · exact advances_unexpected _ stop [] hts
  · rename_i t rest
    have ht := hts.lies t List.mem_cons_self
    have htaken : ∀ {p : Reader (Primary Span)}, Advances n (fun p => p.mark.Lies n) p →
        (p stop rest).rest <:+ t :: rest ∧ (p stop rest).backward = [] ∧
          ∀ a, (p stop rest).result = .ok a → a.mark.Lies n := by
      intro p hp
      obtain ⟨hrest, hbackward, hvalue⟩ := hp stop rest (hts.suffix (List.suffix_cons t rest))
      exact ⟨hrest.trans (List.suffix_cons t rest), hbackward, hvalue⟩
    have hname : (Primary.reference t.span t.text).mark.Lies n := ht
    split
    · exact htaken (advances_pure hname)
    · exact htaken (advances_literal ht)
    · exact htaken (advances_bracketed hinner _ ht)
    · exact advances_unexpected _ stop _ hts

theorem advances_exception :
    Advances n (fun x => ∀ p ∈ x, p.mark.Lies n) (exception inner) := by
  refine (advances_accept .exceptionSymbol).bind fun x _ => ?_
  cases x with
  | none => exact advances_pure nofun
  | some _ =>
      refine (advances_primary hinner).bind fun p hp => advances_pure fun q hq => ?_
      rwa [← Option.some.inj hq]

/-- A factor starts where the tokens do, so all that is read for it lies behind. -/
theorem advances_factor : Advances n (fun f => f.mark.Lies n) (factor inner) := by
  intro stop ts hts
  cases ts with
  | nil => exact ⟨List.suffix_refl [], rfl, nofun⟩
  | cons t ts =>
      have hbehind : Advances t.span.start (fun f : Factor Span => f.mark.Lies t.span.start) (do
          let k ← count
          let p ← primary inner
          let e ← exception inner
          return .mk (← span t.span.start (e.getD p).mark.stop) k p e) := by
        refine advances_count.bind fun k _ => (advances_primary hinner).bind fun p hp =>
          (advances_exception hinner).bind fun e he => ?_
        have hlast : (e.getD p).mark.Lies t.span.start := by
          cases e with
          | none => exact hp
          | some q => exact he q rfl
        have hforward : t.span.start ≤ (e.getD p).mark.stop := Nat.le_trans hlast.1 hlast.2
        have hspan : Span.Lies t.span.start ⟨t.span.start, (e.getD p).mark.stop⟩ :=
          ⟨Nat.le_refl _, hforward⟩
        refine (advances_span hspan).bind fun m hm => ?_
        have hvalue : (Factor.mk m k p e).mark.Lies t.span.start := hm
        exact advances_pure hvalue
      obtain ⟨hrest, hbackward, hvalue⟩ := hbehind stop (t :: ts) hts.head
      refine ⟨hrest, hbackward, fun f hf => ?_⟩
      obtain ⟨hstart, hforward⟩ := hvalue f hf
      exact ⟨Nat.le_trans (hts.lies t List.mem_cons_self).1 hstart, hforward⟩

theorem advances_term : Advances n (fun t => t.mark.Lies n) (term inner) := by
  refine (advances_separated (advances_factor hinner)).bind fun x hx => ?_
  have hvalue : (Term.mk (x.1.mark.join (x.2.getLast?.getD x.1).mark) x.1 x.2).mark.Lies n :=
    lies_joined hx
  exact advances_pure hvalue

theorem advances_choice : Advances n (fun e => e.mark.Lies n) (choice inner) := by
  refine (advances_separated (advances_term hinner)).bind fun x hx => ?_
  have hvalue : (Expression.mk (x.1.mark.join (x.2.getLast?.getD x.1).mark) x.1 x.2).mark.Lies n :=
    lies_joined hx
  exact advances_pure hvalue

end Inner

theorem advances_expression (depth : Nat) :
    ∀ n, Advances n (fun e => e.mark.Lies n) (expression depth) := by
  induction depth with
  | zero => exact fun n => advances_choice nofun
  | succ depth ih => exact fun n => advances_choice fun p hp => Option.some.inj hp ▸ ih

theorem advances_rule : Advances n (fun r => r.mark.Lies n) rule := by
  refine (advances_expect .identifier).bind fun name hname => (advances_expect .equals).bind
    fun _ _ => (advances_expression maxNesting n).bind fun body _ =>
      (advances_expect .semicolon).bind fun semicolon hsemicolon => ?_
  have hvalue : (name.span.join semicolon.span).Lies n := hname.join hsemicolon
  exact advances_pure hvalue

/-! ## Files -/

theorem backward_sectionAt {stop : Span} {ts : List Token} (hts : Ascends n ts) :
    (sectionAt stop ts).backward = [] := by
  obtain ⟨-, hbackward, -⟩ := advances_rule stop ts hts
  rw [sectionAt]
  cases (rule stop ts).result with
  | ok r => exact hbackward
  | error e => exact hbackward

/-- What the parser reads are tokens that are no trivia. -/
theorem ofTokens_sublist (all : List Token) :
    (Input.ofTokens all).tokens.Sublist (all.filter fun t => !t.kind.isTrivia) := by
  rw [Input.ofTokens]
  split
  · exact List.takeWhile_sublist _
  · exact List.filter_sublist

theorem backward_sectionsOf {all : List Token} (hall : Ascends n all) :
    (sectionsOf all).flatMap (·.backward) = [] := by
  have htokens : (Input.ofTokens all).tokens.Sublist all :=
    (ofTokens_sublist all).trans List.filter_sublist
  refine List.flatMap_eq_nil_iff.mpr fun step hstep => ?_
  obtain ⟨us, hus, rfl⟩ := mem_sectionsWithin hstep
  exact backward_sectionAt (hall.sublist (hus.sublist.trans htokens))

end Parser

/-- A comment that is never closed ends in one of the tokens, or where it began to. -/
theorem Comments.le_openEnd? {n stop : Nat} {ts : List Token} (hts : Ascends n ts)
    (hn : n ≤ stop) : ∀ m ∈ openEnd? stop ts, n ≤ m := by
  induction ts generalizing stop with
  | nil =>
      intro m hm
      rwa [← Option.some.inj hm]
  | cons t ts ih =>
      obtain ⟨hstart, hforward⟩ := hts.lies t List.mem_cons_self
      rw [openEnd?]
      split
      · exact ih (hts.suffix (List.suffix_cons t ts)) (Nat.le_trans hstart hforward)
      · exact fun m hm => by cases hm
      · intro m hm
        rwa [← Option.some.inj hm]

theorem Comments.backward_eq_nil {n : Nat} {ts : List Token} (hts : Ascends n ts) :
    backward ts = [] := by
  have hspans : ∀ p ∈ (unterminatedAll ts).map (·.span), p.isBackward = false := by
    induction ts with
    | nil => exact List.forall_mem_nil _
    | cons t ts ih =>
        have hrest := ih (hts.suffix (List.suffix_cons t ts))
        rw [unterminatedAll]
        split
        · split
          · rename_i stop hstop
            have hhead := hts.head
            have hforward : t.span.start ≤ stop := le_openEnd? (hhead.suffix (List.suffix_cons t ts))
              (hhead.lies t List.mem_cons_self).2 stop hstop
            exact List.forall_mem_cons.mpr ⟨decide_eq_false (Nat.not_lt.mpr hforward), hrest⟩
          · exact hrest
        · exact hrest
  exact List.filter_eq_nil_iff.mpr fun p hp => by rw [hspans p hp]; exact Bool.false_ne_true

/-- **No span is backward** where tokens ascend. -/
theorem Grammar.ofTokens?_eq_some {n : Nat} {all : List Token} (h : Ascends n all) :
    ofTokens? all = some (ofTokens all) := by
  have hnone : Parser.backwardSpans all = [] := by
    rw [Parser.backwardSpans, Comments.backward_eq_nil h, Parser.backward_sectionsOf h]
    rfl
  rw [ofTokens?, hnone]
  rfl

/-- The tokens of a text ascend. -/
theorem ascends_tokenize (s : Text) : Ascends 0 (tokenize s) := by
  have hscanned : Scanned (tokensAt 0 (lexemes s)) := tokensAt_scanned (lexemes_lexical s)
  have hsize : 0 + Text.size (spelled (lexemes s)) = Text.size s := by
    rw [Nat.zero_add, spelled, lexemes_texts]
  rw [tokenize_eq]
  constructor
  · refine List.forall_mem_append.mpr ⟨fun t ht => ?_, List.forall_mem_singleton.mpr ?_⟩
    · exact ⟨Nat.zero_le _, Nat.le_of_lt (hscanned.forward t ht)⟩
    · exact ⟨Nat.zero_le _, Nat.le_refl _⟩
  · refine List.pairwise_append.mpr ⟨?_, List.pairwise_singleton _ _, fun t ht u hu => ?_⟩
    · refine hscanned.ordered.imp_of_mem fun {t u} ht _ hapart => ?_
      exact Nat.le_trans (Nat.le_of_lt (hscanned.forward t ht)) hapart
    · rw [List.mem_singleton.mp hu]
      have hstop := (mem_tokensAt ht).2.2.2
      have hforward := hscanned.forward t ht
      show t.span.start ≤ Text.size s
      omega

end EbnfKit
