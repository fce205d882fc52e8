import EbnfKit.Proofs.Forward
import EbnfKit.Proofs.Recovery

/-! # Progress — the parser comes to the end of any tokens

    The tokens may be any that ascend, in any order of kinds, with the end of the input missing,
    in the middle or more than once.  The parser reads a stream of those that are no trivia, which
    holds an end of the input in any case, and stops at the first one:

      stream  =  tokens of step 1 ++ … ++ tokens of step n ++ end of input ++ …

    No step is empty, and each is a rule or an error.  No reader takes an end of the input, so a
    step on the whole stream is the same as one on the part in front of that end.  The loops
    within the steps take rounds as long as there are separators; the number of tokens bounds
    their rounds and never cuts them short. -/

namespace EbnfKit

variable {α β : Type}

/-! ## Loops within a step -/

namespace Reader

/-- Further items, each after a separator, as long as there are separators. -/
def more (separator : TokenKind) (item : Reader α) : Reader (List α) :=
  fun stop ts => others separator item ts.length stop ts

/-- After a separator comes an item, and then the loop again. -/
def Unrolls (separator : TokenKind) (item : Reader α) : Prop :=
  ∀ stop ts, more separator item stop ts = (do
    match ← accept separator with
    | none => return []
    | some _ => return (← item) :: (← more separator item)) stop ts

/-- A reader that takes tokens off the front adds none. -/
theorem Spares.length_le {p : Reader α} (h : Spares p) (stop : Span) (ts : List Token) :
    (p stop ts).rest.length ≤ ts.length := by
  obtain ⟨used, hsplit, -⟩ := h stop ts
  have hlen := congrArg List.length hsplit
  rw [List.length_append] at hlen
  omega

section Unrolls

variable {separator : TokenKind} {item : Reader α}

/-- Readers may be exchanged for such as reply alike to what they are given. -/
theorem bind_congr {p q : Reader α} {f g : α → Reader β} {stop : Span} {ts : List Token}
    (hp : p stop ts = q stop ts) (hf : ∀ a, f a stop (q stop ts).rest = g a stop (q stop ts).rest) :
    (p >>= f) stop ts = (q >>= g) stop ts := by
  rcases hreply : q stop ts with ⟨notes, backward, result, rest⟩
  rw [hreply] at hp hf
  cases result with
  | error e => rw [bind_error hreply, bind_error hp]
  | ok a => rw [bind_ok hreply, bind_ok hp, hf a]

variable (hitem : Spares item)

include hitem

/-- As many rounds as there are tokens are enough. -/
theorem others_enough (stop : Span) (k : Nat) : ∀ m ts, ts.length ≤ k → ts.length ≤ m →
    others separator item k stop ts = others separator item m stop ts := by
  induction k with
  | zero =>
      intro m ts hk _
      obtain rfl := List.length_eq_zero_iff.mp (Nat.le_zero.mp hk)
      have hnot : NotNext separator [] := fun t ht => nomatch ht
      rw [others_none hnot, others_none hnot]
  | succ k ih =>
      intro m ts hk hm
      rcases next_cases separator ts with ⟨t, rest, ht, rfl⟩ | hnot
      · rw [List.length_cons] at hk hm
        obtain ⟨m, rfl⟩ : ∃ m', m = m' + 1 := Nat.exists_eq_succ_of_ne_zero (by omega)
        rw [others_next ht, others_next ht]
        -- the item adds none to the tokens behind the separator
        have hle := hitem.length_le stop rest
        refine bind_congr rfl fun a => ?_
        exact bind_congr (ih m _ (by omega) (by omega)) fun as => rfl
      · rw [others_none hnot, others_none hnot]

/-- **The loop is never cut short.** -/
theorem unrolls : Unrolls separator item := by
  intro stop ts
  rcases next_cases separator ts with ⟨t, rest, ht, rfl⟩ | hnot
  · rw [more, List.length_cons, others_next ht, bind_ok (accept_of_eq ht stop rest)]
    have hle := hitem.length_le stop rest
    refine bind_congr rfl fun a => ?_
    exact bind_congr (others_enough hitem stop _ _ _ hle (Nat.le_refl _)) fun as => rfl
  · rw [more, others_none hnot, bind_ok (accept_of_notNext hnot stop)]
    rfl

end Unrolls

end Reader

/-! ## The stream -/

namespace Parser

open Reader

/-- The tokens that the parser reads, of which one ends the input: those that are no trivia, if
    the last one ends it, and else those that do not end it, with such an end behind them. -/
def stream (all : List Token) : List Token :=
  let structural := all.filter fun t => !t.kind.isTrivia
  if structural.getLast?.any (·.is .endOfInput) then structural
  else structural.filter (fun t => !t.is .endOfInput)
    ++ [.atEnd ((all.getLast?.map (·.span.stop)).getD 0)]

/-- One step of the loop over the rules of a stream after the other, from a position to the first
    end of the input, `last`.  A step reads the stream from its position on, of which it sees
    nothing behind that end. -/
inductive Loop (stop : Span) (stream : List Token) (last : Nat) : Nat → List Section → Prop
  | done {t} : stream[last]? = some t → t.kind = .endOfInput → Loop stop stream last last []
  | round {p q t step steps} : stream[p]? = some t → t.kind ≠ .endOfInput →
      step = sectionAt stop (stream.drop p) →
      step = sectionAt stop ((stream.drop p).takeWhile fun t => !t.is .endOfInput) →
      p < q → q ≤ last → stream.take q = stream.take p ++ step.tokens →
      Loop stop stream last q steps → Loop stop stream last p (step :: steps)

variable {stop : Span} {all : List Token} {last p : Nat} {steps : List Section}

/-- The steps cover the tokens from the position to the end of the input. -/
theorem Loop.covers (h : Loop stop all last p steps) :
    all.take last = all.take p ++ steps.flatMap (·.tokens) := by
  induction h with
  | done _ _ => rw [List.flatMap_nil, List.append_nil]
  | round _ _ _ _ _ _ htake _ ih => rw [ih, htake, List.append_assoc, List.flatMap_cons]

/-- Every step takes the loop further. -/
theorem Loop.length_le (h : Loop stop all last p steps) : p + steps.length ≤ last := by
  induction h with
  | done _ _ => exact Nat.le_refl _
  | round _ _ _ _ hlt _ _ _ ih =>
      rw [List.length_cons]
      omega

/-- What a step reads is what stands in front of the end of the input. -/
theorem takeWhile_to_end {finish : Token} (hfinish : finish.kind = .endOfInput)
    (front behind : List Token) {ts : List Token} (hts : ∀ t ∈ ts, t.kind ≠ .endOfInput) :
    ((front ++ (ts ++ finish :: behind)).drop front.length).takeWhile
      (fun t => !t.is .endOfInput) = ts := by
  have hkinds : ∀ t ∈ ts, (!t.is .endOfInput) = true := fun t ht => by
    rw [Token.is_eq_false_iff.mpr (hts t ht)]
    rfl
  rw [List.drop_left, List.takeWhile_append_of_pos hkinds, List.takeWhile_cons_of_neg,
    List.append_nil]
  rw [Token.is, hfinish]
  exact Bool.false_ne_true

/-- **The sections of the tokens in front of an end of the input are the steps to it.** -/
theorem loop_sections {finish : Token} (hfinish : finish.kind = .endOfInput)
    (hstop : finish.span = stop) (behind : List Token) (n : Nat) :
    ∀ front ts : List Token, ts.length ≤ n → (∀ t ∈ ts, t.kind ≠ .endOfInput) →
      Loop stop (front ++ (ts ++ finish :: behind)) (front.length + ts.length) front.length
        (sections stop ts) := by
  have hdone : ∀ front : List Token, Loop stop (front ++ ([] ++ finish :: behind))
      (front.length + 0) front.length (sections stop []) := by
    intro front
    refine .done ?_ hfinish
    rw [List.nil_append, Nat.add_zero, List.getElem?_append_right (Nat.le_refl _), Nat.sub_self]
    rfl
  induction n with
  | zero =>
      intro front ts hn _
      obtain rfl := List.length_eq_zero_iff.mp (Nat.le_zero.mp hn)
      exact hdone front
  | succ n ih =>
      intro front ts hn hts
      cases ts with
      | nil => exact hdone front
      | cons t ts =>
          have hne := List.cons_ne_nil t ts
          obtain ⟨rest, hrest, hlt⟩ := sectionAt_covers stop hne
          have hread := takeWhile_to_end hfinish front behind hts
          have huncut : sectionAt stop ((front ++ (t :: ts ++ finish :: behind)).drop front.length)
              = sectionAt stop (t :: ts) := by
            rw [List.drop_left]
            exact sectionAt_uncut hne ⟨hfinish, hstop⟩
          have hlen := congrArg List.length hrest
          rw [List.length_append] at hlen
          have hlater := ih (front ++ (sectionAt stop (t :: ts)).tokens) rest (by omega) fun u hu =>
            hts u (hrest ▸ List.mem_append_right _ hu)
          rw [List.append_assoc, ← List.append_assoc _ rest, hrest, List.length_append,
            Nat.add_assoc, hlen] at hlater
          rw [sections_eq hne hrest]
          refine .round ?_ (hts t List.mem_cons_self) huncut.symm (by rw [hread]) (by omega)
            (by omega) ?_ hlater
          · rw [List.getElem?_append_right (Nat.le_refl _), Nat.sub_self]
            rfl
          · rw [List.take_length_add_append, List.take_left, List.take_append_of_le_length (by omega)]
            exact congrArg (front ++ ·) (List.prefix_iff_eq_take.mp ⟨rest, hrest⟩).symm

/-- The stream is what the parser reads, then the token that ends the input, then others. -/
theorem stream_eq (all : List Token) : ∃ finish behind,
    stream all = (Input.ofTokens all).tokens ++ finish :: behind ∧ finish.kind = .endOfInput ∧
      finish.span = (Input.ofTokens all).stop ∧
        ∀ t ∈ (Input.ofTokens all).tokens, t.kind ≠ .endOfInput := by
  rw [stream, Input.ofTokens]
  generalize all.filter (fun t => !t.kind.isTrivia) = structural
  split
  · rename_i hlast
    obtain ⟨t, ht, hend⟩ := (Option.any_eq_true _ _).mp hlast
    cases hdrop : structural.dropWhile fun t => !t.is .endOfInput with
    | nil =>
        have hnone := List.dropWhile_eq_nil_iff.mp hdrop t (List.mem_of_getLast? ht)
        rw [hend] at hnone
        cases hnone
    | cons finish behind =>
        have hfind : structural.find? (·.is .endOfInput) = some finish := by
          rw [List.find?_eq_head?_dropWhile_not, hdrop]
          rfl
        have hkind := List.find?_some hfind
        refine ⟨finish, behind, ?_, eq_of_beq hkind, ?_, fun t ht hk => ?_⟩
        · rw [← hdrop, List.takeWhile_append_dropWhile]
        · rw [hfind]
          rfl
        · have hkind := List.mem_takeWhile_imp ht
          rw [Token.is, hk] at hkind
          exact Bool.false_ne_true hkind
  · refine ⟨_, [], rfl, rfl, rfl, fun t ht => ?_⟩
    intro hk
    have hkind := (List.mem_filter.mp ht).2
    rw [Token.is, hk] at hkind
    exact Bool.false_ne_true hkind

theorem confined_innerAt (depth : Nat) : ConfinedInner 0 [] (innerAt depth) := by
  cases depth with
  | zero => exact nofun
  | succ depth => exact fun p hp => Option.some.inj hp ▸ confined_expression depth

/-- The loops over factors and over terms are never cut short, however deep they are. -/
theorem unrolls_innerAt (depth : Nat) : Unrolls .comma (factor (innerAt depth)) ∧
    Unrolls .verticalBar (term (innerAt depth)) :=
  ⟨unrolls (confined_factor (confined_innerAt depth)).spares,
    unrolls (confined_term (confined_innerAt depth)).spares⟩

/-- What reading a token list comes to.  It stops at `finish`, the first end of the input in the
    stream, at the position `last`. -/
structure Progress (all : List Token) (last : Nat) (finish : Token) : Prop where
  stops : (stream all)[last]? = some finish ∧ finish.kind = .endOfInput
  first : ∀ t ∈ (stream all).take last, t.kind ≠ .endOfInput
  /-- Every step begins where the one before it ended, and goes further. -/
  loop : Loop finish.span (stream all) last 0 (sectionsOf all)
  /-- Every token in front of the end is one of one step. -/
  covers : (sectionsOf all).flatMap (·.tokens) = (stream all).take last
  /-- A step adds one rule or one error. -/
  one : ∀ step ∈ sectionsOf all, step.rule?.toList.length + step.error?.toList.length = 1
  total : ((sectionsOf all).filterMap (·.rule?)).length
    + ((sectionsOf all).filterMap (·.error?)).length = (sectionsOf all).length
  bounded : (sectionsOf all).length ≤ last ∧
    last ≤ (all.filter fun t => !t.is .endOfInput && !t.kind.isTrivia).length
  /-- The loops within a step end where there is no separator, and nowhere else. -/
  unrolls : ∀ depth, Unrolls .comma (factor (innerAt depth)) ∧
    Unrolls .verticalBar (term (innerAt depth))

/-- A step is a rule or an error. -/
theorem Section.one (step : Section) :
    step.rule?.toList.length + step.error?.toList.length = 1 := by
  obtain ⟨tokens, notes, backward, outcome⟩ := step
  cases outcome <;> rfl

/-- Rules and errors are as many as steps. -/
theorem Section.total (steps : List Section) : (steps.filterMap (·.rule?)).length
    + (steps.filterMap (·.error?)).length = steps.length := by
  induction steps with
  | nil => rfl
  | cons step steps ih =>
      have hone := step.one
      rw [List.filterMap_eq_flatMap_toList, List.filterMap_eq_flatMap_toList] at ih ⊢
      rw [List.flatMap_cons, List.flatMap_cons, List.length_append, List.length_append,
        List.length_cons]
      omega

/-- **Reading any tokens comes to the end of the input.** -/
theorem exists_progress (all : List Token) : ∃ last finish, Progress all last finish := by
  obtain ⟨finish, behind, hstream, hend, hspan, hkinds⟩ := stream_eq all
  have hloop := @loop_sections finish.span finish hend rfl behind _ [] _ (Nat.le_refl _) hkinds
  rw [List.nil_append, ← hstream, List.length_nil, Nat.zero_add] at hloop
  have hsections : sections finish.span (Input.ofTokens all).tokens = sectionsOf all := by
    rw [hspan]
    rfl
  rw [hsections] at hloop
  have htake : (stream all).take (Input.ofTokens all).tokens.length = (Input.ofTokens all).tokens := by
    rw [hstream, List.take_left]
  refine ⟨_, finish, ⟨?_, hend⟩, ?_, hloop, ?_, fun step _ => step.one, ?_, ⟨?_, ?_⟩, unrolls_innerAt⟩
  · rw [hstream, List.getElem?_append_right (Nat.le_refl _), Nat.sub_self]
    rfl
  · rwa [htake]
  · rw [hloop.covers]
    rfl
  · exact Section.total _
  · have hle := hloop.length_le
    rwa [Nat.zero_add] at hle
  · have hfilter : (Input.ofTokens all).tokens.filter (fun t => !t.is .endOfInput)
        = (Input.ofTokens all).tokens := by
      refine List.filter_eq_self.mpr fun t ht => ?_
      rw [Token.is_eq_false_iff.mpr (hkinds t ht)]
      rfl
    rw [← List.filter_filter, ← hfilter]
    exact ((ofTokens_sublist all).filter _).length_le

end Parser

namespace Grammar

/-- **Parsing comes to an end on any tokens that ascend**, and makes no span that is backward.
    Its rules are those of the steps, and among the errors are those of the other steps. -/
theorem ofTokens_progress {all : List Token} (h : Ascends 0 all) :
    (∃ last finish, Parser.Progress all last finish) ∧
    ofTokens? all = some (ofTokens all) ∧
    (ofTokens all).rules = (Parser.sectionsOf all).filterMap (·.rule?) ∧
    (ofTokens all).diagnostics.Perm (Comments.unterminatedAll all
      ++ (Parser.sectionsOf all).flatMap (·.notes) ++ (Parser.sectionsOf all).filterMap (·.error?)) :=
  ⟨Parser.exists_progress all, ofTokens?_eq_some h, rfl, stableSort_perm _⟩

/-- Ends of the input in front and in the middle, spans that overlap and texts that are none of
    their kinds: one rule is read, and one step is an error. -/
theorem ofTokens_progress_mixed : ∃ all : List Token,
    all = [.atEnd 0, ⟨.identifier, ⟨0, 1⟩, ['a']⟩, ⟨.equals, ⟨1, 2⟩, ['=']⟩,
      ⟨.identifier, ⟨1, 9⟩, ['b']⟩, ⟨.endOfInput, ⟨2, 9⟩, ['z']⟩, ⟨.semicolon, ⟨3, 4⟩, []⟩,
      ⟨.rightBrace, ⟨3, 7⟩, ['(']⟩, ⟨.number, ⟨3, 3⟩, ['?']⟩] ∧
    Ascends 0 all ∧ (∃ last finish, Parser.Progress all last finish) ∧
    ofTokens? all = some (ofTokens all) ∧
    (Parser.sectionsOf all).map (fun step => step.tokens.map (·.kind))
      = [[.identifier, .equals, .identifier, .semicolon], [.rightBrace, .number]] ∧
    (ofTokens all).rules.map (·.name) = [['a']] ∧
    (ofTokens all).diagnostics = [.syntaxError ⟨3, 7⟩ "expected rule name, found `\x7d`"] := by
  have hascends : Ascends 0 [.atEnd 0, ⟨.identifier, ⟨0, 1⟩, ['a']⟩, ⟨.equals, ⟨1, 2⟩, ['=']⟩,
      ⟨.identifier, ⟨1, 9⟩, ['b']⟩, ⟨.endOfInput, ⟨2, 9⟩, ['z']⟩, ⟨.semicolon, ⟨3, 4⟩, []⟩,
      ⟨.rightBrace, ⟨3, 7⟩, ['(']⟩, ⟨.number, ⟨3, 3⟩, ['?']⟩] := by
    refine ⟨?_, by decide⟩
    unfold Span.Lies
    decide
  obtain ⟨hprogress, hsome, -, -⟩ := ofTokens_progress hascends
  exact ⟨_, rfl, hascends, hprogress, hsome, by decide +kernel, by decide +kernel, by decide +kernel⟩

end Grammar

end EbnfKit
