import EbnfKit.Proofs.Parsing
import EbnfKit.Proofs.Sorting

/-! # Framing — readers look no further than the next semicolon

    Only a whole rule takes a semicolon, and it ends there.  Up to it, a reader does the same
    wherever the tokens stand and whatever comes behind them:

      p on ts                      replies   a, leaving rest
      p on (ts moved by n) ++ us   replies   a moved by n, leaving (rest moved by n) ++ us

    if there is a semicolon in ts, or us begins with the end of the input, which moves along.
    That end is never taken, whether it is a token or there are no more.  Errors and notes move
    as values do. -/

namespace EbnfKit

variable {α β γ δ : Type}

/-- The same problem in a text with `n` more bytes in front. -/
def Diagnostic.shift (n : Nat) (d : Diagnostic) : Diagnostic :=
  { d with span := d.span.shift n }

/-- The same outcome in a text with `n` more bytes in front. -/
def shiftOutcome (n : Nat) (move : α → β) : Except Diagnostic α → Except Diagnostic β
  | .ok a => .ok (move a)
  | .error e => .error (e.shift n)

/-- The reply to tokens that stand `n` bytes further behind, with others after them. -/
def Reply.framed (n : Nat) (us : List Token) (move : α → β) (r : Reply α) : Reply β :=
  { notes := r.notes.map (Diagnostic.shift n)
    backward := r.backward.map (Span.shift n)
    result := shiftOutcome n move r.result
    rest := r.rest.map (Token.shift n) ++ us }

theorem Span.shift_zero : Span.shift 0 = id := rfl

theorem Token.shift_zero : Token.shift 0 = id := rfl

theorem Diagnostic.shift_zero : Diagnostic.shift 0 = id := rfl

theorem Span.isBackward_shift (n : Nat) (s : Span) : (s.shift n).isBackward = s.isBackward := by
  rw [isBackward, isBackward, decide_eq_decide]
  exact Nat.add_lt_add_iff_right

theorem Span.join_shift (n : Nat) (a b : Span) :
    (a.shift n).join (b.shift n) = (a.join b).shift n := by
  rw [join, join, shift, shift, shift, Nat.add_min_add_right, Nat.add_max_add_right]

theorem Span.shift_inj {n : Nat} {a b : Span} : a.shift n = b.shift n ↔ a = b := by
  constructor
  · intro h
    have hstart : a.start + n = b.start + n := congrArg start h
    have hstop : a.stop + n = b.stop + n := congrArg stop h
    exact congrArg₂ mk (Nat.add_right_cancel hstart) (Nat.add_right_cancel hstop)
  · exact congrArg _

theorem Span.before_shift (n : Nat) (a b : Span) : (a.shift n).before (b.shift n) = a.before b := by
  have hstart : (a.start + n == b.start + n) = (a.start == b.start) :=
    beq_eq_beq.mpr Nat.add_right_cancel_iff
  simp only [before, shift, Nat.add_lt_add_iff_right, hstart]

/-- Problems keep their order. -/
theorem Diagnostic.le_shift (n : Nat) (a b : Diagnostic) : (a.shift n).le (b.shift n) = a.le b := by
  have hsame : (a.span.shift n == b.span.shift n) = (a.span == b.span) :=
    beq_eq_beq.mpr Span.shift_inj
  show ((a.span.shift n).before (b.span.shift n) || (a.span.shift n == b.span.shift n && _)) = _
  rw [Span.before_shift, hsame]
  rfl

theorem Diagnostic.sort_shift (n : Nat) (ds : List Diagnostic) :
    sort (ds.map (shift n)) = (sort ds).map (shift n) :=
  stableSort_map (le_shift n) ds

/-- The input ends in front of the tokens, at `finish`: there are none, and it stops there, or
    the first one is the end. -/
def EndsAt (finish stop : Span) : List Token → Prop
  | [] => stop = finish
  | u :: _ => u.kind = .endOfInput ∧ u.span = finish

theorem EndsAt.nil (finish : Span) : EndsAt finish finish [] := rfl

theorem EndsAt.head_span {finish stop : Span} {us : List Token} (h : EndsAt finish stop us) :
    (us.head?.map (·.span)).getD stop = finish := by
  cases us with
  | nil => exact h
  | cons u us => exact h.2

/-- What comes behind the tokens cannot be seen: a semicolon stands in front of it, or it
    begins with the end of the input. -/
def Sheltered (n : Nat) (us : List Token) (stop stop' : Span) (ts : List Token) : Prop :=
  (∃ t ∈ ts, t.kind = .semicolon) ∨ EndsAt (stop.shift n) stop' us

/-- Behind no tokens the input ends. -/
theorem Sheltered.ends {n : Nat} {us : List Token} {stop stop' : Span}
    (h : Sheltered n us stop stop' []) : EndsAt (stop.shift n) stop' us := by
  refine h.resolve_left ?_
  rintro ⟨t, ht, -⟩
  cases ht

/-- No semicolon is among the tokens. -/
def NoSemicolon (ts : List Token) : Prop :=
  ∀ t ∈ ts, t.kind ≠ .semicolon

theorem NoSemicolon.nil : NoSemicolon [] :=
  List.forall_mem_nil _

theorem NoSemicolon.append {ts us : List Token} (hts : NoSemicolon ts) (hus : NoSemicolon us) :
    NoSemicolon (ts ++ us) :=
  List.forall_mem_append.mpr ⟨hts, hus⟩

/-- It cannot be seen from further on either, up to the semicolon. -/
theorem Sheltered.of_append {n : Nat} {us used rest : List Token} {stop stop' : Span}
    (h : Sheltered n us stop stop' (used ++ rest)) (hused : NoSemicolon used) :
    Sheltered n us stop stop' rest := by
  refine h.imp_left ?_
  rintro ⟨t, ht, hk⟩
  rcases List.mem_append.mp ht with ht | ht
  · exact absurd hk (hused t ht)
  · exact ⟨t, ht, hk⟩

/-- The next token moves with the others. -/
theorem Sheltered.head_span {n : Nat} {us ts : List Token} {stop stop' : Span}
    (h : Sheltered n us stop stop' ts) :
    ((ts.map (Token.shift n) ++ us).head?.map (·.span)).getD stop'
      = ((ts.head?.map (·.span)).getD stop).shift n := by
  cases ts with
  | nil => exact h.ends.head_span
  | cons t ts => rfl

namespace Reader

/-- `q` replies to tokens in a frame as `p` does to the tokens by themselves. -/
def Framed (n : Nat) (us : List Token) (move : α → β) (p : Reader α) (q : Reader β) : Prop :=
  ∀ {stop stop' ts}, Sheltered n us stop stop' ts →
    q stop' (ts.map (Token.shift n) ++ us) = (p stop ts).framed n us move

/-- `p` takes no semicolon, whatever it comes to. -/
def Spares (p : Reader α) : Prop :=
  ∀ stop ts, ∃ used, ts = used ++ (p stop ts).rest ∧ NoSemicolon used

/-- `p` takes one semicolon, the last token before its value; where it fails, none. -/
def Closes (p : Reader α) : Prop :=
  ∀ stop ts, ∃ used, NoSemicolon used ∧
    match (p stop ts).result with
    | .ok _ => ∃ c, c.kind = .semicolon ∧ ts = used ++ c :: (p stop ts).rest
    | .error _ => ts = used ++ (p stop ts).rest

/-- `p` takes no semicolon, and `q` does in a frame what `p` does. -/
structure Confined (n : Nat) (us : List Token) (move : α → β) (p : Reader α) (q : Reader β) :
    Prop where
  framed : Framed n us move p q
  spares : Spares p

/-! ## One after the other -/

theorem bind_error {p : Reader α} {f : α → Reader β} {stop : Span} {ts rest : List Token}
    {notes : List Diagnostic} {backward : List Span} {e : Diagnostic}
    (h : p stop ts = ⟨notes, backward, .error e, rest⟩) :
    (p >>= f) stop ts = ⟨notes, backward, .error e, rest⟩ := by
  show Reader.bind p f stop ts = _
  rw [Reader.bind, h]

theorem bind_ok {p : Reader α} {f : α → Reader β} {stop : Span} {ts rest : List Token}
    {notes : List Diagnostic} {backward : List Span} {a : α}
    (h : p stop ts = ⟨notes, backward, .ok a, rest⟩) :
    (p >>= f) stop ts = ⟨notes ++ (f a stop rest).notes, backward ++ (f a stop rest).backward,
      (f a stop rest).result, (f a stop rest).rest⟩ := by
  show Reader.bind p f stop ts = _
  rw [Reader.bind, h]

section Bind

variable {n : Nat} {us : List Token} {move : α → γ} {move' : β → δ} {p : Reader α} {q : Reader γ}
  {f : α → Reader β} {g : γ → Reader δ}

/-- Where both readers reply within the frame, so do they one after the other. -/
theorem framed_bind {stop stop' : Span} {ts ts' : List Token}
    (hp : q stop' ts' = (p stop ts).framed n us move)
    (hf : ∀ a, (p stop ts).result = .ok a → g (move a) stop' ((p stop ts).rest.map (Token.shift n) ++ us)
      = (f a stop (p stop ts).rest).framed n us move') :
    (q >>= g) stop' ts' = ((p >>= f) stop ts).framed n us move' := by
  rcases hreply : p stop ts with ⟨notes, backward, result, rest⟩
  rw [hreply] at hp hf
  cases result with
  | error e => rw [bind_error hreply, bind_error hp]; rfl
  | ok a =>
      rw [bind_ok hreply, bind_ok hp, hf a rfl, Reply.framed, Reply.framed, List.map_append,
        List.map_append]

theorem Framed.bind (hp : Confined n us move p q) (hf : ∀ a, Framed n us move' (f a) (g (move a))) :
    Framed n us move' (p >>= f) (q >>= g) := by
  intro stop stop' ts h
  refine framed_bind (hp.framed h) fun a _ => hf a ?_
  obtain ⟨used, hts, hused⟩ := hp.spares stop ts
  rw [hts] at h
  exact h.of_append hused

theorem Spares.bind (hp : Spares p) (hf : ∀ a, Spares (f a)) : Spares (p >>= f) := by
  intro stop ts
  obtain ⟨used, hts, hused⟩ := hp stop ts
  rcases hreply : p stop ts with ⟨notes, backward, result, rest⟩
  rw [hreply] at hts
  cases result with
  | error e => rw [bind_error hreply]; exact ⟨used, hts, hused⟩
  | ok a =>
      obtain ⟨used', hrest, hused'⟩ := hf a stop rest
      rw [bind_ok hreply]
      exact ⟨used ++ used', by rw [List.append_assoc, ← hrest]; exact hts, hused.append hused'⟩

theorem Closes.bind (hp : Spares p) (hf : ∀ a, Closes (f a)) : Closes (p >>= f) := by
  intro stop ts
  obtain ⟨used, hts, hused⟩ := hp stop ts
  rcases hreply : p stop ts with ⟨notes, backward, result, rest⟩
  rw [hreply] at hts
  cases result with
  | error e => rw [bind_error hreply]; exact ⟨used, hused, hts⟩
  | ok a =>
      obtain ⟨used', hused', hends⟩ := hf a stop rest
      rw [bind_ok hreply]
      refine ⟨used ++ used', hused.append hused', ?_⟩
      show match (f a stop rest).result with | .ok _ => _ | .error _ => _
      have hts : ts = used ++ rest := hts
      cases hresult : (f a stop rest).result with
      | error e =>
          rw [hresult] at hends
          rw [hts, List.append_assoc]
          exact congrArg (used ++ ·) hends
      | ok b =>
          rw [hresult] at hends
          obtain ⟨c, hc, hrest⟩ := hends
          refine ⟨c, hc, ?_⟩
          rw [hts, List.append_assoc]
          exact congrArg (used ++ ·) hrest

theorem Confined.bind (hp : Confined n us move p q)
    (hf : ∀ a, Confined n us move' (f a) (g (move a))) :
    Confined n us move' (p >>= f) (q >>= g) :=
  ⟨Framed.bind hp fun a => (hf a).framed, hp.spares.bind fun a => (hf a).spares⟩

end Bind

/-! ## Readers that take no more than a token -/

section Basic

variable {n : Nat} {us : List Token} {move : α → β}

/-- A reader that takes nothing spares whatever there is. -/
theorem Spares.of_rest {p : Reader α} (h : ∀ stop ts, (p stop ts).rest = ts) : Spares p :=
  fun stop ts => ⟨[], (h stop ts).symm, .nil⟩

theorem confined_pure (a : α) : Confined n us move (Pure.pure a) (Pure.pure (move a)) :=
  ⟨fun _ => rfl, .of_rest fun _ _ => rfl⟩

theorem confined_fail (d : Diagnostic) : Confined n us move (fail d) (fail (d.shift n)) :=
  ⟨fun _ => rfl, .of_rest fun _ _ => rfl⟩

theorem confined_note (d : Diagnostic) : Confined n us id (note d) (note (d.shift n)) :=
  ⟨fun _ => rfl, .of_rest fun _ _ => rfl⟩

theorem confined_span (start finish : Nat) :
    Confined n us (Span.shift n) (span start finish) (span (start + n) (finish + n)) := by
  refine ⟨?_, .of_rest fun _ _ => rfl⟩
  intro stop stop' ts _
  have hback := Span.isBackward_shift n ⟨start, finish⟩
  show Reply.mk [] (if (Span.shift n ⟨start, finish⟩).isBackward then _ else _) _ _ = _
  rw [hback, Reply.framed, span]
  split <;> rfl

theorem confined_here : Confined n us (Span.shift n) here here := by
  refine ⟨?_, .of_rest fun _ _ => rfl⟩
  intro stop stop' ts h
  rw [here, h.head_span]
  rfl

theorem found_shift (x : Option Token) : found (x.map (Token.shift n)) = found x := by
  cases x <;> rfl

/-- An error says the same of the end of the input, whether it is a token or not. -/
theorem found_framed {stop stop' : Span} {ts : List Token} (h : Sheltered n us stop stop' ts) :
    found (ts.map (Token.shift n) ++ us).head? = found ts.head? := by
  cases ts with
  | cons t ts => exact found_shift (some t)
  | nil =>
      cases us with
      | nil => rfl
      | cons u us =>
          have hkind : u.kind = .endOfInput := h.ends.1
          show found (some u) = found none
          simp only [found, hkind]

theorem confined_unexpected (expected : String) :
    Confined n us move (unexpected expected) (unexpected expected) := by
  refine ⟨?_, .of_rest fun _ _ => rfl⟩
  intro stop stop' ts h
  rw [unexpected, h.head_span, found_framed h]
  rfl

theorem accept_of_eq {kind : TokenKind} {t : Token} (h : t.kind = kind) (stop : Span)
    (ts : List Token) : accept kind stop (t :: ts) = ⟨[], [], .ok (some t), ts⟩ := by
  simp only [accept, if_pos h]

theorem accept_of_notNext {kind : TokenKind} {ts : List Token} (h : NotNext kind ts) (stop : Span) :
    accept kind stop ts = ⟨[], [], .ok none, ts⟩ := by
  cases ts with
  | nil => rfl
  | cons t ts => simp only [accept, if_neg (h t rfl)]

/-- The next token is of the kind, and the others follow; or it is not. -/
theorem next_cases (kind : TokenKind) (ts : List Token) :
    (∃ t rest, t.kind = kind ∧ ts = t :: rest) ∨ NotNext kind ts := by
  cases ts with
  | nil => exact Or.inr fun t ht => nomatch ht
  | cons t ts =>
      by_cases hk : t.kind = kind
      · exact Or.inl ⟨t, ts, hk, rfl⟩
      · refine Or.inr fun u hu => ?_
        rwa [← Option.some.inj hu]

/-- What is not next is not next in the frame, unless it is the end of the input. -/
theorem NotNext.framed {kind : TokenKind} {stop stop' : Span} {ts : List Token}
    (h : NotNext kind ts) (hkind : kind ≠ .endOfInput) (hts : Sheltered n us stop stop' ts) :
    NotNext kind (ts.map (Token.shift n) ++ us) := by
  intro u hu
  cases ts with
  | cons t ts =>
      rw [← Option.some.inj hu]
      exact h t rfl
  | nil =>
      obtain ⟨us, rfl⟩ := List.head?_eq_some_iff.mp hu
      rw [hts.ends.1]
      exact hkind.symm

theorem framed_accept {kind : TokenKind} (hkind : kind ≠ .endOfInput) :
    Framed n us (Option.map (Token.shift n)) (accept kind) (accept kind) := by
  intro stop stop' ts h
  rcases next_cases kind ts with ⟨t, rest, hk, rfl⟩ | hnot
  · rw [accept_of_eq hk]
    exact accept_of_eq (t := t.shift n) hk stop' _
  · rw [accept_of_notNext hnot, accept_of_notNext (hnot.framed hkind h)]
    rfl

theorem spares_accept {kind : TokenKind} (h : kind ≠ .semicolon) : Spares (accept kind) := by
  intro stop ts
  rcases next_cases kind ts with ⟨t, rest, hk, rfl⟩ | hnot
  · rw [accept_of_eq hk]
    exact ⟨[t], rfl, List.forall_mem_singleton.mpr (hk ▸ h)⟩
  · rw [accept_of_notNext hnot]
    exact ⟨[], rfl, .nil⟩

theorem confined_accept {kind : TokenKind} (h : kind ≠ .semicolon) (hkind : kind ≠ .endOfInput) :
    Confined n us (Option.map (Token.shift n)) (accept kind) (accept kind) :=
  ⟨framed_accept hkind, spares_accept h⟩

theorem confined_expect {kind : TokenKind} (h : kind ≠ .semicolon) (hkind : kind ≠ .endOfInput) :
    Confined n us (Token.shift n) (expect kind) (expect kind) :=
  (confined_accept h hkind).bind fun x =>
    match x with
    | none => confined_unexpected _
    | some t => confined_pure t

theorem expect_of_eq {kind : TokenKind} {t : Token} (h : t.kind = kind) (stop : Span)
    (ts : List Token) : expect kind stop (t :: ts) = ⟨[], [], .ok t, ts⟩ :=
  bind_ok (accept_of_eq h stop ts)

theorem expect_of_notNext {kind : TokenKind} {ts : List Token} (h : NotNext kind ts) (stop : Span) :
    expect kind stop ts = unexpected kind.describe stop ts :=
  bind_ok (accept_of_notNext h stop)

theorem spares_expect {kind : TokenKind} (h : kind ≠ .semicolon) : Spares (expect kind) :=
  (spares_accept h).bind fun x =>
    match x with
    | none => .of_rest fun _ _ => rfl
    | some _ => .of_rest fun _ _ => rfl

/-- With the semicolon it takes a reader is done, and looks no further. -/
theorem framed_semicolon {f : Token → α} {g : Token → β} (h : ∀ c, g (c.shift n) = move (f c)) :
    Framed n us move (expect .semicolon >>= fun c => Pure.pure (f c))
      (expect .semicolon >>= fun c => Pure.pure (g c)) := by
  intro stop stop' ts hts
  have hexpect : expect .semicolon stop' (ts.map (Token.shift n) ++ us)
      = (expect .semicolon stop ts).framed n us (Token.shift n) := by
    refine framed_bind (framed_accept (by decide) hts) fun x hx => ?_
    cases x with
    | some t => rfl
    | none =>
        rcases next_cases .semicolon ts with ⟨t, rest, hk, rfl⟩ | hnot
        · rw [accept_of_eq hk] at hx
          cases hx
        · rw [accept_of_notNext hnot]
          exact (confined_unexpected _).framed hts
  refine framed_bind hexpect fun c _ => ?_
  rw [h]
  rfl

theorem closes_semicolon (f : Token → α) :
    Closes (expect .semicolon >>= fun c => Pure.pure (f c)) := by
  intro stop ts
  rcases next_cases .semicolon ts with ⟨c, rest, hk, rfl⟩ | hnot
  · rw [bind_ok (expect_of_eq hk stop rest)]
    exact ⟨[], .nil, c, hk, rfl⟩
  · rw [bind_error (expect_of_notNext hnot stop)]
    exact ⟨[], .nil, rfl⟩

end Basic

/-! ## Items with separators -/

section Separated

variable {n : Nat} {us : List Token} {move : α → β} {separator : TokenKind} {item : Reader α}
  {item' : Reader β}

theorem others_next {k : Nat} {t : Token} (ht : t.kind = separator) (stop : Span)
    (ts : List Token) : others separator item (k + 1) stop (t :: ts)
      = (do return (← item) :: (← others separator item k)) stop ts := by
  rw [others, bind_ok (accept_of_eq ht stop ts)]
  rfl

theorem others_none {ts : List Token} (h : NotNext separator ts) (k : Nat) (stop : Span) :
    others separator item k stop ts = ⟨[], [], .ok [], ts⟩ := by
  cases k with
  | zero => rfl
  | succ k =>
      rw [others, bind_ok (accept_of_notNext h stop)]
      rfl

theorem spares_others (hitem : Spares item) (hsep : separator ≠ .semicolon) (k : Nat) :
    Spares (others separator item k) := by
  induction k with
  | zero => exact .of_rest fun _ _ => rfl
  | succ k ih =>
      refine (spares_accept hsep).bind fun x => ?_
      cases x with
      | none => exact .of_rest fun _ _ => rfl
      | some _ => exact hitem.bind fun a => ih.bind fun as => .of_rest fun _ _ => rfl

/-- Further items are framed, however many more tokens there are in the frame. -/
theorem framed_others (hitem : Confined n us move item item') (hsep : separator ≠ .semicolon)
    (hend : separator ≠ .endOfInput) {stop stop' : Span} (k : Nat) : ∀ m ts, ts.length ≤ k → ts.length ≤ m →
      Sheltered n us stop stop' ts →
      others separator item' m stop' (ts.map (Token.shift n) ++ us)
        = (others separator item k stop ts).framed n us (List.map move) := by
  induction k with
  | zero =>
      intro m ts hk _ hts
      obtain rfl := List.length_eq_zero_iff.mp (Nat.le_zero.mp hk)
      have hnot : NotNext separator [] := fun t ht => nomatch ht
      rw [others_none hnot, others_none (hnot.framed hend hts)]
      rfl
  | succ k ih =>
      intro m ts hk hm hts
      rcases next_cases separator ts with ⟨t, rest, ht, rfl⟩ | hnot
      · obtain ⟨m, rfl⟩ : ∃ m', m = m' + 1 := Nat.exists_eq_succ_of_ne_zero (Nat.ne_of_gt
          (Nat.lt_of_lt_of_le (Nat.succ_pos rest.length) hm))
        have hrest : Sheltered n us stop stop' rest :=
          @Sheltered.of_append n us [t] rest stop stop' hts
            (List.forall_mem_singleton.mpr (ht ▸ hsep))
        rw [others_next ht, List.map_cons, List.cons_append, others_next (t := t.shift n) ht]
        refine framed_bind (hitem.framed hrest) fun a _ => ?_
        obtain ⟨used, hsplit, hused⟩ := hitem.spares stop rest
        rw [hsplit] at hrest
        -- the item leaves no more tokens than there are behind the separator
        have hlen := congrArg List.length hsplit
        rw [List.length_append] at hlen
        rw [List.length_cons] at hk hm
        exact framed_bind (ih m _ (by omega) (by omega) (hrest.of_append hused)) fun as _ => rfl
      · rw [others_none hnot, others_none (hnot.framed hend hts)]
        rfl

theorem confined_separated (hitem : Confined n us move item item')
    (hsep : separator ≠ .semicolon) (hend : separator ≠ .endOfInput) :
    Confined n us (Prod.map move (List.map move)) (separated separator item)
      (separated separator item') := by
  refine hitem.bind fun a => ?_
  have hothers : Confined n us (List.map move)
      (fun stop ts => others separator item ts.length stop ts)
      (fun stop ts => others separator item' ts.length stop ts) := by
    refine ⟨?_, fun stop ts => spares_others hitem.spares hsep ts.length stop ts⟩
    intro stop stop' ts hts
    have hlen : ts.length ≤ (ts.map (Token.shift n) ++ us).length := by
      rw [List.length_append, List.length_map]
      exact Nat.le_add_right _ _
    exact framed_others hitem hsep hend ts.length _ ts (Nat.le_refl _) hlen hts
  exact hothers.bind fun as => confined_pure _

end Separated

end Reader

/-! ## The readers of the parser -/

namespace Parser

open Reader

variable {n : Nat} {us : List Token}

theorem confined_count : Confined n us id count count := by
  refine (confined_accept (by decide) (by decide)).bind fun x => ?_
  cases x with
  | none => exact confined_pure none
  | some t =>
      have htext : (t.shift n).text = t.text := rfl
      simp only [Option.map_some, htext]
      cases t.text.count? with
      | none => exact confined_fail _
      | some k => exact (confined_expect (by decide) (by decide)).bind fun _ => confined_pure (some k)

theorem confined_literal (t : Token) :
    Confined n us (Primary.map (Span.shift n)) (literal t) (literal (t.shift n)) := by
  rw [literal, literal]
  show Confined n us _ (if !(Quoted.ofText t.text).closed then _ else _)
    (if !(Quoted.ofText t.text).closed then _ else _)
  split
  · exact (confined_note _).bind fun _ => confined_pure _
  · exact confined_pure _

/-- What several items span moves with them. -/
theorem joined_shift {γ : Type} {mark : γ → Span} {move : γ → γ}
    (h : ∀ x, mark (move x) = (mark x).shift n) (x : γ) (xs : List γ) :
    (mark (move x)).join (mark ((xs.map move).getLast?.getD (move x)))
      = ((mark x).join (mark (xs.getLast?.getD x))).shift n := by
  rw [List.getLast?_map, Option.getD_map, h, h, Span.join_shift]

/-- The reader for what is in a bracket is confined, if brackets may be nested at all. -/
def ConfinedInner (n : Nat) (us : List Token) (inner : Option (Reader (Expression Span))) : Prop :=
  ∀ p ∈ inner, Confined n us (Expression.map (Span.shift n)) p p

section Inner

variable {inner : Option (Reader (Expression Span))} (hinner : ConfinedInner n us inner)

theorem confined_bracketed (hinner : ConfinedInner n us inner) (bracket : Bracket) (opening : Span) :
    Confined n us (Primary.map (Span.shift n)) (bracketed inner bracket opening)
      (bracketed inner bracket (opening.shift n)) := by
  cases inner with
  | none => exact confined_fail _
  | some p =>
      refine (hinner p rfl).bind fun e =>
        (confined_expect (by cases bracket <;> decide)
          (by cases bracket <;> decide)).bind fun c => ?_
      have hjoin := Span.join_shift n opening c.span
      show Confined n us _ _
        (Pure.pure (Primary.bracketed ((opening.shift n).join (c.span.shift n)) _ _))
      rw [hjoin]
      exact confined_pure _

/-- A primary goes by its first token, which it takes; or that token cannot begin one. -/
theorem primary_cons (inner : Option (Reader (Expression Span))) (t : Token) :
    (t.kind ≠ .semicolon ∧ ∃ p : Token → Reader (Primary Span),
        (∀ u, u.kind = t.kind → ∀ stop ts, primary inner stop (u :: ts) = p u stop ts) ∧
        ∀ n us, ConfinedInner n us inner →
          Confined n us (Primary.map (Span.shift n)) (p t) (p (t.shift n))) ∨
      ∀ u, u.kind = t.kind → ∀ stop ts, primary inner stop (u :: ts)
        = unexpected "rule name, string literal, `(`, `[` or `\x7b`" stop (u :: ts) := by
  by_cases hname : t.kind = .identifier
  · refine Or.inl ⟨by rw [hname]; decide, fun u => Pure.pure (.reference u.span u.text), ?_, ?_⟩
    · intro u hu stop ts
      simp only [primary, hu, hname]
      rfl
    · exact fun _ _ _ => confined_pure _
  by_cases hstring : t.kind = .stringLiteral
  · refine Or.inl ⟨by rw [hstring]; decide, literal, ?_, fun _ _ _ => confined_literal t⟩
    intro u hu stop ts
    simp only [primary, hu, hstring]
  cases hopen : Bracket.ofOpening? t.kind with
  | some b =>
      refine Or.inl ⟨?_, fun u => bracketed inner b u.span, ?_, ?_⟩
      · intro hk
        rw [hk] at hopen
        cases hopen
      · intro u hu stop ts
        simp only [primary, hu, hopen]
      · exact fun _ _ hinner => confined_bracketed hinner b t.span
  | none =>
      refine Or.inr fun u hu stop ts => ?_
      simp only [primary, hu, hopen]

/-- The end of the input begins no primary. -/
theorem primary_at_end (inner : Option (Reader (Expression Span))) {finish stop : Span}
    (h : EndsAt finish stop us) : primary inner stop us
      = unexpected "rule name, string literal, `(`, `[` or `\x7b`" stop us := by
  cases us with
  | nil => rfl
  | cons u us =>
      simp only [primary, h.1]
      rfl

include hinner

theorem confined_primary :
    Confined n us (Primary.map (Span.shift n)) (primary inner) (primary inner) := by
  constructor
  · intro stop stop' ts hts
    cases ts with
    | nil =>
        rw [List.map_nil, List.nil_append, primary_at_end inner hts.ends]
        exact (confined_unexpected _).framed hts
    | cons t ts =>
        have hrest : t.kind ≠ .semicolon → Sheltered n us stop stop' ts := fun hk =>
          @Sheltered.of_append n us [t] ts stop stop' hts (List.forall_mem_singleton.mpr hk)
        rcases primary_cons inner t with ⟨hk, p, hp, hconfined⟩ | hp
        · rw [hp t rfl, List.map_cons, List.cons_append, hp (t.shift n) rfl]
          exact (hconfined n us hinner).framed (hrest hk)
        · rw [hp t rfl, List.map_cons, List.cons_append, hp (t.shift n) rfl]
          exact (confined_unexpected _).framed hts
  · intro stop ts
    cases ts with
    | nil => exact ⟨[], rfl, .nil⟩
    | cons t ts =>
        rcases primary_cons inner t with ⟨hk, p, hp, hconfined⟩ | hp
        · obtain ⟨used, hts, hused⟩ := (hconfined n us hinner).spares stop ts
          rw [hp t rfl]
          exact ⟨t :: used, congrArg (t :: ·) hts, List.forall_mem_cons.mpr ⟨hk, hused⟩⟩
        · rw [hp t rfl]
          exact ⟨[], rfl, .nil⟩

theorem confined_exception :
    Confined n us (Option.map (Primary.map (Span.shift n))) (exception inner) (exception inner) := by
  refine (confined_accept (by decide) (by decide)).bind fun x => ?_
  cases x with
  | none => exact confined_pure none
  | some _ => exact (confined_primary hinner).bind fun p => confined_pure (some p)

theorem confined_factor :
    Confined n us (Factor.map (Span.shift n)) (factor inner) (factor inner) := by
  refine confined_here.bind fun start => confined_count.bind fun k =>
    (confined_primary hinner).bind fun p => (confined_exception hinner).bind fun x => ?_
  have hstop : ((x.map (Primary.map (Span.shift n))).getD (p.map (Span.shift n))).mark.stop
      = (x.getD p).mark.stop + n := by
    cases x with
    | none => exact congrArg Span.stop (Primary.mark_map _ p)
    | some q => exact congrArg Span.stop (Primary.mark_map _ q)
  rw [hstop]
  refine (confined_span _ _).bind fun m => ?_
  rw [id, ← Factor.map_mk]
  exact confined_pure _

theorem confined_term : Confined n us (Term.map (Span.shift n)) (term inner) (term inner) := by
  refine (confined_separated (confined_factor hinner) (by decide) (by decide)).bind fun x => ?_
  obtain ⟨f, fs⟩ := x
  have hjoin := joined_shift (Factor.mark_map (Span.shift n)) f fs
  show Confined n us _ _ (Pure.pure (Term.mk (_ : Span) _ _))
  rw [hjoin, ← Term.map_mk]
  exact confined_pure _

theorem confined_choice :
    Confined n us (Expression.map (Span.shift n)) (choice inner) (choice inner) := by
  refine (confined_separated (confined_term hinner) (by decide) (by decide)).bind fun x => ?_
  obtain ⟨t, ts⟩ := x
  have hjoin := joined_shift (Term.mark_map (Span.shift n)) t ts
  show Confined n us _ _ (Pure.pure (Expression.mk (_ : Span) _ _))
  rw [hjoin, ← Expression.map_mk]
  exact confined_pure _

end Inner

theorem confined_expression (depth : Nat) :
    Confined n us (Expression.map (Span.shift n)) (expression depth) (expression depth) := by
  induction depth with
  | zero => exact confined_choice fun p hp => nomatch hp
  | succ depth ih => exact confined_choice fun p hp => Option.some.inj hp ▸ ih

/-- **A rule is read alike in every frame**, if a semicolon stands in front of what follows. -/
theorem framed_rule : Framed n us (Rule.map (Span.shift n)) rule rule := by
  refine Framed.bind (confined_expect (by decide) (by decide)) fun name =>
    Framed.bind (confined_expect (by decide) (by decide)) fun _ =>
      Framed.bind (confined_expression maxNesting) fun body => framed_semicolon fun c => ?_
  have hjoin := Span.join_shift n name.span c.span
  show (⟨_, _, _, (name.span.shift n).join (c.span.shift n)⟩ : Rule Span) = _
  rw [hjoin]
  rfl

/-- A rule takes all tokens through a semicolon; where it fails, it takes none. -/
theorem closes_rule : Closes rule := by
  refine Closes.bind (spares_expect (by decide)) fun name =>
    Closes.bind (spares_expect (by decide)) fun _ =>
      Closes.bind (@confined_expression 0 [] maxNesting).spares fun body => closes_semicolon _

end Parser

end EbnfKit
