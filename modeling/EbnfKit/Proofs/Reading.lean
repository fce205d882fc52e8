import EbnfKit.Proofs.Literals
import EbnfKit.Proofs.Placement

/-! # Reading — the readers against the grammar

    A reader is sound for a relation when whatever it takes off the front of the tokens
    stands in that relation to its value, and complete when it finds every value that
    does.  Completeness needs one look at what follows: a token that would continue what
    was read must not stand there.

      (expression n) reads e from ts      iff   ts derives e, brackets nest at most n deep
                                                in it, and all counts fit

    Problems that do not stop a reader are the same on both sides: one note for each
    string that is not closed. -/

namespace EbnfKit

namespace Reader

variable {α β : Type}

/-- `p` reads `a` off the front of `ts`, with these notes, and leaves `rest`. -/
def Reads (p : Reader α) (stop : Span) (ts : List Token) (notes : List Diagnostic) (a : α)
    (rest : List Token) : Prop :=
  ∃ backward, p stop ts = ⟨notes, backward, .ok a, rest⟩

variable {stop : Span} {ts rest : List Token} {notes : List Diagnostic}

theorem reads_pure {a b : α} :
    Reads (Pure.pure a) stop ts notes b rest ↔ notes = [] ∧ a = b ∧ ts = rest := by
  constructor
  · rintro ⟨backward, h⟩
    injection h with h1 h2 h3 h4
    exact ⟨h1.symm, Except.ok.inj h3, h4⟩
  · rintro ⟨rfl, rfl, rfl⟩
    exact ⟨[], rfl⟩

theorem reads_bind {p : Reader α} {f : α → Reader β} {b : β} :
    Reads (p >>= f) stop ts notes b rest ↔
      ∃ n a mid m, Reads p stop ts n a mid ∧ Reads (f a) stop mid m b rest ∧ notes = n ++ m := by
  have happly : (p >>= f) stop ts = Reader.bind p f stop ts := rfl
  constructor
  · rintro ⟨backward, h⟩
    rw [happly, Reader.bind] at h
    rcases hp : p stop ts with ⟨n, k, result, mid⟩
    rw [hp] at h
    cases result with
    | error e => injection h with _ _ h3 _; cases h3
    | ok a =>
        injection h with h1 h2 h3 h4
        refine ⟨n, a, mid, (f a stop mid).notes, ⟨k, hp⟩, ⟨(f a stop mid).backward, ?_⟩, h1.symm⟩
        rw [← h3, ← h4]
  · rintro ⟨n, a, mid, m, ⟨k, hp⟩, ⟨l, hf⟩, rfl⟩
    refine ⟨k ++ l, ?_⟩
    rw [happly, Reader.bind, hp]
    show Reply.mk (n ++ (f a stop mid).notes) (k ++ (f a stop mid).backward)
      (f a stop mid).result (f a stop mid).rest = _
    rw [hf]

theorem not_reads_fail {d : Diagnostic} {a : α} : ¬Reads (fail d) stop ts notes a rest := by
  rintro ⟨backward, h⟩
  injection h with _ _ h3 _
  cases h3

theorem not_reads_unexpected {expected : String} {a : α} :
    ¬Reads (unexpected expected) stop ts notes a rest := by
  rintro ⟨backward, h⟩
  injection h with _ _ h3 _
  cases h3

theorem reads_note {d : Diagnostic} :
    Reads (note d) stop ts notes () rest ↔ notes = [d] ∧ ts = rest := by
  constructor
  · rintro ⟨backward, h⟩
    injection h with h1 _ _ h4
    exact ⟨h1.symm, h4⟩
  · rintro ⟨rfl, rfl⟩
    exact ⟨[], rfl⟩

theorem reads_span {start finish : Nat} {s : Span} :
    Reads (span start finish) stop ts notes s rest ↔
      notes = [] ∧ s = ⟨start, finish⟩ ∧ ts = rest := by
  constructor
  · rintro ⟨backward, h⟩
    injection h with h1 _ h3 h4
    exact ⟨h1.symm, (Except.ok.inj h3).symm, h4⟩
  · rintro ⟨rfl, rfl, rfl⟩
    exact ⟨_, rfl⟩

theorem reads_here {s : Span} :
    Reads here stop ts notes s rest ↔
      notes = [] ∧ s = (ts.head?.map (·.span)).getD stop ∧ ts = rest := by
  constructor
  · rintro ⟨backward, h⟩
    injection h with h1 _ h3 h4
    exact ⟨h1.symm, (Except.ok.inj h3).symm, h4⟩
  · rintro ⟨rfl, rfl, rfl⟩
    exact ⟨_, rfl⟩

/-- The next token is not of the kind. -/
def NotNext (kind : TokenKind) (ts : List Token) : Prop :=
  ∀ t ∈ ts.head?, t.kind ≠ kind

theorem reads_accept {kind : TokenKind} {x : Option Token} :
    Reads (accept kind) stop ts notes x rest ↔ notes = [] ∧
      ((∃ t, x = some t ∧ t.kind = kind ∧ ts = t :: rest) ∨
        (x = none ∧ ts = rest ∧ NotNext kind ts)) := by
  constructor
  · rintro ⟨backward, h⟩
    cases ts with
    | nil =>
        injection h with h1 _ h3 h4
        exact ⟨h1.symm, Or.inr ⟨(Except.ok.inj h3).symm, h4, by intro t ht; cases ht⟩⟩
    | cons t ts =>
        rw [accept] at h
        by_cases hk : t.kind = kind
        · simp only [if_pos hk] at h
          injection h with h1 _ h3 h4
          exact ⟨h1.symm, Or.inl ⟨t, (Except.ok.inj h3).symm, hk, by rw [h4]⟩⟩
        · simp only [if_neg hk] at h
          injection h with h1 _ h3 h4
          refine ⟨h1.symm, Or.inr ⟨(Except.ok.inj h3).symm, h4, ?_⟩⟩
          intro u hu
          rw [← Option.some.inj hu]
          exact hk
  · rintro ⟨rfl, ⟨t, rfl, hk, rfl⟩ | ⟨rfl, rfl, hn⟩⟩
    · refine ⟨[], ?_⟩
      simp only [accept, if_pos hk]
    · refine ⟨[], ?_⟩
      cases ts with
      | nil => rfl
      | cons t ts => simp only [accept, if_neg (hn t rfl)]

theorem reads_expect {kind : TokenKind} {t : Token} :
    Reads (expect kind) stop ts notes t rest ↔ notes = [] ∧ t.kind = kind ∧ ts = t :: rest := by
  rw [expect, reads_bind]
  constructor
  · rintro ⟨n, x, mid, m, hx, ht, rfl⟩
    rcases reads_accept.mp hx with ⟨rfl, ⟨u, rfl, hk, rfl⟩ | ⟨rfl, -, -⟩⟩
    · obtain ⟨rfl, rfl, rfl⟩ := reads_pure.mp ht
      exact ⟨rfl, hk, rfl⟩
    · exact absurd ht not_reads_unexpected
  · rintro ⟨rfl, hk, rfl⟩
    exact ⟨[], some t, rest, [], reads_accept.mpr ⟨rfl, Or.inl ⟨t, rfl, hk, rfl⟩⟩,
      reads_pure.mpr ⟨rfl, rfl, rfl⟩, rfl⟩

/-- A value at the end is made of what was read. -/
theorem Reads.done {p : Reader α} {f : α → β} {a : α} (h : Reads p stop ts notes a rest) :
    Reads (p >>= fun a => Pure.pure (f a)) stop ts notes (f a) rest :=
  reads_bind.mpr ⟨notes, a, rest, [], h, reads_pure.mpr ⟨rfl, rfl, rfl⟩, (List.append_nil _).symm⟩

/-- Reading goes on behind a token of the kind. -/
theorem Reads.next {kind : TokenKind} {t : Token} {f : Option Token → Reader β} {b : β}
    (hk : t.kind = kind) (h : Reads (f (some t)) stop ts notes b rest) :
    Reads (accept kind >>= f) stop (t :: ts) notes b rest :=
  reads_bind.mpr ⟨[], some t, ts, notes, reads_accept.mpr ⟨rfl, Or.inl ⟨t, rfl, hk, rfl⟩⟩, h, rfl⟩

/-- Where there is none, it goes on at once. -/
theorem Reads.absent {kind : TokenKind} {f : Option Token → Reader β} {b : β}
    (hnot : NotNext kind ts) (h : Reads (f none) stop ts notes b rest) :
    Reads (accept kind >>= f) stop ts notes b rest :=
  reads_bind.mpr ⟨[], none, ts, notes, reads_accept.mpr ⟨rfl, Or.inr ⟨rfl, rfl, hnot⟩⟩, h, rfl⟩

theorem Reads.expected {kind : TokenKind} {t : Token} {f : Token → Reader β} {b : β}
    (hk : t.kind = kind) (h : Reads (f t) stop ts notes b rest) :
    Reads (expect kind >>= f) stop (t :: ts) notes b rest :=
  reads_bind.mpr ⟨[], t, ts, notes, reads_expect.mpr ⟨rfl, hk, rfl⟩, h, rfl⟩

/-! ## Soundness and completeness -/

/-- One note for each string that is not closed. -/
def openNotes (ts : List Token) : List Diagnostic :=
  ts.flatMap fun t =>
    if t.kind = .stringLiteral ∧ Lexeme.isClosed t.text = false then
      [Parser.unterminatedLiteral t.span (Quoted.ofText t.text).quote]
    else []

theorem openNotes_append (ts us : List Token) :
    openNotes (ts ++ us) = openNotes ts ++ openNotes us :=
  List.flatMap_append

theorem openNotes_cons {t : Token} (h : t.kind ≠ .stringLiteral) (ts : List Token) :
    openNotes (t :: ts) = openNotes ts := by
  rw [openNotes, List.flatMap_cons, if_neg (fun hc => h hc.1)]
  rfl

/-- What `p` reads off the front of scanned tokens is in the relation. -/
def Sound (p : Reader α) (r : List Token → α → Prop) : Prop :=
  ∀ stop ts notes a rest, Scanned ts → Reads p stop ts notes a rest →
    ∃ used, ts = used ++ rest ∧ notes = openNotes used ∧ r used a

/-- `p` reads whatever is in the relation, unless the next token would continue it. -/
def Complete (p : Reader α) (r : List Token → α → Prop) (continues : TokenKind → Prop) : Prop :=
  ∀ stop used a rest, Scanned used → r used a → (∀ t ∈ rest.head?, ¬continues t.kind) →
    Reads p stop (used ++ rest) (openNotes used) a rest

section Separated

variable {separator : TokenKind} {item : Reader α} {r : List Token → α → Prop}
  {continues : TokenKind → Prop}

/-- Further items begin with a separator, or there are none. -/
theorem others_sound (hitem : Sound item r) (hsep : separator ≠ .stringLiteral) (n : Nat) :
    ∀ stop ts notes xs rest, Scanned ts → Reads (others separator item n) stop ts notes xs rest →
      (xs = [] ∧ ts = rest ∧ notes = []) ∨
        ∃ s us, s.kind = separator ∧ ts = s :: us ++ rest ∧ notes = openNotes us ∧
          Separated (fun s => s.kind = separator) r us xs := by
  induction n with
  | zero =>
      intro stop ts notes xs rest _ h
      obtain ⟨h1, h2, h3⟩ := reads_pure.mp h
      exact Or.inl ⟨h2.symm, h3, h1⟩
  | succ n ih =>
      intro stop ts notes xs rest hts h
      rw [others, reads_bind] at h
      obtain ⟨n₁, x, mid, n₂, hx, hmore, rfl⟩ := h
      obtain ⟨rfl, hnext⟩ := reads_accept.mp hx
      rcases hnext with ⟨s, rfl, hs, rfl⟩ | ⟨rfl, rfl, -⟩
      · right
        obtain ⟨m₁, a, mid', m₂, ha, hlater, rfl⟩ := reads_bind.mp hmore
        obtain ⟨k₁, as, mid'', k₂, has, hpure, rfl⟩ := reads_bind.mp hlater
        obtain ⟨rfl, rfl, rfl⟩ := reads_pure.mp hpure
        obtain ⟨us, rfl, rfl, hr⟩ := hitem _ _ _ _ _ hts.tail ha
        -- the item is the last one, or another separator follows
        rcases ih _ _ _ _ _ hts.tail.right has with
          ⟨rfl, rfl, rfl⟩ | ⟨s', vs, hs', rfl, rfl, hvs⟩
        · refine ⟨s, us, hs, rfl, ?_, .one hr⟩
          simp
        · refine ⟨s, us ++ s' :: vs, hs, by simp, ?_, .cons hr hs' hvs⟩
          rw [openNotes_append, openNotes_cons (by rw [hs']; exact hsep)]
          simp
      · obtain ⟨rfl, rfl, rfl⟩ := reads_pure.mp hmore
        exact Or.inl ⟨rfl, rfl, rfl⟩

theorem separated_sound (hitem : Sound item r) (hsep : separator ≠ .stringLiteral) :
    Sound (separated separator item) fun ts x =>
      Separated (fun s => s.kind = separator) r ts (x.1 :: x.2) := by
  intro stop ts notes x rest hts h
  obtain ⟨n₁, a, mid, n₂, ha, hlater, rfl⟩ := reads_bind.mp h
  obtain ⟨m₁, as, mid', m₂, has, hpure, rfl⟩ := reads_bind.mp hlater
  obtain ⟨rfl, rfl, rfl⟩ := reads_pure.mp hpure
  obtain ⟨us, rfl, rfl, hr⟩ := hitem _ _ _ _ _ hts ha
  rcases others_sound hitem hsep _ _ _ _ _ _ hts.right has with
    ⟨rfl, rfl, rfl⟩ | ⟨s, vs, hs, rfl, rfl, hvs⟩
  · exact ⟨us, rfl, by simp, .one hr⟩
  · refine ⟨us ++ s :: vs, by simp, ?_, .cons hr hs hvs⟩
    rw [openNotes_append, openNotes_cons (by rw [hs]; exact hsep)]
    simp

theorem length_le_of_separated {ts : List Token} {xs : List α}
    (h : Separated (fun s => s.kind = separator) r ts xs) : xs.length ≤ ts.length + 1 := by
  induction h with
  | one _ => simp
  | cons _ _ _ ih => simp only [List.length_cons, List.length_append]; omega

/-- Without a separator in front there are no further items. -/
theorem reads_no_others (n : Nat) {stop : Span} {rest : List Token}
    (hnot : NotNext separator rest) : Reads (others separator item n) stop rest [] [] rest := by
  cases n with
  | zero => exact reads_pure.mpr ⟨rfl, rfl, rfl⟩
  | succ n =>
      rw [others]
      exact .absent hnot (reads_pure.mpr ⟨rfl, rfl, rfl⟩)

theorem others_complete (hitem : Complete item r continues) (hsep : separator ≠ .stringLiteral)
    (hend : ¬continues separator) {us : List Token} {xs : List α}
    (h : Separated (fun s => s.kind = separator) r us xs) :
    ∀ n stop s rest, xs.length ≤ n → s.kind = separator → Scanned us →
      NotNext separator rest → (∀ t ∈ rest.head?, ¬continues t.kind) →
      Reads (others separator item n) stop (s :: us ++ rest) (openNotes us) xs rest := by
  -- on the items: the fuel goes down with each of them
  induction h with
  | @one us x hr =>
      intro n stop s rest hn hs hus hnot hrest
      obtain ⟨n, rfl⟩ : ∃ k, n = k + 1 := ⟨n - 1, by simp only [List.length_singleton] at hn; omega⟩
      rw [others]
      refine .next hs (reads_bind.mpr ⟨_, _, _, [], hitem stop us x rest hus hr hrest, ?_, by simp⟩)
      exact (reads_no_others n hnot).done
  | @cons us x s' vs xs hr hs' _ ih =>
      intro n stop s rest hn hs hus hnot hrest
      obtain ⟨n, rfl⟩ : ∃ k, n = k + 1 := ⟨n - 1, by simp only [List.length_cons] at hn; omega⟩
      simp only [List.length_cons] at hn
      have hmore := ih n stop s' rest (by omega) hs' hus.right.tail hnot hrest
      have hsplit : s :: (us ++ s' :: vs) ++ rest = s :: (us ++ (s' :: vs ++ rest)) := by simp
      rw [others, hsplit]
      -- the next separator ends the item in front of it
      refine .next hs (reads_bind.mpr ⟨openNotes us, x, s' :: vs ++ rest, openNotes vs,
        hitem stop us x _ hus.left hr ?_, hmore.done, ?_⟩)
      · intro t ht
        rw [← Option.some.inj ht, hs']
        exact hend
      · rw [openNotes_append, openNotes_cons (by rw [hs']; exact hsep)]

theorem separated_complete (hitem : Complete item r continues) (hsep : separator ≠ .stringLiteral)
    (hend : ¬continues separator) :
    Complete (separated separator item)
      (fun ts x => Separated (fun s => s.kind = separator) r ts (x.1 :: x.2))
      (fun kind => continues kind ∨ kind = separator) := by
  rintro stop ts ⟨a, as⟩ rest hts h hrest
  have hnot : NotNext separator rest := fun t ht hk => hrest t ht (Or.inr hk)
  have hrest' : ∀ t ∈ rest.head?, ¬continues t.kind := fun t ht hk => hrest t ht (Or.inl hk)
  cases h with
  | one hr =>
      refine reads_bind.mpr ⟨openNotes ts, a, rest, [], hitem stop ts a rest hts hr hrest', ?_,
        by simp⟩
      have hlast : Reads (others separator item rest.length) stop rest [] [] rest :=
        reads_no_others _ hnot
      exact hlast.done
  | @cons us _ s vs _ hr hs hvs =>
      -- the fuel is the number of tokens, and every further item has a separator
      have hlen : as.length ≤ vs.length + 1 := length_le_of_separated hvs
      have hmore := others_complete hitem hsep hend hvs (s :: vs ++ rest).length stop s rest
        (by simp only [List.length_append, List.length_cons]; omega) hs hts.right.tail hnot hrest'
      rw [List.append_assoc]
      refine reads_bind.mpr ⟨openNotes us, a, s :: vs ++ rest, openNotes vs,
        hitem stop us a _ hts.left hr ?_, hmore.done, ?_⟩
      · intro t ht
        rw [← Option.some.inj ht, hs]
        exact hend
      · rw [openNotes_append, openNotes_cons (by rw [hs]; exact hsep)]

end Separated

end Reader

end EbnfKit
