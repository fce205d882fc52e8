import Mathlib.Order.MinMax
import EbnfKit.Proofs.Clean

/-! # Numbering — spans counted in tokens

    Two texts that say the same differ in where they say it.  Counted in tokens instead of
    bytes, the places are the same: if trees have the same shape, their derivations take
    equally many pieces, and the number of the first and of the last piece under a node
    depends on nothing else:

      ts derives e,  us derives e',  e and e' of the same shape   imply
          e' with its spans counted in us  =  e with its spans counted in ts

    Counting keeps the order of spans that start and stop where tokens do. -/

namespace EbnfKit

variable {τ σ α β γ δ κ : Type}

/-! ## Derivations of the same shape -/

/-- The lists are equally long, and if their pieces have the same keys, the statement holds. -/
structure Alike (key : τ → κ) (key' : σ → κ) (ts : List τ) (us : List σ) (p : Prop) : Prop where
  length_eq : us.length = ts.length
  agree : us.map key' = ts.map key → p

namespace Alike

variable {key : τ → κ} {key' : σ → κ} {ts vs : List τ} {us ws : List σ} {p q : Prop}

theorem of_length_eq (h : us.length = ts.length) : Alike key key' ts us True :=
  ⟨h, fun _ => trivial⟩

theorem singleton (t : τ) (u : σ) : Alike key key' [t] [u] (key' u = key t) :=
  ⟨rfl, fun hkeys => (List.cons.inj hkeys).1⟩

theorem imp (h : Alike key key' ts us p) (hpq : p → q) : Alike key key' ts us q :=
  ⟨h.length_eq, fun hkeys => hpq (h.agree hkeys)⟩

theorem append (h : Alike key key' ts us p) (h' : Alike key key' vs ws q) :
    Alike key key' (ts ++ vs) (us ++ ws) (p ∧ q) := by
  refine ⟨by rw [List.length_append, List.length_append, h.length_eq, h'.length_eq],
    fun hkeys => ?_⟩
  rw [List.map_append, List.map_append] at hkeys
  obtain ⟨hfirst, hlast⟩ := List.append_inj hkeys
    (by rw [List.length_map, List.length_map, h.length_eq])
  exact ⟨h.agree hfirst, h'.agree hlast⟩

end Alike

/-- Items that take equally many pieces, and agree where those do, agree with separators
    between them. -/
theorem Separated.agree {separates : τ → Prop} {separates' : σ → Prop} {item : List τ → β → Prop}
    {item' : List σ → γ → Prop} {key : τ → κ} {key' : σ → κ} {shape : β → δ} {shape' : γ → δ}
    {g : β → α} {g' : γ → α} {ts : List τ} {xs : List β} (h : Separated separates item ts xs)
    (hitem : ∀ x ∈ xs, ∀ ts us y, item ts x → item' us y → shape' y = shape x →
      Alike key key' ts us (g' y = g x)) :
    ∀ {us : List σ} {ys : List γ}, Separated separates' item' us ys →
      ys.map shape' = xs.map shape → Alike key key' ts us (ys.map g' = xs.map g) := by
  induction h with
  | @one ts x hx =>
      intro us ys h' hshapes
      cases h' with
      | @one us y hy =>
          exact (hitem x List.mem_cons_self ts us y hx hy (List.cons.inj hshapes).1).imp
            (congrArg ([·]))
      | cons _ _ hrest => exact absurd (List.map_eq_nil_iff.mp (List.cons.inj hshapes).2) hrest.ne_nil
  | @cons ts x s vs xs hx hs hrest ih =>
      intro us ys h' hshapes
      cases h' with
      | one _ =>
          exact absurd (List.map_eq_nil_iff.mp (List.cons.inj hshapes).2.symm) hrest.ne_nil
      | @cons us y s' ws ys hy hs' hrest' =>
          obtain ⟨hshape, hothers⟩ := List.cons.inj hshapes
          have hfirst := hitem x List.mem_cons_self ts us y hx hy hshape
          have hlater := ih (fun z hz => hitem z (List.mem_cons_of_mem x hz)) hrest' hothers
          refine (hfirst.append ((Alike.singleton s s').append hlater)).imp ?_
          rintro ⟨hsame, -, hsames⟩
          rw [List.map_cons, List.map_cons, hsame, hsames]

/-- What may be missing agrees if its item does. -/
theorem Signed.agree {sign : τ → Prop} {sign' : σ → Prop} {item : List τ → β → Prop}
    {item' : List σ → γ → Prop} {key : τ → κ} {key' : σ → κ} {shape : β → δ} {shape' : γ → δ}
    {g : β → α} {g' : γ → α} {ts : List τ} {us : List σ} {x : Option β} {y : Option γ}
    (h : Signed sign item ts x) (h' : Signed sign' item' us y)
    (hitem : ∀ q ∈ x, ∀ ts us q', item ts q → item' us q' → shape' q' = shape q →
      Alike key key' ts us (g' q' = g q))
    (hshape : y.map shape' = x.map shape) : Alike key key' ts us (y.map g' = x.map g) := by
  cases h with
  | none =>
      cases h' with
      | none => exact ⟨rfl, fun _ => rfl⟩
      | some _ _ => cases hshape
  | @some s ts q _ hq =>
      cases h' with
      | none => cases hshape
      | @some s' us q' _ hq' =>
          have hitems := hitem q rfl ts us q' hq hq' (Option.some.inj hshape)
          exact ((Alike.singleton s s').append hitems).imp fun hsame => congrArg Option.some hsame.2

theorem Counted.length_eq {d : Reading τ α} {ts : List τ} {n : Option Nat} (h : Counted d ts n) :
    ts.length = (countLexemes n).length := by
  cases h <;> rfl

section Agree

/-- Nodes over pieces with the same keys have marks that agree. -/
structure Reading.Agrees (d : Reading τ α) (d' : Reading σ β) (key : τ → κ) (key' : σ → κ)
    (g : α → δ) (g' : β → δ) : Prop where
  marks : ∀ {ts us m m'}, us.map key' = ts.map key → ts ≠ [] → d.marks ts m → d'.marks us m' →
    g' m' = g m

variable {d : Reading τ α} {d' : Reading σ β} {key : τ → κ} {key' : σ → κ} {g : α → δ}
  {g' : β → δ}

/-- A node over pieces like those of another has a mark that agrees besides. -/
theorem Reading.Agrees.mark (hd : d.Agrees d' key key' g g') {ts : List τ} {us : List σ} {m : α}
    {m' : β} {p : Prop} (hm : d.marks ts m) (hm' : d'.marks us m') (hne : ts ≠ [])
    (h : Alike key key' ts us p) : Alike key key' ts us (g' m' = g m ∧ p) :=
  ⟨h.length_eq, fun hkeys => ⟨hd.marks hkeys hne hm hm', h.agree hkeys⟩⟩

/-- **Marks agree where pieces do**: derivations of the same shape take equally many pieces,
    and if these have the same keys, the nodes have marks that agree. -/
theorem marks_agree (hd : d.Agrees d' key key' g g') :
    Hereditary
      (fun e => ∀ ts us e', Expression.Derives d ts e → Expression.Derives d' us e' →
        e'.shape = e.shape → Alike key key' ts us (e'.map g' = e.map g))
      (fun t => ∀ ts us t', Term.Derives d ts t → Term.Derives d' us t' → t'.shape = t.shape →
        Alike key key' ts us (t'.map g' = t.map g))
      (fun f => ∀ ts us f', Factor.Derives d ts f → Factor.Derives d' us f' → f'.shape = f.shape →
        Alike key key' ts us (f'.map g' = f.map g))
      (fun p => ∀ ts us p', Primary.Derives d ts p → Primary.Derives d' us p' →
        p'.shape = p.shape → Alike key key' ts us (p'.map g' = p.map g)) where
  expression := by
    intro m t ts ih us vs e' h h' hshape
    have hne := derives_ne_nil.expressions _ us h
    obtain ⟨m', t', ts'⟩ := e'
    rw [Expression.shape_mk, Expression.shape_mk] at hshape
    obtain ⟨-, hfirst, hothers⟩ := Expression.mk.inj hshape
    cases h with
    | mk hsep hm =>
        cases h' with
        | mk hsep' hm' =>
            have hterms := hsep.agree ih hsep' (congrArg₂ List.cons hfirst hothers)
            refine (hd.mark hm hm' hne hterms).imp ?_
            rintro ⟨hmark, hsame⟩
            obtain ⟨ht, hts⟩ := List.cons.inj hsame
            rw [Expression.map_mk, Expression.map_mk, hmark, ht, hts]
  term := by
    intro m f fs ih us vs t' h h' hshape
    have hne := derives_ne_nil.terms _ us h
    obtain ⟨m', f', fs'⟩ := t'
    rw [Term.shape_mk, Term.shape_mk] at hshape
    obtain ⟨-, hfirst, hothers⟩ := Term.mk.inj hshape
    cases h with
    | mk hsep hm =>
        cases h' with
        | mk hsep' hm' =>
            have hfactors := hsep.agree ih hsep' (congrArg₂ List.cons hfirst hothers)
            refine (hd.mark hm hm' hne hfactors).imp ?_
            rintro ⟨hmark, hsame⟩
            obtain ⟨hf, hfs⟩ := List.cons.inj hsame
            rw [Term.map_mk, Term.map_mk, hmark, hf, hfs]
  factor := by
    intro m n p x hp hx ts us f' h h' hshape
    have hne := derives_ne_nil.factors _ ts h
    obtain ⟨m', n', p', x'⟩ := f'
    rw [Factor.shape_mk, Factor.shape_mk] at hshape
    obtain ⟨-, hcount, hprimary, hexception⟩ := Factor.mk.inj hshape
    subst hcount
    cases h with
    | @mk cs ps xs _ _ _ _ hc hps hxs hm =>
        cases h' with
        | @mk cs' ps' xs' _ _ _ _ hc' hps' hxs' hm' =>
            have hcounts : Alike key key' cs cs' True :=
              .of_length_eq (hc'.length_eq.trans hc.length_eq.symm)
            have hparts := (hcounts.append (hp ps ps' p' hps hps' hprimary)).append
              (hxs.agree hxs' hx hexception)
            refine (hd.mark hm hm' hne hparts).imp ?_
            rintro ⟨hmark, ⟨-, hprimaries⟩, hexceptions⟩
            rw [Factor.map_mk, Factor.map_mk, hmark, hprimaries, hexceptions]
  reference := by
    intro m n ts us p' h h' hshape
    cases h with
    | @reference t _ _ hm =>
        cases h' with
        | @reference t' _ _ hm' =>
            refine (hd.mark hm hm' (List.cons_ne_nil _ _) (.singleton t t')).imp ?_
            rintro ⟨hmark, -⟩
            obtain ⟨-, hname⟩ := Primary.reference.inj hshape
            rw [Primary.map, Primary.map, hmark, hname]
        | literal _ _ _ => cases hshape
        | bracketed _ _ _ => cases hshape
  literal := by
    intro m s q ts us p' h h' hshape
    cases h with
    | @literal t _ _ _ _ _ hm =>
        cases h' with
        | reference _ _ => cases hshape
        | @literal t' _ _ _ _ _ hm' =>
            refine (hd.mark hm hm' (List.cons_ne_nil _ _) (.singleton t t')).imp ?_
            rintro ⟨hmark, -⟩
            obtain ⟨-, htext, hquote⟩ := Primary.literal.inj hshape
            rw [Primary.map, Primary.map, hmark, htext, hquote]
        | bracketed _ _ _ => cases hshape
  bracketed := by
    intro m b e ih ts us p' h h' hshape
    cases h with
    | @bracketed o ws c _ _ _ _ he hm =>
        cases h' with
        | reference _ _ => cases hshape
        | literal _ _ _ => cases hshape
        | @bracketed o' ws' c' _ _ _ _ he' hm' =>
            obtain ⟨-, hbracket, hinner⟩ := Primary.bracketed.inj hshape
            have hparts := ((Alike.singleton o o').append (ih ws ws' _ he he' hinner)).append
              (.singleton c c')
            refine (hd.mark hm hm' (List.cons_ne_nil _ _) hparts).imp ?_
            rintro ⟨hmark, ⟨-, hsame⟩, -⟩
            rw [Primary.map, Primary.map, hmark, hbracket, hsame]

/-- Rules of the same shape agree in the same way. -/
theorem Rule.Derives.agree (hd : d.Agrees d' key key' g g') {ts : List τ} {us : List σ} {r : Rule α}
    {r' : Rule β} (h : Rule.Derives d ts r) (h' : Rule.Derives d' us r')
    (hshape : r'.shape = r.shape) : Alike key key' ts us (r'.map g' = r.map g) := by
  cases h with
  | @mk x s ws c nm e m _ _ he _ hnm hm =>
      cases h' with
      | @mk x' s' ws' c' nm' e' m' _ _ he' _ hnm' hm' =>
          obtain ⟨hname, -, hbody, -⟩ := Rule.mk.inj hshape
          have hnames := hd.mark hnm hnm' (List.cons_ne_nil _ _) (.singleton x x')
          have hbodies := (marks_agree hd).expressions e ws ws' e' he he' hbody
          have hparts := ((hnames.append (.singleton s s')).append hbodies).append (.singleton c c')
          refine (hd.mark hm hm' (List.cons_ne_nil _ _) hparts).imp ?_
          rintro ⟨hmark, ⟨⟨⟨hnameMark, -⟩, -⟩, hsame⟩, -⟩
          show Rule.mk (d'.text x') (g' nm') (e'.map g') (g' m') = ⟨d.text x, g nm, e.map g, g m⟩
          rw [show d'.text x' = d.text x from hname, hnameMark, hsame, hmark]

theorem Rule.DerivesAll.agree (hd : d.Agrees d' key key' g g') {ts : List τ} {rs : List (Rule α)}
    (h : Rule.DerivesAll d ts rs) : ∀ {us : List σ} {rs' : List (Rule β)},
      Rule.DerivesAll d' us rs' → rs'.map Rule.shape = rs.map Rule.shape →
      Alike key key' ts us (rs'.map (Rule.map g') = rs.map (Rule.map g)) := by
  induction h with
  | nil =>
      intro us rs' h' hshapes
      obtain rfl := List.map_eq_nil_iff.mp hshapes
      cases h'
      exact ⟨rfl, fun _ => rfl⟩
  | @cons ts r vs rs hr _ ih =>
      intro us rs' h' hshapes
      cases h' with
      | nil => cases hshapes
      | @cons ts' r' vs' rs' hr' hrs' =>
          obtain ⟨hshape, hothers⟩ := List.cons.inj hshapes
          refine ((hr.agree hd hr' hshape).append (ih hrs' hothers)).imp ?_
          rintro ⟨hsame, hsames⟩
          rw [List.map_cons, List.map_cons, hsame, hsames]

end Agree

/-! ## Counting in tokens -/

/-- What is counted besides makes the count larger. -/
theorem countP_lt_countP {p q : α → Bool} {as : List α} (h : ∀ a ∈ as, p a = true → q a = true)
    {a : α} (ha : a ∈ as) (hq : q a = true) (hp : p a = false) : as.countP p < as.countP q := by
  obtain ⟨bs, cs, rfl⟩ := List.append_of_mem ha
  have hbs := List.countP_mono_left fun b hb => h b (List.mem_append_left _ hb)
  have hcs := List.countP_mono_left fun c hc =>
    h c (List.mem_append_right bs (List.mem_cons_of_mem a hc))
  rw [List.countP_append, List.countP_append, List.countP_cons_of_pos hq,
    List.countP_cons_of_neg (by simp [hp])]
  omega

namespace Span

variable {ts us : List Token} {a b : Span}

/-- The span counted in tokens: how many of them start before it, and how many stop no later
    than it. -/
def countedIn (ts : List Token) (s : Span) : Span :=
  ⟨ts.countP fun t => t.span.start < s.start, ts.countP fun t => t.span.stop ≤ s.stop⟩

theorem monotone_starts (ts : List Token) :
    Monotone fun n => ts.countP fun t => t.span.start < n := fun _ _ h =>
  List.countP_mono_left fun _ _ ht => decide_eq_true (Nat.lt_of_lt_of_le (of_decide_eq_true ht) h)

theorem monotone_stops (ts : List Token) :
    Monotone fun n => ts.countP fun t => t.span.stop ≤ n := fun _ _ h =>
  List.countP_mono_left fun _ _ ht => decide_eq_true (Nat.le_trans (of_decide_eq_true ht) h)

/-- Counting respects what covers two spans. -/
theorem countedIn_join (ts : List Token) (a b : Span) :
    (a.join b).countedIn ts = (a.countedIn ts).join (b.countedIn ts) :=
  congrArg₂ Span.mk (monotone_starts ts).map_min (monotone_stops ts).map_max

/-- A token between others is counted by how many are in front of it. -/
theorem countedIn_token {t : Token} (h : Scanned (ts ++ t :: us)) :
    t.span.countedIn (ts ++ t :: us) = ⟨ts.length, ts.length + 1⟩ := by
  have hforward := h.forward t (List.mem_append_right ts List.mem_cons_self)
  have hbefore : ∀ u ∈ ts, u.span.start < t.span.start ∧ u.span.stop ≤ t.span.stop := by
    intro u hu
    have hle := h.stop_le_start hu List.mem_cons_self
    have hu' := h.forward u (List.mem_append_left _ hu)
    exact ⟨by omega, by omega⟩
  have hbehind : ∀ u ∈ us, t.span.start ≤ u.span.start ∧ t.span.stop < u.span.stop := by
    intro u hu
    have hle := (List.pairwise_cons.mp h.right.ordered).1 u hu
    have hu' := h.right.forward u (List.mem_cons_of_mem t hu)
    exact ⟨by omega, by omega⟩
  have hstart : ts.countP (fun u => u.span.start < t.span.start) = ts.length ∧
      us.countP (fun u => u.span.start < t.span.start) = 0 :=
    ⟨List.countP_eq_length.mpr fun u hu => by simpa using (hbefore u hu).1,
      List.countP_eq_zero.mpr fun u hu => by simpa using (hbehind u hu).1⟩
  have hstop : ts.countP (fun u => u.span.stop ≤ t.span.stop) = ts.length ∧
      us.countP (fun u => u.span.stop ≤ t.span.stop) = 0 :=
    ⟨List.countP_eq_length.mpr fun u hu => by simpa using (hbefore u hu).2,
      List.countP_eq_zero.mpr fun u hu => by simpa using (hbehind u hu).2⟩
  rw [countedIn, List.countP_append, List.countP_append, List.countP_cons, List.countP_cons,
    hstart.1, hstart.2, hstop.1, hstop.2]
  simp

/-- So the tokens of a text are counted as so many tokens of another. -/
theorem map_countedIn (hts : Scanned ts) (hus : Scanned us) (hlength : us.length = ts.length) :
    us.map (fun u => u.span.countedIn us) = ts.map fun t => t.span.countedIn ts := by
  refine List.ext_getElem (by simp [hlength]) fun i hi hi' => ?_
  have hplace : ∀ {vs : List Token} (_ : Scanned vs) (h : i < vs.length),
      vs[i].span.countedIn vs = ⟨i, i + 1⟩ := by
    intro vs hvs h
    have hsplit : vs.take i ++ vs[i] :: vs.drop (i + 1) = vs := by
      rw [List.getElem_cons_drop, List.take_append_drop]
    have hcount := @countedIn_token (vs.take i) (vs.drop (i + 1)) vs[i] (hsplit ▸ hvs)
    rw [hsplit, List.length_take, Nat.min_eq_left (Nat.le_of_lt h)] at hcount
    exact hcount
  rw [List.getElem_map, List.getElem_map, hplace hus, hplace hts]

/-- What spans several tokens is counted by the first and the last of them. -/
theorem countedIn_over {vs ws : List Token} (hvs : vs ≠ []) (hws : ws ≠ [])
    (h : ws.map (fun w => w.span.countedIn us) = vs.map fun v => v.span.countedIn ts) :
    (Span.over ws).countedIn us = (Span.over vs).countedIn ts := by
  have hhead : (ws.head hws).span.countedIn us = (vs.head hvs).span.countedIn ts := by
    have heads := congrArg List.head? h
    rw [List.head?_map, List.head?_map, List.head?_eq_some_head hws,
      List.head?_eq_some_head hvs] at heads
    exact Option.some.inj heads
  have hlast : (ws.getLast hws).span.countedIn us = (vs.getLast hvs).span.countedIn ts := by
    have lasts := congrArg List.getLast? h
    rw [List.getLast?_map, List.getLast?_map, List.getLast?_eq_some_getLast hws,
      List.getLast?_eq_some_getLast hvs] at lasts
    exact Option.some.inj lasts
  rw [countedIn, countedIn, over_start hws, over_start hvs, over_stop hws, over_stop hvs]
  exact congrArg₂ Span.mk (congrArg Span.start hhead) (congrArg Span.stop hlast)

/-- The span starts where one of the tokens does, and stops where one does. -/
structure Sits (ts : List Token) (s : Span) : Prop where
  start : ∃ t ∈ ts, t.span.start = s.start
  stop : ∃ t ∈ ts, t.span.stop = s.stop

/-- Tokens with others among them sit where the first of these starts and the last stops. -/
theorem sits_over {vs : List Token} (hvs : vs ≠ []) (hsub : vs.Sublist ts) :
    (Span.over vs).Sits ts :=
  ⟨⟨vs.head hvs, hsub.subset (List.head_mem hvs), (over_start hvs).symm⟩,
    ⟨vs.getLast hvs, hsub.subset (List.getLast_mem hvs), (over_stop hvs).symm⟩⟩

theorem Sits.countedIn_start_lt (ha : a.Sits ts) :
    (a.countedIn ts).start < (b.countedIn ts).start ↔ a.start < b.start := by
  constructor
  · intro h
    by_contra hle
    exact Nat.not_lt.mpr (monotone_starts ts (Nat.not_lt.mp hle)) h
  · intro h
    -- the token where `a` starts is counted for `b` only
    obtain ⟨t, ht, hstart⟩ := ha.start
    refine countP_lt_countP (fun u _ hu => ?_) ht ?_ ?_
    · exact decide_eq_true (Nat.lt_trans (of_decide_eq_true hu) h)
    · exact decide_eq_true (hstart ▸ h)
    · exact decide_eq_false (hstart ▸ Nat.lt_irrefl _)

theorem Sits.countedIn_stop_lt (hb : b.Sits ts) :
    (a.countedIn ts).stop < (b.countedIn ts).stop ↔ a.stop < b.stop := by
  constructor
  · intro h
    by_contra hle
    exact Nat.not_lt.mpr (monotone_stops ts (Nat.not_lt.mp hle)) h
  · intro h
    obtain ⟨t, ht, hstop⟩ := hb.stop
    refine countP_lt_countP (fun u _ hu => ?_) ht ?_ ?_
    · exact decide_eq_true (Nat.le_trans (of_decide_eq_true hu) (Nat.le_of_lt h))
    · exact decide_eq_true (Nat.le_of_eq hstop)
    · exact decide_eq_false (Nat.not_le.mpr (hstop ▸ h))

/-- **Counting keeps the order** of spans that sit on tokens. -/
theorem Sits.before_countedIn (ha : a.Sits ts) (hb : b.Sits ts) :
    (a.countedIn ts).before (b.countedIn ts) = a.before b ∧
      (a.countedIn ts = b.countedIn ts ↔ a = b) := by
  have hstarts := @Sits.countedIn_start_lt _ _ b ha
  have hstarts' := @Sits.countedIn_start_lt _ _ a hb
  have hstops := @Sits.countedIn_stop_lt _ a _ hb
  have hstops' := @Sits.countedIn_stop_lt _ b _ ha
  generalize a.countedIn ts = c at *
  generalize b.countedIn ts = d at *
  obtain ⟨astart, astop⟩ := a
  obtain ⟨bstart, bstop⟩ := b
  obtain ⟨cstart, cstop⟩ := c
  obtain ⟨dstart, dstop⟩ := d
  simp only at hstarts hstarts' hstops hstops'
  constructor
  · rw [Bool.eq_iff_iff]
    simp only [before, Bool.or_eq_true, Bool.and_eq_true, decide_eq_true_eq, beq_iff_eq]
    omega
  · simp only [Span.mk.injEq]
    omega

end Span

/-! ## Texts that say the same -/

/-- Marks counted in tokens agree where the tokens do. -/
theorem Reading.agrees_countedIn (ts us : List Token) :
    Reading.placed.Agrees .placed (fun t => t.span.countedIn ts) (fun u => u.span.countedIn us)
      (Span.countedIn ts) (Span.countedIn us) where
  marks := by
    intro vs ws m m' hkeys hvs hm hm'
    have hws : ws ≠ [] := by
      rintro rfl
      exact hvs (List.map_eq_nil_iff.mp hkeys.symm)
    rw [show m = Span.over vs from hm, show m' = Span.over ws from hm']
    exact Span.countedIn_over hvs hws hkeys

namespace Grammar

/-- **Rules of the same shapes stand at the same places**, counted in tokens. -/
theorem rules_countedIn {s s' : Text} (h : (parse s).diagnostics = [])
    (h' : (parse s').diagnostics = [])
    (hshapes : (parse s').rules.map Rule.shape = (parse s).rules.map Rule.shape) :
    (parse s').rules.map (Rule.map (Span.countedIn (significant s')))
      = (parse s).rules.map (Rule.map (Span.countedIn (significant s))) := by
  have halike := (derives_of_clean h).agree
    (Reading.agrees_countedIn (significant s) (significant s')) (derives_of_clean h') hshapes
  exact halike.agree (Span.map_countedIn (significant_scanned s) (significant_scanned s')
    halike.length_eq)

end Grammar

end EbnfKit
