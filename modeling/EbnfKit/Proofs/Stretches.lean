import Mathlib.Data.List.Chain
import EbnfKit.Proofs.Alternatives

/-! # Stretches — equal neighbours that cannot be made more

    A stretch of a list is made of equal neighbours, and the ones next to it on either side are
    different.  Two stretches of one list that share a place are the same, so a list is cut into
    its stretches in one way only:

      (i, n) a block of fs, printed alike   iff   (i, n) a stretch of the shapes of fs

    The runs of a term are its stretches of two factors or more, from left to right.  Any two
    equal neighbours are in one of them.  A report on one says how many factors it has, and its
    span is from where the first one starts to where the last one stops:

      `b` is repeated 3 times; write it once as `3 * b` -/

namespace EbnfKit

/-! ## Stretches of a list -/

/-- The `n` elements from the `i`-th on are equal, and those next to them are not. -/
structure Stretch {α : Type} (xs : List α) (i n : Nat) : Prop where
  filled : 0 < n
  fits : i + n ≤ xs.length
  alike : ∀ k, i ≤ k → k < i + n → xs[k]? = xs[i]?
  left : 0 < i → xs[i - 1]? ≠ xs[i]?
  right : xs[i + n]? ≠ xs[i]?

namespace Stretch

variable {α : Type} {xs : List α} {i j k m n : Nat}

/-- Two stretches that share a place begin together. -/
theorem start_le (h : Stretch xs i n) (h' : Stretch xs j m) (hi : i ≤ k ∧ k < i + n)
    (hj : j ≤ k ∧ k < j + m) : j ≤ i := by
  by_contra hlt
  have hbefore := h.alike (j - 1) (by omega) (by omega)
  have hown := h.alike j (by omega) (by omega)
  exact h'.left (by omega) (hbefore.trans hown.symm)

theorem stop_le (h : Stretch xs i n) (h' : Stretch xs j m) (hi : i ≤ k ∧ k < i + n)
    (hj : j ≤ k ∧ k < j + m) : j + m ≤ i + n := by
  by_contra hlt
  have hbehind := h'.alike (i + n) (by omega) (by omega)
  have hown := (h.alike k hi.1 hi.2).symm.trans (h'.alike k hj.1 hj.2)
  exact h.right (hbehind.trans hown.symm)

/-- **Two stretches that share a place are the same.** -/
theorem unique (h : Stretch xs i n) (h' : Stretch xs j m) (hi : i ≤ k ∧ k < i + n)
    (hj : j ≤ k ∧ k < j + m) : i = j ∧ n = m := by
  have h1 := h.start_le h' hi hj
  have h2 := h'.start_le h hj hi
  have h3 := h.stop_le h' hi hj
  have h4 := h'.stop_le h hj hi
  omega

/-- Equal elements between others are a stretch. -/
theorem of_split {as bs cs : List α} (hne : bs ≠ []) (halike : ∀ x ∈ bs, ∀ y ∈ bs, x = y)
    (hleft : ∀ a ∈ as.getLast?, ∀ b ∈ bs, a ≠ b) (hright : ∀ c ∈ cs.head?, ∀ b ∈ bs, c ≠ b) :
    Stretch (as ++ (bs ++ cs)) as.length bs.length := by
  obtain ⟨b, bs, rfl⟩ := List.exists_cons_of_ne_nil hne
  have hfirst : (as ++ (b :: bs ++ cs))[as.length]? = some b := by
    rw [List.getElem?_append_right (Nat.le_refl _), Nat.sub_self]
    rfl
  refine ⟨Nat.succ_pos _, ?_, fun k hk hlt => ?_, fun hpos => ?_, ?_⟩
  · rw [List.length_append, List.length_append]
    omega
  · have hlt' : k - as.length < (b :: bs).length := by omega
    rw [hfirst, List.getElem?_append_right hk, List.getElem?_append_left hlt',
      List.getElem?_eq_getElem hlt']
    exact congrArg some (halike _ (List.getElem_mem hlt') b List.mem_cons_self)
  · rw [hfirst, List.getElem?_append_left (Nat.sub_lt hpos Nat.one_pos), ← List.getLast?_eq_getElem?]
    exact fun hlast => hleft b hlast b List.mem_cons_self rfl
  · rw [hfirst, List.getElem?_append_right (Nat.le_add_right _ _), Nat.add_sub_cancel_left,
      List.getElem?_append_right (Nat.le_refl _), Nat.sub_self, ← List.head?_eq_getElem?]
    exact fun hhead => hright b hhead b List.mem_cons_self rfl

end Stretch

/-! ## Lists cut into blocks -/

/-- Where the blocks lie, one behind the other: where each begins, and how long it is. -/
def tiles {α : Type} (offset : Nat) : List (List α) → List (Nat × Nat)
  | [] => []
  | xs :: xss => (offset, xs.length) :: tiles (offset + xs.length) xss

section Tiles

variable {α β : Type} {offset : Nat} {xss : List (List α)}

theorem tiles_map (f : α → β) (offset : Nat) (xss : List (List α)) :
    tiles offset (xss.map (List.map f)) = tiles offset xss := by
  induction xss generalizing offset with
  | nil => rfl
  | cons xs xss ih => rw [List.map_cons, tiles, tiles, List.length_map, ih]

/-- A block lies behind those in front of it. -/
theorem exists_of_mem_tiles {i n : Nat} (h : (i, n) ∈ tiles offset xss) : ∃ front xs back,
    xss = front ++ xs :: back ∧ i = offset + front.flatten.length ∧ n = xs.length := by
  induction xss generalizing offset with
  | nil => cases h
  | cons ys xss ih =>
      rcases List.mem_cons.mp h with heq | h
      · obtain ⟨rfl, rfl⟩ := Prod.mk.inj heq
        exact ⟨[], ys, xss, rfl, rfl, rfl⟩
      · obtain ⟨front, xs, back, rfl, rfl, rfl⟩ := ih h
        refine ⟨ys :: front, xs, back, rfl, ?_, rfl⟩
        rw [List.flatten_cons, List.length_append, Nat.add_assoc]

theorem tiles_ascend (offset : Nat) (xss : List (List α)) :
    (tiles offset xss).Pairwise fun p q => p.1 + p.2 ≤ q.1 := by
  induction xss generalizing offset with
  | nil => exact List.Pairwise.nil
  | cons xs xss ih =>
      refine List.Pairwise.cons (fun q hq => ?_) (ih _)
      obtain ⟨front, ys, back, -, hstart, -⟩ := exists_of_mem_tiles hq
      rw [hstart]
      exact Nat.le_add_right _ _

/-- Every place lies in a block. -/
theorem tiles_cover {k : Nat} (h : offset ≤ k) (hk : k < offset + xss.flatten.length) :
    ∃ p ∈ tiles offset xss, p.1 ≤ k ∧ k < p.1 + p.2 := by
  induction xss generalizing offset with
  | nil => exact absurd hk (Nat.not_lt.mpr h)
  | cons xs xss ih =>
      by_cases hlt : k < offset + xs.length
      · exact ⟨(offset, xs.length), List.mem_cons_self, h, hlt⟩
      · rw [List.flatten_cons, List.length_append] at hk
        obtain ⟨p, hp, hcovers⟩ := @ih (offset + xs.length) (by omega) (by omega)
        exact ⟨p, List.mem_cons_of_mem _ hp, hcovers⟩

end Tiles

/-- No block is empty, the elements of one are equal, and those of neighbours are not. -/
structure Blocked {α : Type} (xss : List (List α)) : Prop where
  filled : ∀ xs ∈ xss, xs ≠ []
  alike : ∀ xs ∈ xss, ∀ x ∈ xs, ∀ y ∈ xs, x = y
  differ : xss.IsChain fun xs ys => ∀ x ∈ xs, ∀ y ∈ ys, x ≠ y

namespace Blocked

variable {α : Type} {xss : List (List α)}

/-- Blocks are stretches. -/
theorem stretch (h : Blocked xss) {i n : Nat} (hmem : (i, n) ∈ tiles 0 xss) :
    Stretch xss.flatten i n := by
  obtain ⟨front, xs, back, rfl, hi, rfl⟩ := exists_of_mem_tiles hmem
  have hxs : xs ∈ front ++ xs :: back := List.mem_append_right front List.mem_cons_self
  rw [hi, Nat.zero_add, List.flatten_append, List.flatten_cons]
  refine .of_split (h.filled xs hxs) (h.alike xs hxs) (fun a ha => ?_) fun c hc => ?_
  · -- what stands in front is the last element of the block in front
    rcases List.eq_nil_or_concat front with rfl | ⟨front, ys, rfl⟩
    · cases ha
    · rw [List.concat_eq_append] at h ha
      have hdiffer := h.differ
      rw [List.append_assoc, List.singleton_append, List.isChain_append_cons_cons] at hdiffer
      have hfilled := h.filled ys (List.mem_append_left _ (List.mem_append_right _ List.mem_cons_self))
      rw [List.flatten_append, List.flatten_singleton, List.getLast?_append_of_ne_nil _ hfilled] at ha
      exact hdiffer.2.1 a (List.mem_of_getLast? ha)
  · cases back with
    | nil => cases hc
    | cons ys back =>
        have hdiffer := h.differ
        rw [List.isChain_append_cons_cons] at hdiffer
        have hfilled := h.filled ys
          (List.mem_append_right _ (List.mem_cons_of_mem _ List.mem_cons_self))
        obtain ⟨y, ys, rfl⟩ := List.exists_cons_of_ne_nil hfilled
        obtain rfl : y = c := Option.some.inj hc
        exact fun b hb heq => hdiffer.2.1 b hb y List.mem_cons_self heq.symm

/-- **Blocks are all the stretches** there are. -/
theorem mem_tiles_iff (h : Blocked xss) {i n : Nat} :
    (i, n) ∈ tiles 0 xss ↔ Stretch xss.flatten i n := by
  refine ⟨h.stretch, fun hstretch => ?_⟩
  have hlt : i < 0 + xss.flatten.length := by
    have := hstretch.filled
    have := hstretch.fits
    omega
  obtain ⟨⟨j, m⟩, hmem, hj⟩ := tiles_cover (Nat.zero_le i) hlt
  obtain ⟨rfl, rfl⟩ := hstretch.unique (h.stretch hmem)
    ⟨Nat.le_refl i, Nat.lt_add_of_pos_right hstretch.filled⟩ hj
  exact hmem

/-- Equal neighbours are in one block of several elements. -/
theorem covered (h : Blocked xss) {k : Nat} (hk : k < xss.flatten.length)
    (heq : xss.flatten[k]? = xss.flatten[k + 1]?) : ∃! p,
      p ∈ (tiles 0 xss).filter (fun p => 1 < p.2) ∧ p.1 ≤ k ∧ k + 1 < p.1 + p.2 := by
  rw [← Nat.zero_add xss.flatten.length] at hk
  obtain ⟨⟨i, n⟩, hmem, hi, hlt⟩ := tiles_cover (Nat.zero_le k) hk
  have hstretch := h.stretch hmem
  -- the second one would be different if it were behind the block
  have hnext : k + 1 < i + n := by
    refine Nat.lt_of_le_of_ne hlt fun hstop => ?_
    have halike := hstretch.alike k hi hlt
    rw [heq, hstop] at halike
    exact hstretch.right halike
  have hseveral : 1 < n := by
    dsimp only at hi
    omega
  refine ⟨(i, n), ⟨List.mem_filter.mpr ⟨hmem, decide_eq_true hseveral⟩, hi, hnext⟩, ?_⟩
  rintro ⟨j, m⟩ ⟨hmem', hj, hlt'⟩
  have hstretch' := h.stretch (List.mem_filter.mp hmem').1
  obtain ⟨rfl, rfl⟩ := hstretch'.unique hstretch ⟨hj, Nat.lt_of_succ_lt hlt'⟩ ⟨hi, hlt⟩
  rfl

end Blocked

/-! ## Runs of a term -/

/-- The places of the runs of a term: its stretches of two equal factors or more, from left to
    right.  Two equal neighbours are in one of them. -/
structure Term.Repeats (t : Term Span) (places : List (Nat × Nat)) : Prop where
  stretches : ∀ i n, (i, n) ∈ places ↔ 1 < n ∧ Stretch (t.factors.map Factor.shape) i n
  ordered : places.Pairwise fun p q => p.1 + p.2 ≤ q.1
  covered : ∀ k f g, t.factors[k]? = some f → t.factors[k + 1]? = some g → f.shape = g.shape →
    ∃! p, p ∈ places ∧ p.1 ≤ k ∧ k + 1 < p.1 + p.2

/-- `n` times the factor, in brackets if it has a count or an exception of its own. -/
def Factor.times {α : Type} (f : Factor α) (n : Nat) : String :=
  match f.count, f.exception with
  | none, none => toString n ++ " * " ++ String.ofList f.render
  | _, _ => toString n ++ " * ( " ++ String.ofList f.render ++ " )"

/-- The report is on the factors from the `i`-th on, of which there are `n`: where the first one
    starts and the last one stops, and how to write them once. -/
def Term.Reports (t : Term Span) (d : Diagnostic) (place : Nat × Nat) : Prop :=
  ∃ f l, t.factors[place.1]? = some f ∧ t.factors[place.1 + place.2 - 1]? = some l ∧
    d = ⟨.simplifiableRepetition, ⟨f.mark.start, l.mark.stop⟩,
      "`" ++ String.ofList f.render ++ "` is repeated " ++ toString place.2
        ++ " times; write it once as `" ++ f.times place.2 ++ "`"⟩

namespace Run

/-- Blocks side by side are printed differently. -/
theorem blocks_differ (fs : List (Factor Span)) :
    (blocks fs).IsChain fun b c => b.1.render ≠ c.1.render := by
  induction fs with
  | nil => exact .nil
  | cons f fs ih =>
      rw [blocks]
      cases hb : blocks fs with
      | nil => exact .singleton _
      | cons b rest =>
          rw [hb] at ih
          by_cases heq : f.render = b.1.render
          · simp only [if_pos heq]
            -- the block begins with another factor, which is printed as the former one
            cases rest with
            | nil => exact .singleton _
            | cons c rest =>
                obtain ⟨hne, hrest⟩ := List.isChain_cons_cons.mp ih
                exact .cons_cons (fun hsame => hne (heq.symm.trans hsame)) hrest
          · simp only [if_neg heq]
            exact .cons_cons heq ih

/-- The run tells of the factors from the `i`-th on, with how many there are, from where the first
    one starts to where the last one stops. -/
def Tells (t : Term Span) (r : Run) (place : Nat × Nat) : Prop :=
  ∃ f l, t.factors[place.1]? = some f ∧ t.factors[place.1 + place.2 - 1]? = some l ∧
    r = ⟨f, place.2, ⟨f.mark.start, l.mark.stop⟩⟩

/-- A run is written once as so many times its factor. -/
theorem ofList_counted (r : Run) : String.ofList r.counted = r.factor.times r.count := by
  obtain ⟨⟨m, n, p, x⟩, count, span⟩ := r
  have hdigits : String.ofList (Text.ofNat count) = toString count := rfl
  have hbrackets : String.ofList (Text.ofNat count ++ [' ', '*', ' ', '(', ' ']
      ++ (Factor.mk m n p x).render ++ [' ', ')'])
      = toString count ++ " * ( " ++ String.ofList (Factor.mk m n p x).render ++ " )" := by
    rw [String.ofList_append, String.ofList_append, String.ofList_append, hdigits]
  cases n with
  | some k => exact hbrackets
  | none =>
      cases x with
      | some q => exact hbrackets
      | none =>
          show String.ofList (Text.ofNat count ++ [' ', '*', ' '] ++ _) = _
          rw [String.ofList_append, String.ofList_append, hdigits]
          rfl

/-- The report on a run is on what the run tells of. -/
theorem Tells.reports {t : Term Span} {r : Run} {place : Nat × Nat} (h : Tells t r place) :
    t.Reports (Check.repeatedRun r) place := by
  obtain ⟨f, l, hfirst, hlast, rfl⟩ := h
  refine ⟨f, l, hfirst, hlast, ?_⟩
  rw [Check.repeatedRun, ofList_counted]
  rfl

section Term

variable {t : Term Span} (hforward : ∀ f ∈ t.factors, f.mark.start < f.mark.stop)
  (hapart : t.factors.Pairwise fun f g => f.mark.stop ≤ g.mark.start)

include hforward hapart

/-- A block of several factors makes a run that tells of them. -/
theorem tells_of_block {front back : List (Factor Span)} {b : Factor Span × List (Factor Span)}
    (h : t.factors = front ++ (members b ++ back)) {r : Run} (hr : ofBlock? b = some r) :
    Tells t r (front.length, (members b).length) := by
  obtain ⟨f, fs⟩ := b
  obtain ⟨factor, count, span⟩ := r
  obtain ⟨-, hfactor, hcount, hspan⟩ := ofBlock?_eq_some_iff.mp hr
  have hlast : (f :: fs).getLast? = some (fs.getLast?.getD f) := List.getLast?_cons
  have hmembers : (f :: fs).Sublist t.factors := by
    rw [h]
    exact (List.sublist_append_left _ _).trans (List.sublist_append_right _ _)
  refine ⟨f, fs.getLast?.getD f, ?_, ?_, ?_⟩
  · rw [h, List.getElem?_append_right (Nat.le_refl _), Nat.sub_self]
    rfl
  · show t.factors[front.length + fs.length]? = _
    rw [h, List.getElem?_append_right (Nat.le_add_right _ _), Nat.add_sub_cancel_left,
      List.getElem?_append_left (Nat.lt_succ_self _)]
    exact List.getLast?_eq_getElem?.symm.trans hlast
  · have hjoin : f.mark.join (fs.getLast?.getD f).mark
        = ⟨f.mark.start, (fs.getLast?.getD f).mark.stop⟩ := by
      have hfirst := hforward f (hmembers.subset List.mem_cons_self)
      have hstop := hforward _ (hmembers.subset (List.mem_of_getLast? hlast))
      rcases List.mem_cons.mp (List.mem_of_getLast? hlast) with heq | hlater
      · rw [heq, Span.join, Nat.min_self, Nat.max_self]
      · have hbefore := (List.pairwise_cons.mp (hapart.sublist hmembers)).1 _ hlater
        rw [Span.join, Nat.min_eq_left (by omega), Nat.max_eq_right (by omega)]
    rw [hjoin] at hspan
    exact Run.mk.injEq .. ▸ ⟨hfactor, hcount, hspan⟩

/-- The blocks of a term make runs that tell of them, where they are of several factors. -/
theorem tells_of_blocks (bs : List (Factor Span × List (Factor Span))) :
    ∀ front, t.factors = front ++ bs.flatMap members →
      List.Forall₂ (Tells t) (bs.filterMap ofBlock?)
        ((tiles front.length (bs.map members)).filter fun p => 1 < p.2) := by
  induction bs with
  | nil => exact fun _ _ => .nil
  | cons b bs ih =>
      intro front h
      have hlater := ih (front ++ members b) (by rw [h, List.flatMap_cons, List.append_assoc])
      rw [List.length_append] at hlater
      rw [List.map_cons, tiles, List.filter_cons]
      cases hr : ofBlock? b with
      | none =>
          have hone : ¬1 < (members b).length := by
            intro hlt
            have hsome := (@ofBlock?_eq_some_iff b ⟨_, _, _⟩).mpr ⟨hlt, rfl, rfl, rfl⟩
            rw [hr] at hsome
            cases hsome
          rw [List.filterMap_cons_none hr, if_neg (mt of_decide_eq_true hone)]
          exact hlater
      | some r =>
          have hseveral := (ofBlock?_eq_some_iff.mp hr).1
          rw [List.filterMap_cons_some hr, if_pos (decide_eq_true hseveral)]
          exact .cons (tells_of_block hforward hapart h hr) hlater

end Term

end Run

/-! ## Texts -/

namespace Grammar

variable {s : Text}

/-- Factors that were read are printed alike exactly if they are equal but for marks. -/
theorem factor_render_eq_iff {f g : Factor Span} (hf : .factor f ∈ (parse s).nodes)
    (hg : .factor g ∈ (parse s).nodes) : f.render = g.render ↔ f.shape = g.shape := by
  constructor
  · exact fun h => Node.factor.inj (shape_eq_of_render hf hg rfl h)
  · intro h
    have hrender := congrArg Node.render (congrArg Node.factor h)
    rwa [show Node.factor f.shape = (Node.factor f).shape from rfl,
      show Node.factor g.shape = (Node.factor g).shape from rfl, Node.render_shape,
      Node.render_shape] at hrender

section Term

variable {t : Term Span} (ht : .term t ∈ (parse s).nodes)

include ht

/-- The blocks that the runs are made of are blocks of equal factors. -/
theorem blocked_blocks :
    Blocked (((Run.blocks t.factors).map Run.members).map (List.map Factor.shape)) := by
  have hmem : ∀ b ∈ Run.blocks t.factors, ∀ f ∈ Run.members b, .factor f ∈ (parse s).nodes := by
    intro b hb f hf
    refine mem_nodes_of_child ht (List.mem_map_of_mem ?_)
    rw [← Run.flatMap_members_blocks t.factors]
    exact List.mem_flatMap.mpr ⟨b, hb, hf⟩
  rw [List.map_map]
  refine ⟨?_, ?_, ?_⟩
  · exact List.forall_mem_map.mpr fun b _ => List.cons_ne_nil _ _
  · refine List.forall_mem_map.mpr fun b hb => List.forall_mem_map.mpr fun f hf =>
      List.forall_mem_map.mpr fun g hg => ?_
    refine (factor_render_eq_iff (hmem b hb f hf) (hmem b hb g hg)).mp ?_
    rw [Run.render_of_mem_blocks b hb f hf, Run.render_of_mem_blocks b hb g hg]
  · refine (List.isChain_map _).mpr ((Run.blocks_differ t.factors).imp_of_mem_imp ?_)
    intro b c hb hc hne x hx y hy heq
    obtain ⟨f, hf, rfl⟩ := List.mem_map.mp hx
    obtain ⟨g, hg, rfl⟩ := List.mem_map.mp hy
    have hrender := (factor_render_eq_iff (hmem b hb f hf) (hmem c hc g hg)).mpr heq
    rw [Run.render_of_mem_blocks b hb f hf, Run.render_of_mem_blocks c hc g hg] at hrender
    exact hne hrender

/-- **The runs of a term are its stretches of two equal factors or more**, from left to right. -/
theorem exists_repeats : ∃ places, t.Repeats places ∧
    List.Forall₂ (Run.Tells t) (Run.ofTerm t) places := by
  have hforward : ∀ f ∈ t.factors, f.mark.start < f.mark.stop := fun f hf =>
    (nests_of_mem (mem_nodes_of_child ht (List.mem_map_of_mem hf))).forward
  have hapart : t.factors.Pairwise fun f g => f.mark.stop ≤ g.mark.start :=
    List.pairwise_map.mp (nests_of_mem ht).apart
  have hblocked := blocked_blocks ht
  have hflatten : (((Run.blocks t.factors).map Run.members).map (List.map Factor.shape)).flatten
      = t.factors.map Factor.shape := by
    rw [← List.map_flatten, ← List.flatMap_def, Run.flatMap_members_blocks]
  have hplaces : ∀ i n, (i, n) ∈ tiles 0 ((Run.blocks t.factors).map Run.members) ↔
      Stretch (t.factors.map Factor.shape) i n := by
    intro i n
    rw [← tiles_map Factor.shape, hblocked.mem_tiles_iff, hflatten]
  refine ⟨_, ⟨fun i n => ?_, (tiles_ascend _ _).filter _, fun k f g hf hg heq => ?_⟩,
    Run.tells_of_blocks hforward hapart (Run.blocks t.factors) [] ?_⟩
  · rw [List.mem_filter, decide_eq_true_iff, and_comm]
    exact and_congr_right fun _ => hplaces i n
  · have hk : k < (t.factors.map Factor.shape).length := by
      rw [List.length_map]
      exact (List.getElem?_eq_some_iff.mp hf).1
    have hshapes : (t.factors.map Factor.shape)[k]? = (t.factors.map Factor.shape)[k + 1]? := by
      rw [List.getElem?_map, List.getElem?_map, hf, hg]
      exact congrArg some heq
    rw [← hflatten] at hk hshapes
    rw [← tiles_map Factor.shape]
    exact hblocked.covered hk hshapes
  · rw [Run.flatMap_members_blocks]
    rfl

end Term

/-- The terms of a text, each once. -/
theorem terms_nodup (s : Text) : ((parse s).nodes.filterMap Node.term?).Nodup := by
  refine List.pairwise_filterMap.mpr (((nodes_before s).imp Node.Before.apart).imp ?_)
  intro n n' hapart t ht t' ht' heq
  cases n <;> cases ht
  cases n' <;> cases ht'
  exact hapart rfl (congrArg (fun t : Term Span => t.mark.start) heq)

theorem mem_terms {g : Grammar} {t : Term Span} :
    t ∈ g.nodes.filterMap Node.term? ↔ .term t ∈ g.nodes := by
  rw [List.mem_filterMap]
  constructor
  · rintro ⟨n, hn, hsort⟩
    cases n <;> cases hsort
    exact hn
  · exact fun ht => ⟨_, ht, rfl⟩

/-- **The check for repetition is exact.**  It goes through the terms, at any depth and in
    exceptions too, each once, and reports of each the stretches of two equal factors or more,
    from left to right. -/
theorem repeatedRuns_exact (s : Text) :
    ∃ (ts : List (Term Span)) (reports : Term Span → List Diagnostic),
      ts.Nodup ∧ (∀ t, t ∈ ts ↔ (parse s).Holds (.term t)) ∧
      Check.repeatedRuns (parse s) = ts.flatMap reports ∧
      ∀ t ∈ ts, ∃ places, t.Repeats places ∧ List.Forall₂ t.Reports (reports t) places := by
  refine ⟨_, fun t => (Run.ofTerm t).map Check.repeatedRun, terms_nodup s, fun t => ?_, ?_,
    fun t ht => ?_⟩
  · rw [mem_terms, mem_nodes_iff_holds]
  · rw [Check.repeatedRuns, repeatedRuns, List.map_flatMap]
  · obtain ⟨places, hrepeats, htold⟩ := exists_repeats (mem_terms.mp ht)
    refine ⟨places, hrepeats, List.forall₂_map_left_iff.mpr ?_⟩
    exact htold.imp fun _ _ htells => htells.reports

/-- Two runs side by side in an exception, the second one up to a string in other quotes, and one
    of factors with exceptions, in brackets. -/
theorem repeatedRuns_excepted : ∃ (s : Text) (t : Term Span) (ds : List Diagnostic)
    (places : List (Nat × Nat)),
    s = "a = x - ( b, b, 'y', 'y', \"y\" ) | c, [ d - e, d-e, d - e ], c ;".toList ∧
    (parse s).Holds (.term t) ∧ t.mark = ⟨10, 29⟩ ∧ t.Repeats places ∧
    List.Forall₂ t.Reports ds places ∧ ds ⊆ Check.repeatedRuns (parse s) ∧
    (Check.repeatedRuns (parse s)).map (fun d => (d.span, d.message))
      = [(⟨10, 14⟩, "`b` is repeated 2 times; write it once as `2 * b`"),
        (⟨16, 24⟩, "`'y'` is repeated 2 times; write it once as `2 * 'y'`"),
        (⟨39, 56⟩, "`d - e` is repeated 3 times; write it once as `3 * ( d - e )`")] := by
  have hterm : ⟨10, 29⟩ ∈
      ((parse "a = x - ( b, b, 'y', 'y', \"y\" ) | c, [ d - e, d-e, d - e ], c ;".toList).nodes.filterMap
        Node.term?).map Term.mark := by
    decide +kernel
  obtain ⟨t, ht, hmark⟩ := List.mem_map.mp hterm
  obtain ⟨ts, reports, -, hheld, hall, hexact⟩ := repeatedRuns_exact
    "a = x - ( b, b, 'y', 'y', \"y\" ) | c, [ d - e, d-e, d - e ], c ;".toList
  have hholds := mem_nodes_iff_holds.mp (mem_terms.mp ht)
  obtain ⟨places, hrepeats, hreports⟩ := hexact t ((hheld t).mpr hholds)
  refine ⟨_, t, reports t, places, rfl, hholds, hmark, hrepeats, hreports, ?_, by decide +kernel⟩
  rw [hall]
  exact fun d hd => List.mem_flatMap.mpr ⟨t, (hheld t).mpr hholds, hd⟩

end Grammar

end EbnfKit
