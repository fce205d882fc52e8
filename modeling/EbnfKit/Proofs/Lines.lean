import Mathlib.Data.List.DropRight
import Mathlib.Order.Bounds.Basic
import EbnfKit.Text.LineIndex
import EbnfKit.Proofs.Editing

/-! # Lines — the position of every offset

    An offset stands for the last boundary `p` that is neither behind it nor behind the end
    of the text, and the text in front of `p` says where that is:

      line   = 1 + line feeds in front of p
      column = 1 + characters in front of p, back to the last line feed

    The index of a text finds it by bisection, for which the starts fall in three: those of
    the lines in front, the one of the line itself, and those behind `p`.  Nothing fails on
    the way and every number fits, for a text that is not as long as 32 bits can count.

    A position moves forward with every character, so boundaries in order have positions in
    order. -/

namespace EbnfKit

/-! ## Bytes -/

namespace Text

@[simp] theorem bytes_append (x y : Text) : (x ++ y).bytes = x.bytes ++ y.bytes :=
  List.flatMap_append

@[simp] theorem length_bytes (x : Text) : x.bytes.length = x.size := by
  induction x with
  | nil => rfl
  | cons c x ih =>
      show (String.utf8EncodeChar c ++ bytes x).length = c.utf8Size + size x
      rw [List.length_append, String.length_utf8EncodeChar, ih]

/-- Only a line feed has the byte of one in its encoding. -/
theorem lineFeed_mem_encoded {c : Char} :
    LineIndex.lineFeed ∈ String.utf8EncodeChar c ↔ c = '\n' := by
  have hfeed : ∀ n : Nat, LineIndex.lineFeed = UInt8.ofNat n ↔ n % 256 = 10 := by
    intro n
    rw [← UInt8.toNat_inj, UInt8.toNat_ofNat']
    exact eq_comm
  constructor
  · intro h
    simp only [String.utf8EncodeChar] at h
    split at h
    · -- one byte, which is the character itself
      rw [List.mem_singleton, hfeed] at h
      rw [← Char.val_inj, ← UInt32.toNat_inj]
      show c.val.toNat = 10
      omega
    · -- the bytes of a longer encoding are all above those of ASCII
      exfalso
      split at h
      · simp only [List.mem_cons, List.not_mem_nil, or_false, hfeed] at h
        omega
      split at h
      · simp only [List.mem_cons, List.not_mem_nil, or_false, hfeed] at h
        omega
      · simp only [List.mem_cons, List.not_mem_nil, or_false, hfeed] at h
        omega
  · rintro rfl
    decide

/-- The line feeds among the bytes are those among the characters. -/
theorem count_bytes (x : Text) : x.bytes.count LineIndex.lineFeed = x.count '\n' := by
  induction x with
  | nil => rfl
  | cons c x ih =>
      show (String.utf8EncodeChar c ++ bytes x).count LineIndex.lineFeed = _
      rw [List.count_append, ih]
      by_cases hc : c = '\n'
      · subst hc
        rw [List.count_cons_self, Nat.add_comm]
        rfl
      · rw [List.count_eq_zero.mpr (mt lineFeed_mem_encoded.mp hc), Nat.zero_add,
          List.count_cons_of_ne hc]

/-- The bytes in front of a boundary. -/
theorem take_bytes (x y : Text) : (x ++ y).bytes.take x.size = x.bytes := by
  rw [bytes_append, ← length_bytes x, List.take_left]

end Text

/-! ## Bisection -/

namespace LineIndex

variable {index : LineIndex}

/-- Bisection finds the place that parts the entries below `offset` from the others. -/
theorem lowerBound_eq {starts : Array Nat} {offset place : Nat}
    (hparts : ∀ (j : Nat) (hj : j < starts.size), starts[j] < offset ↔ j < place) (lo hi : Nat)
    (hhi : hi ≤ starts.size) (hle : lo ≤ place) (hge : place ≤ hi) :
    lowerBound starts offset lo hi hhi = place := by
  fun_induction lowerBound starts offset lo hi hhi with
  | case1 lo hi hhi hlt hmid hbelow ih =>
      have := (hparts _ hmid).mp hbelow
      exact ih (by omega) hge
  | case2 lo hi hhi hlt hmid hnot ih =>
      have := mt (hparts _ hmid).mpr hnot
      exact ih hle (by omega)
  | case3 lo hi hhi hnot => omega

section Entries

variable {before after : List Nat} {start offset : Nat}

/-- Every entry stands in front of a start, at it or behind it. -/
theorem entry_cases (hindex : index.starts = (before ++ start :: after).toArray)
    (hbefore : ∀ n ∈ before, n < start) (hafter : ∀ n ∈ after, offset < n) (j : Nat)
    (hj : j < index.starts.size) :
    (j < before.length ∧ index.starts[j] < start) ∨
      (j = before.length ∧ index.starts[j] = start) ∨
        (before.length < j ∧ offset < index.starts[j]) := by
  have hget : index.starts[j]? = (before ++ start :: after)[j]? := by
    rw [hindex, List.getElem?_toArray]
  rw [Array.getElem?_eq_getElem hj, List.getElem?_append] at hget
  split at hget
  · next hlt => exact Or.inl ⟨hlt, hbefore _ (List.mem_of_getElem? hget.symm)⟩
  · next hge =>
      cases hrest : j - before.length with
      | zero =>
          rw [hrest, List.getElem?_cons_zero] at hget
          exact Or.inr (Or.inl ⟨by omega, Option.some.inj hget⟩)
      | succ k =>
          rw [hrest, List.getElem?_cons_succ] at hget
          exact Or.inr (Or.inr ⟨by omega, hafter _ (List.mem_of_getElem? hget.symm)⟩)

/-- The line of an offset is the last one that starts no later. -/
theorem line?_eq (hindex : index.starts = (before ++ start :: after).toArray)
    (hbefore : ∀ n ∈ before, n < start) (hstart : start ≤ offset)
    (hafter : ∀ n ∈ after, offset < n) :
    index.line? offset = some before.length ∧ index.starts[before.length]? = some start := by
  have hentry := entry_cases hindex hbefore hafter
  have hline : index.starts[before.length]? = some start := by simp [hindex]
  have hsize : before.length < index.starts.size := by simp [hindex]
  refine ⟨?_, hline⟩
  by_cases hat : start = offset
  · -- the offset is a start itself, and found
    have hplace : lowerBound index.starts offset 0 index.starts.size (Nat.le_refl _)
        = before.length := by
      refine lowerBound_eq (fun j hj => ?_) _ _ _ (Nat.zero_le _) hsize.le
      have := hentry j hj
      omega
    rw [line?, search, hplace, if_pos (hat ▸ hline)]
  · -- it could be put in just behind the start
    have hplace : lowerBound index.starts offset 0 index.starts.size (Nat.le_refl _)
        = before.length + 1 := by
      refine lowerBound_eq (fun j hj => ?_) _ _ _ (Nat.zero_le _) hsize
      have := hentry j hj
      omega
    have hnot : index.starts[before.length + 1]? ≠ some offset := by
      intro hfound
      obtain ⟨hj, hvalue⟩ := Array.getElem?_eq_some_iff.mp hfound
      have := hentry _ hj
      omega
    rw [line?, search, hplace, if_neg hnot]

end Entries

/-! ## Starts -/

theorem behindFeeds_append (offset : Nat) (bs ds : List UInt8) :
    behindFeeds offset (bs ++ ds) = behindFeeds offset bs ++ behindFeeds (offset + bs.length) ds := by
  rw [behindFeeds, List.zipIdx_append, List.filter_append, List.map_append]
  rfl

theorem length_behindFeeds (offset : Nat) (bs : List UInt8) :
    (behindFeeds offset bs).length = bs.count lineFeed := by
  rw [behindFeeds, List.length_map, ← List.countP_eq_length_filter, List.count]
  conv_rhs => rw [← List.zipIdx_map_fst offset bs, List.countP_map]
  rfl

theorem behindFeeds_eq_nil {offset : Nat} {bs : List UInt8} (h : lineFeed ∉ bs) :
    behindFeeds offset bs = [] :=
  List.length_eq_zero_iff.mp ((length_behindFeeds offset bs).trans (List.count_eq_zero.mpr h))

/-- They lie behind where the bytes start, and no further than where these stop. -/
theorem bounds_of_mem_behindFeeds {offset n : Nat} {bs : List UInt8} (h : n ∈ behindFeeds offset bs) :
    offset < n ∧ n ≤ offset + bs.length := by
  obtain ⟨⟨b, i⟩, hb, rfl⟩ := List.mem_map.mp h
  obtain ⟨hle, hlt, -⟩ := List.mem_zipIdx (List.mem_filter.mp hb).1
  exact ⟨Nat.lt_succ_of_le hle, hlt⟩

theorem lineCount_ofText (s : Text) : (ofText s).lineCount = 1 + s.count '\n' := by
  show (0 :: behindFeeds 0 s.bytes).toArray.size = 1 + s.count '\n'
  rw [List.size_toArray, List.length_cons, length_behindFeeds, Text.count_bytes, Nat.add_comm]

end LineIndex

namespace Text

/-- The characters behind the last line feed. -/
def lastLine (x : Text) : Text :=
  x.rtakeWhile (· != '\n')

/-- The text through the last line feed. -/
def linesBefore (x : Text) : Text :=
  x.rdropWhile (· != '\n')

theorem linesBefore_append_lastLine (x : Text) : x.linesBefore ++ x.lastLine = x :=
  List.rdropWhile_append_rtakeWhile

theorem not_mem_lastLine (x : Text) : '\n' ∉ x.lastLine := by
  intro h
  simpa using List.mem_rtakeWhile_imp h

theorem linesBefore_cases (x : Text) : x.linesBefore = [] ∨ ∃ z, x.linesBefore = z ++ ['\n'] := by
  rcases List.eq_nil_or_concat x.linesBefore with hnil | ⟨z, c, hz⟩
  · exact Or.inl hnil
  · rw [List.concat_eq_append] at hz
    have hne : x.linesBefore ≠ [] := by simp [hz]
    have hlast : ¬(x.linesBefore.getLast hne != '\n') = true := List.rdropWhile_last_not _ x hne
    have hc : c = '\n' := by simpa [hz] using hlast
    exact Or.inr ⟨z, by rw [hz, hc]⟩

theorem length_le_size (x : Text) : x.length ≤ x.size := by
  induction x with
  | nil => exact Nat.le_refl 0
  | cons c x ih =>
      have := c.utf8Size_pos
      show x.length + 1 ≤ c.utf8Size + size x
      omega

end Text

namespace LineIndex

/-- The starts of the lines of a text, as seen from a boundary. -/
theorem starts_ofText (x y : Text) : ∃ before after,
    (ofText (x ++ y)).starts = (before ++ x.linesBefore.size :: after).toArray ∧
      before.length = x.count '\n' ∧ (∀ n ∈ before, n < x.linesBefore.size) ∧
      ∀ n ∈ after, x.size < n := by
  have hsplit := x.linesBefore_append_lastLine
  have hnone : lineFeed ∉ x.lastLine.bytes := by
    rw [← List.count_eq_zero, Text.count_bytes, List.count_eq_zero]
    exact x.not_mem_lastLine
  have hcount : x.linesBefore.count '\n' = x.count '\n' := by
    conv_rhs => rw [← hsplit]
    rw [List.count_append, List.count_eq_zero.mpr x.not_mem_lastLine, Nat.add_zero]
  -- the last line in front of the boundary has no start behind its own
  have hfeeds : behindFeeds 0 (x ++ y).bytes
      = behindFeeds 0 x.linesBefore.bytes ++ behindFeeds x.size y.bytes := by
    conv_lhs => rw [← hsplit]
    rw [Text.bytes_append, Text.bytes_append, behindFeeds_append, behindFeeds_append,
      behindFeeds_eq_nil hnone, List.append_nil, ← Text.bytes_append, hsplit, Text.length_bytes,
      Nat.zero_add]
  have hafter : ∀ n ∈ behindFeeds x.size y.bytes, x.size < n :=
    fun n hn => (bounds_of_mem_behindFeeds hn).1
  rcases x.linesBefore_cases with hnil | ⟨z, hz⟩
  · refine ⟨[], _, ?_, ?_, List.forall_mem_nil _, hafter⟩
    · rw [ofText, hfeeds, hnil]
      rfl
    · rw [← hcount, hnil]
      rfl
  · have hsize : x.linesBefore.size = z.size + 1 := by
      rw [hz, Text.size_append]
      rfl
    refine ⟨0 :: behindFeeds 0 z.bytes, _, ?_, ?_, ?_, hafter⟩
    · rw [ofText, hfeeds, hsize, hz, Text.bytes_append, behindFeeds_append, Text.length_bytes,
        Nat.zero_add, List.append_assoc]
      rfl
    · rw [List.length_cons, length_behindFeeds, Text.count_bytes, ← hcount, hz]
      simp
    · rw [hsize]
      refine List.forall_mem_cons.mpr ⟨Nat.succ_pos _, fun n hn => ?_⟩
      have := (bounds_of_mem_behindFeeds hn).2
      rw [Text.length_bytes] at this
      omega

/-- The line of a boundary, and where it starts. -/
theorem line?_ofText (x y : Text) : (ofText (x ++ y)).line? x.size = some (x.count '\n') ∧
    (ofText (x ++ y)).starts[x.count '\n']? = some x.linesBefore.size := by
  obtain ⟨before, after, hstarts, hlength, hbefore, hafter⟩ := starts_ofText x y
  have hle : x.linesBefore.size ≤ x.size := by
    conv_rhs => rw [← x.linesBefore_append_lastLine]
    rw [Text.size_append]
    exact Nat.le_add_right _ _
  rw [← hlength]
  exact line?_eq hstarts hbefore hle hafter

end LineIndex

/-! ## Boundaries -/

namespace Text

variable {s : Text}

/-- An offset stands for the last boundary that is neither behind it nor behind the end. -/
def StandsFor (s : Text) (offset p : Nat) : Prop :=
  IsGreatest {q | s.isBoundary q = true ∧ q ≤ min offset s.size} p

theorem floor?_isGreatest (s : Text) (n : Nat) : ∃ p, s.floor? n = some p ∧
    IsGreatest {q | s.isBoundary q = true ∧ q ≤ n} p := by
  induction n with
  | zero =>
      have hzero : s.isBoundary 0 = true := isBoundary_iff.mpr ⟨[], s, rfl, rfl⟩
      exact ⟨0, by rw [floor?, if_pos hzero], ⟨hzero, Nat.le_refl 0⟩, fun q hq => hq.2⟩
  | succ n ih =>
      by_cases hn : s.isBoundary (n + 1) = true
      · exact ⟨n + 1, by rw [floor?, if_pos hn], ⟨hn, Nat.le_refl _⟩, fun q hq => hq.2⟩
      · obtain ⟨p, hp, ⟨hboundary, hle⟩, hgreatest⟩ := ih
        refine ⟨p, by rw [floor?, if_neg hn, hp], ⟨hboundary, Nat.le_succ_of_le hle⟩, ?_⟩
        rintro q ⟨hq, hle⟩
        refine hgreatest ⟨hq, Nat.le_of_lt_succ (Nat.lt_of_le_of_ne hle ?_)⟩
        rintro rfl
        exact hn hq

/-- Every offset stands for some boundary. -/
theorem exists_standsFor (s : Text) (offset : Nat) : ∃ p, s.StandsFor offset p := by
  obtain ⟨p, -, hp⟩ := floor?_isGreatest s (min offset s.size)
  exact ⟨p, hp⟩

theorem StandsFor.floor? {offset p : Nat} (h : s.StandsFor offset p) :
    s.floor? (min offset s.size) = some p := by
  obtain ⟨q, hfloor, hq⟩ := floor?_isGreatest s (min offset s.size)
  rw [hfloor, hq.unique h]

/-- A boundary stands for itself. -/
theorem standsFor_self (x y : Text) : (x ++ y).StandsFor x.size x.size := by
  have hle : x.size ≤ min x.size (x ++ y).size := by
    rw [size_append]
    omega
  exact ⟨⟨isBoundary_iff.mpr ⟨x, y, rfl, rfl⟩, hle⟩, fun q hq => hq.2.trans (min_le_left _ _)⟩

end Text

/-! ## Positions -/

namespace Position

/-- The position just after `c`. -/
def after (p : Position) (c : Char) : Position :=
  if c = '\n' then ⟨p.line + 1, 1⟩ else ⟨p.line, p.column + 1⟩

/-- The position `n` bytes into the text, when the text begins at `p`. -/
def advance (p : Position) : Text → Nat → Position
  | [], _ => p
  | c :: cs, n =>
      if c.utf8Size ≤ n then advance (p.after c) cs (n - c.utf8Size) else p

/-- The position behind a text that begins at `p`. -/
def behind (p : Position) (x : Text) : Position :=
  x.foldl after p

/-- `p` is on an earlier line than `q`, or further in front on the same one. -/
def Before (p q : Position) : Prop :=
  p.line < q.line ∨ p.line = q.line ∧ p.column < q.column

theorem Before.trans {p q r : Position} (h : p.Before q) (h' : q.Before r) : p.Before r := by
  unfold Before at *
  omega

theorem Before.ne {p q : Position} (h : p.Before q) : p ≠ q := by
  rintro rfl
  unfold Before at h
  omega

/-- A position moves forward with every character. -/
theorem before_after (p : Position) (c : Char) : p.Before (p.after c) := by
  rw [after]
  by_cases hc : c = '\n'
  · rw [if_pos hc]
    exact Or.inl (Nat.lt_succ_self _)
  · rw [if_neg hc]
    exact Or.inr ⟨rfl, Nat.lt_succ_self _⟩

theorem before_behind {x : Text} (p : Position) (hx : x ≠ []) : p.Before (p.behind x) := by
  induction x generalizing p with
  | nil => exact absurd rfl hx
  | cons c x ih =>
      show p.Before ((p.after c).behind x)
      by_cases hrest : x = []
      · subst hrest
        exact p.before_after c
      · exact (p.before_after c).trans (ih (p.after c) hrest)

/-- The position behind a text counts its line feeds and what follows the last of them. -/
theorem behind_first (x : Text) :
    first.behind x = ⟨1 + x.count '\n', 1 + x.lastLine.length⟩ := by
  induction x using List.reverseRecOn with
  | nil => rfl
  | append_singleton x c ih =>
      have hstep : first.behind (x ++ [c]) = (first.behind x).after c := List.foldl_append
      rw [hstep, ih, after]
      by_cases hc : c = '\n'
      · simp [hc, Text.lastLine, Nat.add_assoc]
      · simp [hc, Text.lastLine, Nat.add_assoc]

/-- Advancing stops in front of the first character that does not fit. -/
theorem advance_append (p : Position) {x y : Text} {n : Nat} (hx : x.size ≤ n)
    (hy : ∀ c ∈ y.head?, n < x.size + c.utf8Size) : p.advance (x ++ y) n = p.behind x := by
  induction x generalizing p n with
  | nil =>
      cases y with
      | nil => rfl
      | cons c y =>
          have hlt : n < Text.size [] + c.utf8Size := hy c rfl
          have hsize : Text.size [] = 0 := rfl
          rw [List.nil_append, advance, if_neg (by omega)]
          rfl
  | cons c x ih =>
      have hsize : Text.size (c :: x) = c.utf8Size + Text.size x := rfl
      rw [List.cons_append, advance, if_pos (by omega)]
      refine ih (p.after c) (by omega) fun d hd => ?_
      have := hy d hd
      omega

end Position

/-- The position of a byte offset, found by going through the text in front of it. -/
def Text.position (cs : Text) (offset : Nat) : Position :=
  Position.first.advance cs offset

/-- Where an offset is, as seen from the boundary that it stands for. -/
theorem Text.StandsFor.position {x y : Text} {offset : Nat}
    (h : (x ++ y).StandsFor offset x.size) :
    (x ++ y).position offset = Position.first.behind x := by
  obtain ⟨⟨-, hle⟩, hgreatest⟩ := h
  refine Position.first.advance_append (hle.trans (min_le_left _ _)) fun c hc => ?_
  -- with one more character in front there would be a boundary further on
  by_contra hfits
  obtain ⟨z, rfl⟩ := List.head?_eq_some_iff.mp hc
  have hnext : (x ++ [c]).size = x.size + c.utf8Size := Text.size_append x [c]
  have hmem : (x ++ [c]).size ≤ x.size := by
    refine hgreatest ⟨Text.isBoundary_iff.mpr ⟨x ++ [c], z, by simp, rfl⟩, ?_⟩
    have hsize : (x ++ c :: z).size = x.size + (c.utf8Size + Text.size z) :=
      Text.size_append x (c :: z)
    omega
  have := c.utf8Size_pos
  omega

namespace LineIndex

theorem ordinal?_eq {n : Nat} (h : n + 1 < UInt32.size) : ordinal? n = some (1 + n) := by
  rw [ordinal?, Nat.mod_eq_of_lt (by omega), if_pos h, Nat.add_comm]

/-- Looking up an offset finds the position of the boundary that it stands for. -/
theorem position?_eq {x y : Text} {offset : Nat} (hs : (x ++ y).size < UInt32.size - 1)
    (h : (x ++ y).StandsFor offset x.size) :
    (ofText (x ++ y)).position? (x ++ y) offset = some (Position.first.behind x) := by
  obtain ⟨hline, hstart⟩ := line?_ofText x y
  have hslice : (x ++ y).slice? ⟨x.linesBefore.size, x.size⟩ = some x.lastLine := by
    have hslice := Text.slice?_append x.linesBefore x.lastLine y
    rwa [← List.append_assoc, ← Text.size_append, x.linesBefore_append_lastLine] at hslice
  -- no number is larger than the text
  have hsize : x.size ≤ (x ++ y).size := by
    rw [Text.size_append]
    exact Nat.le_add_right _ _
  have hlines : x.count '\n' ≤ x.size := List.count_le_length.trans x.length_le_size
  have hcolumn : x.lastLine.length ≤ x.size := by
    refine Nat.le_trans ?_ x.length_le_size
    conv_rhs => rw [← x.linesBefore_append_lastLine, List.length_append]
    exact Nat.le_add_left _ _
  rw [position?, h.floor?]
  show ((ofText (x ++ y)).line? x.size).bind _ = _
  rw [hline]
  show ((ofText (x ++ y)).starts[x.count '\n']?).bind _ = _
  rw [hstart]
  show ((x ++ y).slice? ⟨x.linesBefore.size, x.size⟩).bind _ = _
  rw [hslice]
  show (ordinal? (x.count '\n')).bind _ = _
  rw [ordinal?_eq (by omega)]
  show (ordinal? x.lastLine.length).bind _ = _
  rw [ordinal?_eq (by omega), Position.behind_first]
  rfl

/-- In a listing an offset is shown where its boundary is. -/
theorem position_eq {x y : Text} {offset : Nat} (hs : (x ++ y).size < UInt32.size - 1)
    (h : (x ++ y).StandsFor offset x.size) :
    (ofText (x ++ y)).position (x ++ y) offset = ⟨1 + x.count '\n', 1 + x.lastLine.length⟩ := by
  rw [position, position?_eq hs h, Position.behind_first]
  rfl

/-- Boundaries in order have positions in order. -/
theorem position?_before {s : Text} (hs : s.size < UInt32.size - 1) {p q : Nat}
    (hp : s.isBoundary p = true) (hq : s.isBoundary q = true) (hlt : p < q) :
    ∃ a b, (ofText s).position? s p = some a ∧ (ofText s).position? s q = some b ∧
      a.Before b := by
  obtain ⟨x, x', rfl, rfl⟩ := Text.isBoundary_iff.mp hp
  obtain ⟨y, y', hsplit, rfl⟩ := Text.isBoundary_iff.mp hq
  rcases List.append_eq_append_iff.mp hsplit with ⟨z, rfl, rfl⟩ | ⟨z, rfl, rfl⟩
  · have hz : z ≠ [] := by
      rintro rfl
      rw [List.append_nil] at hlt
      exact Nat.lt_irrefl _ hlt
    have hlater := Text.standsFor_self (x ++ z) y'
    rw [List.append_assoc] at hlater
    refine ⟨_, _, position?_eq hs (Text.standsFor_self x _), ?_, Position.before_behind _ hz⟩
    rw [← List.append_assoc] at hs hlater ⊢
    rw [position?_eq hs hlater, Position.behind, List.foldl_append]
    rfl
  · rw [Text.size_append] at hlt
    omega

/-- **Positions are exact and in order.**  Looking up never fails: an offset is on the line that
    the line feeds in front of its boundary make, as many characters behind the last of them as
    the column says, and that is its position.  Boundaries in order have positions in order, so
    different ones differ. -/
theorem positions_exact (s : Text) (hs : s.size < UInt32.size - 1) :
    (ofText s).lineCount = 1 + s.count '\n' ∧
      (∀ offset, ∃ p x y, s.StandsFor offset p ∧ s.cut? p = some (x, y) ∧
        (ofText s).position? s offset
          = some ⟨1 + (s.bytes.take p).count lineFeed, 1 + x.lastLine.length⟩ ∧
        (ofText s).position? s offset = some (s.position offset)) ∧
      (∀ p q, s.isBoundary p = true → s.isBoundary q = true → p < q →
        ∃ a b, (ofText s).position? s p = some a ∧ (ofText s).position? s q = some b ∧
          a.Before b) ∧
      ∀ p q, s.isBoundary p = true → s.isBoundary q = true →
        (ofText s).position? s p = (ofText s).position? s q → p = q := by
  refine ⟨?_, fun offset => ?_, fun p q => position?_before hs, fun p q hp hq heq => ?_⟩
  · exact lineCount_ofText s
  · obtain ⟨p, hp⟩ := s.exists_standsFor offset
    obtain ⟨x, y, rfl, rfl⟩ := Text.isBoundary_iff.mp hp.1.1
    refine ⟨_, x, y, hp, Text.cut?_append x y, ?_, ?_⟩
    · rw [position?_eq hs hp, Position.behind_first, Text.take_bytes, Text.count_bytes]
    · rw [position?_eq hs hp, hp.position]
  · -- of two boundaries that differ one comes first
    by_contra hne
    rcases Nat.lt_or_gt_of_ne hne with hlt | hlt
    · obtain ⟨a, b, ha, hb, hbefore⟩ := position?_before hs hp hq hlt
      exact hbefore.ne (Option.some.inj (ha.symm.trans (heq.trans hb)))
    · obtain ⟨a, b, ha, hb, hbefore⟩ := position?_before hs hq hp hlt
      exact hbefore.ne (Option.some.inj (ha.symm.trans (heq.symm.trans hb)))

/-- Inside a character of four bytes, which begins a line, and far behind an empty last line. -/
theorem positions_exact_inside_character : ∃ s : Text, s = "é\n😀x\n".toList ∧
    s.size < UInt32.size - 1 ∧ (ofText s).lineCount = 3 ∧
    (ofText s).position? s 5 = some ⟨2, 1⟩ ∧ (ofText s).position? s 100 = some ⟨3, 1⟩ ∧
    ∃ a b, (ofText s).position? s 3 = some a ∧ (ofText s).position? s 9 = some b ∧ a.Before b := by
  obtain ⟨hcount, hlookup, horder, -⟩ :=
    positions_exact "é\n😀x\n".toList (by decide +kernel)
  obtain ⟨-, -, -, -, -, -, hinside⟩ := hlookup 5
  obtain ⟨-, -, -, -, -, -, hbehind⟩ := hlookup 100
  refine ⟨_, rfl, by decide +kernel, hcount.trans (by decide +kernel), ?_, ?_,
    horder 3 9 (by decide +kernel) (by decide +kernel) (by decide)⟩
  · rw [hinside]
    decide +kernel
  · rw [hbehind]
    decide +kernel

end LineIndex

end EbnfKit
