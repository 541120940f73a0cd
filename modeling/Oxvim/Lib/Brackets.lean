import Mathlib.Data.List.Chain
import Mathlib.Tactic.Linarith

/-!
# Brackets

Some elements of a list open a span, some close one, and some split the span they stand in. The
depth of a position is the number of spans open before it. A stretch is nested when it closes what
it opens and splits nothing of what is around it; delimiters with a nested stretch between them are
linked, and a chain of links from an opening to a closing one is a group. A scan that counts the
depth finds what a delimiter is linked to (`scan_iff_linked`, `scanBack_iff_linked`), and in a nested
list every delimiter is in a group (`exists_group`).
-/

namespace Lib.Brackets

universe u

variable {α : Type u}

/-- Which elements open, close and split spans. -/
structure Delims (α : Type u) where
  opens : α → Bool
  closes : α → Bool
  splits : α → Bool
  opens_closes : ∀ x, opens x = true → closes x = false
  opens_splits : ∀ x, opens x = true → splits x = false
  closes_splits : ∀ x, closes x = true → splits x = false

namespace Delims

/-- The delimiters of the list read backward. -/
def swap (D : Delims α) : Delims α where
  opens := D.closes
  closes := D.opens
  splits := D.splits
  opens_closes := fun x h => by
    cases hx : D.opens x with
    | false => rfl
    | true =>
      rw [D.opens_closes x hx] at h
      cases h
  opens_splits := D.closes_splits
  closes_splits := D.opens_splits

/-- The same delimiters, but nothing splits. -/
def unsplit (D : Delims α) : Delims α where
  opens := D.opens
  closes := D.closes
  splits := fun _ => false
  opens_closes := D.opens_closes
  opens_splits := fun _ _ => rfl
  closes_splits := fun _ _ => rfl

end Delims

variable {D : Delims α} {w : List α} {i j k : Nat}

/-! ## Depth -/

/-- How an element changes the depth. -/
def delta (D : Delims α) (x : α) : Int :=
  if D.opens x then 1 else if D.closes x then -1 else 0

/-- The number of spans open before a position. -/
def depth (D : Delims α) (w : List α) (i : Nat) : Int := ((w.take i).map (delta D)).sum

theorem delta_opens {x : α} (h : D.opens x = true) : delta D x = 1 := if_pos h

theorem delta_closes {x : α} (h : D.closes x = true) : delta D x = -1 := by
  unfold delta
  rw [if_neg, if_pos h]
  intro hopens
  rw [D.opens_closes x hopens] at h
  cases h

theorem delta_splits {x : α} (h : D.splits x = true) : delta D x = 0 := by
  unfold delta
  rw [if_neg, if_neg]
  · intro hcloses
    rw [D.closes_splits x hcloses] at h
    cases h
  · intro hopens
    rw [D.opens_splits x hopens] at h
    cases h

theorem delta_swap (x : α) : delta D.swap x = -delta D x := by
  cases hopens : D.opens x with
  | true =>
    rw [delta_opens hopens]
    exact delta_closes (D := D.swap) hopens
  | false =>
    cases hcloses : D.closes x with
    | true =>
      rw [delta_closes hcloses]
      exact delta_opens (D := D.swap) hcloses
    | false => simp [delta, Delims.swap, hopens, hcloses]

@[simp] theorem depth_zero : depth D w 0 = 0 := rfl

theorem depth_cons (x : α) : depth D (x :: w) (i + 1) = delta D x + depth D w i := by
  unfold depth
  rw [List.take_succ_cons, List.map_cons, List.sum_cons]

theorem depth_succ {x : α} (h : w[i]? = some x) : depth D w (i + 1) = depth D w i + delta D x := by
  obtain ⟨hlt, rfl⟩ := List.getElem?_eq_some_iff.mp h
  unfold depth
  rw [List.take_succ_eq_append_getElem hlt, List.map_append, List.sum_append]
  simp

theorem depth_drop : depth D (w.drop i) j = depth D w (i + j) - depth D w i := by
  unfold depth
  rw [List.take_add, List.map_append, List.sum_append]
  omega

theorem depth_take (h : i ≤ j) : depth D (w.take j) i = depth D w i := by
  unfold depth
  rw [List.take_take, min_eq_left h]

/-- Reading backward, the depth before the last `j` elements. -/
theorem depth_reverse :
    depth D.swap w.reverse j = depth D w (w.length - j) - depth D w w.length := by
  have hneg : ∀ l : List α, (l.map (delta D.swap)).sum = -(l.map (delta D)).sum := by
    intro l
    induction l with
    | nil => rfl
    | cons x l ih =>
      rw [List.map_cons, List.sum_cons, ih, List.map_cons, List.sum_cons, delta_swap]
      omega
  have hsplit : depth D w w.length
      = depth D w (w.length - j) + ((w.drop (w.length - j)).map (delta D)).sum := by
    unfold depth
    rw [← List.sum_append, ← List.map_append, List.take_append_drop, List.take_length]
  rw [hsplit]
  unfold depth
  rw [hneg, List.take_reverse, List.map_reverse, List.sum_reverse]
  omega

/-! ## Nested stretches and links -/

/-- The elements from `i` up to `j` close what they open, and split only what they have opened. -/
structure Nested (D : Delims α) (w : List α) (i j : Nat) : Prop where
  depth_eq : depth D w j = depth D w i
  depth_le : ∀ k, i ≤ k → k ≤ j → depth D w i ≤ depth D w k
  split_lt : ∀ k x, i ≤ k → k < j → w[k]? = some x → D.splits x = true → depth D w i < depth D w k

/-- An element that begins a span or the next part of one. -/
def Begins (D : Delims α) (x : α) : Prop := D.opens x = true ∨ D.splits x = true

/-- An element that ends a span or a part of one. -/
def Ends (D : Delims α) (x : α) : Prop := D.closes x = true ∨ D.splits x = true

/-- The elements delimit a part of a span. -/
structure Linked (D : Delims α) (w : List α) (i j : Nat) : Prop where
  lt : i < j
  begins : ∃ x, w[i]? = some x ∧ Begins D x
  ends : ∃ x, w[j]? = some x ∧ Ends D x
  nested : Nested D w (i + 1) j

/-- All the delimiters of one span, in order. -/
structure IsGroup (D : Delims α) (w : List α) (group : List Nat) : Prop where
  chain : List.IsChain (Linked D w) group
  opens : ∃ i x, group.head? = some i ∧ w[i]? = some x ∧ D.opens x = true
  closes : ∃ i x, group.getLast? = some i ∧ w[i]? = some x ∧ D.closes x = true

/-! ## Scans -/

/-- Count the depth up to what closes or splits the span that is open at the start. -/
def scan (D : Delims α) : Nat → List α → Option Nat
  | _, [] => none
  | depth, x :: w =>
    if D.opens x then (scan D (depth + 1) w).map (· + 1)
    else if depth = 0 ∧ (D.closes x = true ∨ D.splits x = true) then some 0
    else if D.closes x then (scan D (depth - 1) w).map (· + 1)
    else (scan D depth w).map (· + 1)

/-- Where a scan that has opened `open` spans ends. -/
structure Found (D : Delims α) (d : Nat) (w : List α) (k : Nat) : Prop where
  ends : ∃ x, w[k]? = some x ∧ Ends D x
  depth_eq : depth D w k + d = 0
  depth_le : ∀ m, m ≤ k → 0 ≤ depth D w m + d
  split_lt : ∀ m x, m < k → w[m]? = some x → D.splits x = true → 0 < depth D w m + d

theorem found_cons {d d' : Nat} {x : α} (hd : (d' : Int) = d + delta D x)
    (hsplits : D.splits x = true → 0 < d) : Found D d (x :: w) (k + 1) ↔ Found D d' w k := by
  constructor
  · rintro ⟨hends, heq, hle, hlt⟩
    refine ⟨by simpa using hends, ?_, fun m hm => ?_, fun m y hm hy hsplit => ?_⟩
    · rw [depth_cons] at heq
      omega
    · have := hle (m + 1) (by omega)
      rw [depth_cons] at this
      omega
    · have := hlt (m + 1) y (by omega) (by simpa using hy) hsplit
      rw [depth_cons] at this
      omega
  · rintro ⟨hends, heq, hle, hlt⟩
    refine ⟨by simpa using hends, ?_, fun m hm => ?_, fun m y hm hy hsplit => ?_⟩
    · rw [depth_cons]
      omega
    · cases m with
      | zero => simp
      | succ m =>
        have := hle m (by omega)
        rw [depth_cons]
        omega
    · cases m with
      | zero =>
        obtain rfl : x = y := by simpa using hy
        have := hsplits hsplit
        simpa using this
      | succ m =>
        have := hlt m y (by omega) (by simpa using hy) hsplit
        rw [depth_cons]
        omega

theorem found_zero {d : Nat} {x : α} : Found D d (x :: w) 0 ↔ Ends D x ∧ d = 0 := by
  constructor
  · rintro ⟨⟨y, hy, hends⟩, heq, -, -⟩
    obtain rfl : x = y := by simpa using hy
    exact ⟨hends, by simpa using heq⟩
  · rintro ⟨hends, rfl⟩
    refine ⟨⟨x, rfl, hends⟩, by simp, fun m hm => ?_, fun m y hm => absurd hm (Nat.not_lt_zero m)⟩
    obtain rfl : m = 0 := by omega
    simp

theorem not_ends_of_opens {x : α} (h : D.opens x = true) : ¬Ends D x := by
  rintro (hcloses | hsplits)
  · rw [D.opens_closes x h] at hcloses
    cases hcloses
  · rw [D.opens_splits x h] at hsplits
    cases hsplits

theorem scan_eq_some_iff {d : Nat} : scan D d w = some k ↔ Found D d w k := by
  induction w generalizing d k with
  | nil =>
    refine iff_of_false (by simp [scan]) ?_
    rintro ⟨⟨x, hx, -⟩, -⟩
    simp at hx
  | cons x w ih =>
    -- An element that does not end the scan hands it on at the depth behind it.
    have hstep : ∀ d' : Nat, (d' : Int) = d + delta D x → (D.splits x = true → 0 < d) →
        ¬(Ends D x ∧ d = 0) → ((scan D d' w).map (· + 1) = some k ↔ Found D d (x :: w) k) := by
      intro d' hd hsplits hnot
      cases k with
      | zero =>
        rw [found_zero]
        refine iff_of_false ?_ hnot
        simp
      | succ k =>
        rw [found_cons hd hsplits, ← ih]
        simp
    rw [scan]
    split_ifs with hopens hend hcloses
    · refine hstep _ ?_ (fun hsplits => ?_) (fun h => not_ends_of_opens hopens h.1)
      · rw [delta_opens hopens]
        rfl
      · rw [D.opens_splits x hopens] at hsplits
        cases hsplits
    · obtain ⟨rfl, hends⟩ := hend
      cases k with
      | zero => exact iff_of_true rfl (found_zero.mpr ⟨hends, rfl⟩)
      | succ k =>
        refine iff_of_false (by simp) ?_
        rintro ⟨-, -, hle, hlt⟩
        rcases hends with hcloses | hsplits
        · have := hle 1 (by omega)
          rw [depth_succ (List.getElem?_cons_zero), delta_closes hcloses] at this
          simp at this
        · have := hlt 0 x (by omega) rfl hsplits
          simp at this
    · have hpos : d ≠ 0 := fun hzero => hend ⟨hzero, .inl hcloses⟩
      refine hstep _ ?_ (fun _ => by omega) (fun h => hpos h.2)
      rw [delta_closes hcloses]
      omega
    · refine hstep _ ?_ (fun hsplits => ?_) (fun h => hend ⟨h.2, h.1⟩)
      · unfold delta
        rw [if_neg hopens, if_neg hcloses]
        omega
      · by_contra hzero
        exact hend ⟨by omega, .inr hsplits⟩

/-- A scan that finds nothing has not closed more than it had opened. -/
theorem depth_le_of_scan_eq_none {d : Nat} (h : scan D d w = none) (m : Nat) :
    0 ≤ depth D w m + d := by
  induction w generalizing d m with
  | nil => simp [depth]
  | cons x w ih =>
    cases m with
    | zero => simp
    | succ m =>
      rw [depth_cons]
      rw [scan] at h
      split_ifs at h with hopens hend hcloses
      · have := ih (Option.map_eq_none_iff.mp h) m
        rw [delta_opens hopens]
        push_cast at this
        omega
      · have hpos : d ≠ 0 := fun hzero => hend ⟨hzero, .inl hcloses⟩
        have := ih (Option.map_eq_none_iff.mp h) m
        rw [delta_closes hcloses]
        omega
      · have := ih (Option.map_eq_none_iff.mp h) m
        unfold delta
        rw [if_neg hopens, if_neg hcloses]
        omega

/-! ## What scans find -/

/-- The scan forward from behind an element that begins a part ends at what it is linked to. -/
theorem scan_iff_linked {x : α} (hx : w[i]? = some x) (hbegins : Begins D x) :
    scan D 0 (w.drop (i + 1)) = some k ↔ Linked D w i (i + 1 + k) := by
  rw [scan_eq_some_iff]
  constructor
  · rintro ⟨⟨y, hy, hends⟩, heq, hle, hlt⟩
    rw [List.getElem?_drop] at hy
    rw [depth_drop] at heq
    refine ⟨by omega, ⟨x, hx, hbegins⟩, ⟨y, hy, hends⟩, by omega, fun m hm hmk => ?_,
      fun m z hm hmk hz hsplits => ?_⟩
    · obtain ⟨m, rfl⟩ := Nat.exists_eq_add_of_le hm
      have := hle m (by omega)
      rw [depth_drop] at this
      omega
    · obtain ⟨m, rfl⟩ := Nat.exists_eq_add_of_le hm
      have := hlt m z (by omega) (by rw [List.getElem?_drop, hz]) hsplits
      rw [depth_drop] at this
      omega
  · rintro ⟨-, -, ⟨y, hy, hends⟩, heq, hle, hlt⟩
    refine ⟨⟨y, by rw [List.getElem?_drop, hy], hends⟩, ?_, fun m hm => ?_,
      fun m z hm hz hsplits => ?_⟩
    · rw [depth_drop]
      omega
    · have := hle (i + 1 + m) (by omega) (by omega)
      rw [depth_drop]
      omega
    · rw [List.getElem?_drop] at hz
      have := hlt (i + 1 + m) z (by omega) (by omega) hz hsplits
      rw [depth_drop]
      omega

/-- The depth before the last `m` of the elements before `j`, read backward. -/
theorem depth_reverse_take {m : Nat} (hm : m ≤ j) (hj : j ≤ w.length) :
    depth D.swap (w.take j).reverse m = depth D w (j - m) - depth D w j := by
  have hlength : (w.take j).length = j := by rw [List.length_take, min_eq_left hj]
  rw [depth_reverse, hlength, depth_take (by omega), depth_take le_rfl]

theorem getElem?_reverse_take {m : Nat} (hm : m < j) (hj : j ≤ w.length) :
    (w.take j).reverse[m]? = w[j - 1 - m]? := by
  have hlength : (w.take j).length = j := by rw [List.length_take, min_eq_left hj]
  rw [List.getElem?_reverse (by omega), hlength, List.getElem?_take_of_lt (by omega)]

/-- The scan backward from before an element that ends a part ends at what is linked to it. -/
theorem scanBack_iff_linked {x : α} (hx : w[j]? = some x) (hends : Ends D x) (hk : k < j) :
    scan D.swap 0 (w.take j).reverse = some k ↔ Linked D w (j - 1 - k) j := by
  have hj : j ≤ w.length := (List.getElem?_eq_some_iff.mp hx).1.le
  rw [scan_eq_some_iff]
  constructor
  · rintro ⟨⟨y, hy, hbegins⟩, heq, hle, hlt⟩
    rw [getElem?_reverse_take hk hj] at hy
    rw [depth_reverse_take (by omega) hj] at heq
    refine ⟨by omega, ⟨y, hy, hbegins⟩, ⟨x, hx, hends⟩, ?_, fun m hm hmj => ?_,
      fun m z hm hmj hz hsplits => ?_⟩
    · have : j - 1 - k + 1 = j - k := by omega
      rw [this]
      omega
    · have := hle (j - m) (by omega)
      rw [depth_reverse_take (by omega) hj] at this
      have hback : j - (j - m) = m := by omega
      have hfirst : j - 1 - k + 1 = j - k := by omega
      rw [hback] at this
      rw [hfirst]
      omega
    · have hsplits' : D.swap.splits z = true := hsplits
      have hindex : j - 1 - (j - 1 - m) = m := by omega
      have := hlt (j - 1 - m) z (by omega) (by
        rw [getElem?_reverse_take (by omega) hj, hindex, hz]) hsplits'
      rw [depth_reverse_take (by omega) hj] at this
      have hback : j - (j - 1 - m) = m + 1 := by omega
      have hfirst : j - 1 - k + 1 = j - k := by omega
      rw [hback, depth_succ hz, delta_splits hsplits] at this
      rw [hfirst]
      omega
  · rintro ⟨-, ⟨y, hy, hbegins⟩, -, heq, hle, hlt⟩
    have hfirst : j - 1 - k + 1 = j - k := by omega
    rw [hfirst] at heq hle hlt
    refine ⟨⟨y, by rw [getElem?_reverse_take hk hj, hy], hbegins⟩, ?_, fun m hm => ?_,
      fun m z hm hz hsplits => ?_⟩
    · rw [depth_reverse_take (by omega) hj]
      omega
    · have := hle (j - m) (by omega) (by omega)
      rw [depth_reverse_take (by omega) hj]
      omega
    · rw [getElem?_reverse_take (by omega) hj] at hz
      have := hlt (j - 1 - m) z (by omega) (by omega) hz hsplits
      have hback : j - m = j - 1 - m + 1 := by omega
      have hdelta : delta D z = 0 := delta_splits hsplits
      rw [depth_reverse_take (by omega) hj, hback, depth_succ hz, hdelta]
      omega

theorem Linked.right_unique {j' : Nat} (h : Linked D w i j) (h' : Linked D w i j') : j = j' := by
  obtain ⟨x, hx, hbegins⟩ := h.begins
  have hlt := h.lt
  have hlt' := h'.lt
  obtain ⟨m, rfl⟩ := Nat.exists_eq_add_of_le (show i + 1 ≤ j from hlt)
  obtain ⟨m', rfl⟩ := Nat.exists_eq_add_of_le (show i + 1 ≤ j' from hlt')
  have hscan := (scan_iff_linked hx hbegins).mpr h
  rw [(scan_iff_linked hx hbegins).mpr h'] at hscan
  rw [Option.some.inj hscan]

theorem Linked.left_unique {i' : Nat} (h : Linked D w i j) (h' : Linked D w i' j) : i = i' := by
  obtain ⟨x, hx, hends⟩ := h.ends
  have hlt := h.lt
  have hlt' := h'.lt
  have hindex : j - 1 - (j - 1 - i) = i := by omega
  have hindex' : j - 1 - (j - 1 - i') = i' := by omega
  have hscan := (scanBack_iff_linked (k := j - 1 - i) hx hends (by omega)).mpr (by rwa [hindex])
  have hscan' := (scanBack_iff_linked (k := j - 1 - i') hx hends (by omega)).mpr (by rwa [hindex'])
  rw [hscan'] at hscan
  have := Option.some.inj hscan
  omega

/-! ## Groups -/

/-- In a nested list, a span is open behind what begins a part of it. -/
theorem Nested.depth_pos_of_begins {x : α} (h : Nested D w 0 w.length) (hx : w[i]? = some x)
    (hbegins : Begins D x) : 0 < depth D w (i + 1) := by
  have hlt := (List.getElem?_eq_some_iff.mp hx).1
  rw [depth_succ hx]
  rcases hbegins with hopens | hsplits
  · have := h.depth_le i (Nat.zero_le i) hlt.le
    rw [delta_opens hopens]
    rw [depth_zero] at this
    omega
  · have := h.split_lt i x (Nat.zero_le i) hlt hx hsplits
    rw [delta_splits hsplits]
    rw [depth_zero] at this
    omega

/-- In a nested list, a span is open before what ends a part of it. -/
theorem Nested.depth_pos_of_ends {x : α} (h : Nested D w 0 w.length) (hx : w[i]? = some x)
    (hends : Ends D x) : 0 < depth D w i := by
  have hlt := (List.getElem?_eq_some_iff.mp hx).1
  rcases hends with hcloses | hsplits
  · have := h.depth_le (i + 1) (Nat.zero_le _) hlt
    rw [depth_succ hx, delta_closes hcloses, depth_zero] at this
    omega
  · have := h.split_lt i x (Nat.zero_le i) hlt hx hsplits
    rw [depth_zero] at this
    omega

theorem Nested.exists_linked_right {x : α} (h : Nested D w 0 w.length) (hx : w[i]? = some x)
    (hbegins : Begins D x) : ∃ j, Linked D w i j := by
  have hpos := h.depth_pos_of_begins hx hbegins
  have hlt := (List.getElem?_eq_some_iff.mp hx).1
  cases hscan : scan D 0 (w.drop (i + 1)) with
  | some k => exact ⟨_, (scan_iff_linked hx hbegins).mp hscan⟩
  | none =>
    -- The span would be open at the end of the list.
    have hle := depth_le_of_scan_eq_none hscan (w.length - (i + 1))
    have hend : i + 1 + (w.length - (i + 1)) = w.length := by omega
    rw [depth_drop, hend, h.depth_eq, depth_zero] at hle
    omega

theorem Nested.exists_linked_left {x : α} (h : Nested D w 0 w.length) (hx : w[j]? = some x)
    (hends : Ends D x) : ∃ i, Linked D w i j := by
  have hpos := h.depth_pos_of_ends hx hends
  have hlt := (List.getElem?_eq_some_iff.mp hx).1
  cases hscan : scan D.swap 0 (w.take j).reverse with
  | some k =>
    obtain ⟨⟨y, hy, -⟩, -⟩ := scan_eq_some_iff.mp hscan
    have hk := (List.getElem?_eq_some_iff.mp hy).1
    rw [List.length_reverse, List.length_take] at hk
    exact ⟨_, (scanBack_iff_linked hx hends (by omega)).mp hscan⟩
  | none =>
    -- The span would be open at the start of the list.
    have hle := depth_le_of_scan_eq_none hscan j
    rw [depth_reverse_take le_rfl hlt.le, Nat.sub_self, depth_zero] at hle
    omega

/-- From what begins a part, links lead to what closes the span. -/
theorem Nested.exists_chain_right {x : α} (h : Nested D w 0 w.length) (hx : w[i]? = some x)
    (hbegins : Begins D x) : ∃ group, List.IsChain (Linked D w) (i :: group) ∧
      ∃ j y, (i :: group).getLast? = some j ∧ w[j]? = some y ∧ D.closes y = true := by
  induction hn : w.length - i using Nat.strong_induction_on generalizing i x with
  | _ n ih =>
    obtain ⟨j, hlink⟩ := h.exists_linked_right hx hbegins
    obtain ⟨y, hy, hends⟩ := hlink.ends
    have hlt := hlink.lt
    have hltLength := (List.getElem?_eq_some_iff.mp hy).1
    rcases hends with hcloses | hsplits
    · exact ⟨[j], by simpa using hlink, j, y, rfl, hy, hcloses⟩
    · obtain ⟨group, hchain, hlast⟩ := ih (w.length - j) (by omega) hy (.inr hsplits) rfl
      refine ⟨j :: group, List.isChain_cons_cons.mpr ⟨hlink, hchain⟩, ?_⟩
      rwa [List.getLast?_cons_cons]

/-- To what ends a part, links lead from what opens the span. -/
theorem Nested.exists_chain_left {x : α} (h : Nested D w 0 w.length) (hx : w[j]? = some x)
    (hends : Ends D x) : ∃ group, List.IsChain (Linked D w) (group ++ [j]) ∧
      ∃ i y, (group ++ [j]).head? = some i ∧ w[i]? = some y ∧ D.opens y = true := by
  induction j using Nat.strong_induction_on generalizing x with
  | _ j ih =>
    obtain ⟨i, hlink⟩ := h.exists_linked_left hx hends
    obtain ⟨y, hy, hbegins⟩ := hlink.begins
    rcases hbegins with hopens | hsplits
    · exact ⟨[i], by simpa using hlink, i, y, rfl, hy, hopens⟩
    · obtain ⟨group, hchain, k, z, hhead, hz, hopens⟩ := ih i hlink.lt hy (.inr hsplits)
      refine ⟨group ++ [i], ?_, k, z, ?_, hz, hopens⟩
      · rw [List.append_assoc, List.singleton_append]
        rw [List.isChain_append] at hchain ⊢
        refine ⟨hchain.1, by simpa using hlink, fun a ha b hb => hchain.2.2 a ha b ?_⟩
        simpa using hb
      · rw [List.head?_append, hhead]
        rfl

/-- In a nested list every delimiter belongs to a group. -/
theorem Nested.exists_group {x : α} (h : Nested D w 0 w.length) (hx : w[i]? = some x)
    (hdelim : Begins D x ∨ Ends D x) : ∃ group, IsGroup D w group ∧ i ∈ group := by
  cases hopens : D.opens x with
  | true =>
    obtain ⟨group, hchain, hlast⟩ := h.exists_chain_right hx (.inl hopens)
    exact ⟨i :: group, ⟨hchain, ⟨i, x, rfl, hx, hopens⟩, hlast⟩, List.mem_cons_self⟩
  | false =>
    have hends : Ends D x := by
      rcases hdelim with (h' | hsplits) | hends
      · rw [h'] at hopens
        cases hopens
      · exact .inr hsplits
      · exact hends
    obtain ⟨before, hbefore, hhead⟩ := h.exists_chain_left hx hends
    cases hcloses : D.closes x with
    | true =>
      refine ⟨before ++ [i], ⟨hbefore, hhead, i, x, ?_, hx, hcloses⟩, by simp⟩
      rw [List.getLast?_append]
      rfl
    | false =>
      have hsplits : D.splits x = true := by
        rcases hends with h' | hsplits
        · rw [h'] at hcloses
          cases hcloses
        · exact hsplits
      obtain ⟨behind, hbehind, j, y, hlast, hy, hcloses⟩ := h.exists_chain_right hx (.inr hsplits)
      refine ⟨before ++ i :: behind, ⟨?_, ?_, j, y, ?_, hy, hcloses⟩, by simp⟩
      · rw [List.isChain_append] at hbefore ⊢
        refine ⟨hbefore.1, hbehind, fun a ha b hb => hbefore.2.2 a ha b ?_⟩
        simpa using hb
      · obtain ⟨k, z, hhead, hz⟩ := hhead
        refine ⟨k, z, ?_, hz⟩
        rw [← hhead, List.head?_append, List.head?_append]
        rfl
      · rw [List.getLast?_append, hlast]
        rfl

/-- The delimiters of a group are in order. -/
theorem IsGroup.nodup {group : List Nat} (h : IsGroup D w group) : group.Nodup := by
  have hlt : List.IsChain (· < ·) group := h.chain.imp fun _ _ hlink => hlink.lt
  exact (List.isChain_iff_pairwise.mp hlt).imp fun hlt => hlt.ne

/-- What begins a chain of links and what ends it enclose a stretch that opens and closes alike. -/
theorem chain_enclosed {group : List Nat} (h : List.IsChain (Linked D w) (i :: group))
    (hlast : (i :: group).getLast? = some j) (hne : group ≠ []) :
    i < j ∧ Nested D.unsplit w (i + 1) j := by
  induction group generalizing i with
  | nil => exact absurd rfl hne
  | cons k group ih =>
    obtain ⟨hlink, hchain⟩ := List.isChain_cons_cons.mp h
    have hdepth : ∀ m, depth D.unsplit w m = depth D w m := fun m => rfl
    have hnested : Nested D.unsplit w (i + 1) k := by
      refine ⟨hlink.nested.depth_eq, hlink.nested.depth_le, fun m x _ _ _ hsplits => ?_⟩
      cases hsplits
    rw [List.getLast?_cons_cons] at hlast
    have hlt := hlink.lt
    by_cases hgroup : group = []
    · subst hgroup
      obtain rfl : k = j := by simpa using hlast
      exact ⟨hlt, hnested⟩
    · obtain ⟨hlt', heq, hle, -⟩ := ih hchain hlast hgroup
      -- What ends one link and begins the next one splits, so it does not change the depth.
      obtain ⟨x, hx, hends⟩ := hlink.ends
      have hbegins : Begins D x := by
        obtain ⟨next, group, rfl⟩ := List.exists_cons_of_ne_nil hgroup
        obtain ⟨y, hy, hbegins⟩ := (List.isChain_cons_cons.mp hchain).1.begins
        rw [hx] at hy
        rwa [Option.some.inj hy]
      have hsplits : D.splits x = true := by
        rcases hbegins with hopens | hsplits
        · exact absurd hends (not_ends_of_opens hopens)
        · exact hsplits
      have hsame : depth D w (k + 1) = depth D w k := by
        rw [depth_succ hx, delta_splits hsplits, add_zero]
      simp only [hdepth] at heq hle
      have hfirst := hlink.nested.depth_eq
      refine ⟨by omega, ?_, fun m hm hmj => ?_, fun m y _ _ _ hsplits' => by cases hsplits'⟩
      · simp only [hdepth]
        omega
      · simp only [hdepth]
        rcases Nat.lt_or_ge k m with hafter | hbefore
        · have := hle m hafter hmj
          omega
        · exact hlink.nested.depth_le m hm hbefore

/-- The ends of a group are linked when nothing splits. -/
theorem IsGroup.linked_ends {group : List Nat} (h : IsGroup D w group) {first last : Nat}
    (hfirst : group.head? = some first) (hlast : group.getLast? = some last) :
    Linked D.unsplit w first last := by
  obtain ⟨hchain, ⟨i, x, hi, hx, hopens⟩, ⟨j, y, hj, hy, hcloses⟩⟩ := h
  obtain rfl : i = first := Option.some.inj (hi.symm.trans hfirst)
  obtain rfl : j = last := Option.some.inj (hj.symm.trans hlast)
  obtain ⟨group, rfl⟩ := List.head?_eq_some_iff.mp hi
  have hne : group ≠ [] := by
    rintro rfl
    obtain rfl : i = j := by simpa using hj
    rw [hx] at hy
    obtain rfl := Option.some.inj hy
    exact not_ends_of_opens hopens (.inl hcloses)
  obtain ⟨hlt, hnested⟩ := chain_enclosed hchain hj hne
  exact ⟨hlt, ⟨x, hx, .inl hopens⟩, ⟨y, hy, .inl hcloses⟩, hnested⟩

end Lib.Brackets
