import Oxvim.Lib.Stretches

/-!
# Sweeping over spans

One pass over a list of spans collects the numbers between them: a span that begins behind everything
the pass has reached leaves a gap, and the pass goes on behind the longer of the two. The gaps are the
stretches of the numbers that no span covers, unless the order of the spans or a span without
numbers of its own gets in the way; `Sweepable` says when, and `exact_gaps_iff` that it says no more.
-/

namespace Lib.Sweep

/-- A list of spans is the stretches of a predicate, in order. -/
structure Exact (p : Nat → Prop) (runs : List (Span Nat)) : Prop where
  ordered : runs.Pairwise fun a b => a.start < b.start
  mem_iff : ∀ a, a ∈ runs ↔ Stretch p a

def Covered (spans : List (Span Nat)) (i : Nat) : Prop := ∃ a ∈ spans, a.start ≤ i ∧ i < a.stop

/-- A number below the limit that no span covers. -/
def Free (limit : Nat) (spans : List (Span Nat)) (i : Nat) : Prop := i < limit ∧ ¬Covered spans i

instance (spans : List (Span Nat)) (i : Nat) : Decidable (Covered spans i) :=
  inferInstanceAs (Decidable (∃ a ∈ spans, _))

/-! ## The pass -/

def gap (start stop : Nat) : List (Span Nat) := if start < stop then [⟨start, stop⟩] else []

/-- How far the pass gets over a span. -/
def reach (limit next : Nat) (a : Span Nat) : Nat := max next (min a.stop limit)

/-- The gaps that a pass from `next` on leaves. -/
def gaps (limit : Nat) : Nat → List (Span Nat) → List (Span Nat)
  | next, [] => gap next limit
  | next, a :: spans => gap next a.start ++ gaps limit (reach limit next a) spans

/-- Where the pass is behind some spans. -/
def reached (limit : Nat) (spans : List (Span Nat)) : Nat := spans.foldl (reach limit) 0

theorem reached_append (limit : Nat) (pre : List (Span Nat)) (a : Span Nat) :
    reached limit (pre ++ [a]) = reach limit (reached limit pre) a := by
  rw [reached, List.foldl_append]
  rfl

theorem reached_le (limit : Nat) (spans : List (Span Nat)) : reached limit spans ≤ limit := by
  induction spans using List.reverseRecOn with
  | nil => exact Nat.zero_le _
  | append_singleton pre a ih =>
    rw [reached_append, reach]
    omega

@[simp] theorem mem_gap {start stop : Nat} {a : Span Nat} :
    a ∈ gap start stop ↔ start < stop ∧ a = ⟨start, stop⟩ := by
  rw [gap]
  split_ifs with h <;> simp [h]

/-- A gap that a later part of the pass leaves is a gap of the whole pass. -/
theorem mem_gaps_of_split {limit next : Nat} {pre post : List (Span Nat)} {a : Span Nat}
    (h : pre.foldl (reach limit) next < a.start) :
    (⟨pre.foldl (reach limit) next, a.start⟩ : Span Nat) ∈ gaps limit next (pre ++ a :: post) := by
  induction pre generalizing next with
  | nil => exact List.mem_append_left _ (mem_gap.mpr ⟨h, rfl⟩)
  | cons b pre ih => exact List.mem_append_right _ (ih h)

/-! ## When the pass is right -/

/-- A gap of the pass is a stretch of uncovered numbers. -/
structure Fits (limit : Nat) (spans : List (Span Nat)) (next start : Nat) : Prop where
  /-- The span behind the gap does not begin behind the limit. -/
  ends : start ≤ limit
  /-- No span reaches back into the gap. -/
  free : ∀ i, next ≤ i → i < start → ¬Covered spans i
  /-- The number behind the gap is covered. -/
  meets : start < limit → Covered spans start

/-- Every gap that a span leaves before it fits. -/
def Sweepable (limit : Nat) (spans : List (Span Nat)) : Prop :=
  ∀ pre a post, spans = pre ++ a :: post → reached limit pre < a.start →
    Fits limit spans (reached limit pre) a.start

section Pass

variable {limit next : Nat} {spans pre rest : List (Span Nat)} {a : Span Nat}

/-- What the pass keeps true: it stands behind the spans it has read and inside no stretch. -/
structure Swept (limit : Nat) (spans pre : List (Span Nat)) (next : Nat) : Prop where
  le : next ≤ limit
  behind : ∀ a ∈ pre, min a.stop limit ≤ next
  cut : ∀ i, i + 1 = next → Free limit spans i → ¬Free limit spans next

theorem Fits.stretch (h : Fits limit spans next a.start) (hswept : Swept limit spans pre next)
    (hlt : next < a.start) : Stretch (Free limit spans) ⟨next, a.start⟩ where
  inhabited := hlt
  inside := by
    intro i hle hi
    have hends := h.ends
    exact ⟨lt_of_lt_of_le hi hends, h.free i hle hi⟩
  before := fun i hi hfree => hswept.cut i hi hfree ⟨lt_of_lt_of_le hlt h.ends, h.free _ le_rfl hlt⟩
  behind := fun hfree => hfree.2 (h.meets hfree.1)

/-- Two stretches of one predicate that meet are one. -/
theorem eq_of_stretch {p : Nat → Prop} {a b : Span Nat} (ha : Stretch p a) (hb : Stretch p b)
    (hoverlaps : a.Overlaps b) : a = b := by
  have hab := ha.contains hb (fun _ h => h) hoverlaps
  have hba := hb.contains ha (fun _ h => h) hoverlaps.symm
  obtain ⟨hstart, hstop⟩ := hab
  obtain ⟨hstart', hstop'⟩ := hba
  cases a
  cases b
  congr 1
  · exact le_antisymm hstart hstart'
  · exact le_antisymm hstop' hstop

/-- Where no gap is left, or a gap that fits, the pass stays between the stretches. -/
theorem Swept.step (hswept : Swept limit spans pre next) (ha : a ∈ spans) (hle : a.start ≤ a.stop)
    (hfits : next < a.start → Fits limit spans next a.start) :
    Swept limit spans (pre ++ [a]) (reach limit next a) where
  le := by
    have := hswept.le
    rw [reach]
    omega
  behind := by
    intro b hb
    rw [reach]
    rcases List.mem_append.mp hb with hb | hb
    · have := hswept.behind b hb
      omega
    · obtain rfl := List.mem_singleton.mp hb
      omega
  cut := by
    intro i hi hfree hfree'
    have hcovers : ∀ j, a.start ≤ j → j < a.stop → ¬Free limit spans j :=
      fun j h h' hf => hf.2 ⟨a, ha, h, h'⟩
    have hlimit := hfree'.1
    rw [reach] at hi hfree' hlimit
    by_cases hgap : next < a.start
    · have hmeets := (hfits hgap).meets
      have hends := (hfits hgap).ends
      rcases Nat.lt_or_ge i a.start with hlt | hge
      · -- the span has no numbers of its own
        have heq : max next (min a.stop limit) = a.start := by omega
        rw [heq] at hfree'
        exact hfree'.2 (hmeets hfree'.1)
      · exact hcovers i hge (by omega) hfree
    · rcases Nat.lt_or_ge next (min a.stop limit) with hlt | hge
      · exact hcovers i (by omega) (by omega) hfree
      · have heq : max next (min a.stop limit) = next := by omega
        rw [heq] at hi hfree'
        exact hswept.cut i hi hfree hfree'

/-- The stretches from `next` on are the gap before a span and those behind the span. -/
theorem Swept.stretch_iff (hswept : Swept limit spans pre next) (ha : a ∈ spans)
    (hfits : next < a.start → Fits limit spans next a.start) (b : Span Nat) :
    (Stretch (Free limit spans) b ∧ next ≤ b.start) ↔
      b ∈ gap next a.start ∨ Stretch (Free limit spans) b ∧ reach limit next a ≤ b.start := by
  constructor
  · rintro ⟨hb, hnext⟩
    have hinhabited : b.start < b.stop := hb.inhabited
    have hfree := hb.inside b.start le_rfl hinhabited
    have hlimit : b.start < limit := hfree.1
    by_cases hbefore : b.start < a.start
    · have hlt : next < a.start := by omega
      have hgap := (hfits hlt).stretch hswept hlt
      have heq := eq_of_stretch hb hgap ⟨hbefore, by simp only; omega⟩
      exact .inl (mem_gap.mpr ⟨hlt, heq⟩)
    · refine .inr ⟨hb, ?_⟩
      by_contra hreach
      rw [reach] at hreach
      exact hfree.2 ⟨a, ha, by omega, by omega⟩
  · rintro (hb | ⟨hb, hreach⟩)
    · obtain ⟨hlt, rfl⟩ := mem_gap.mp hb
      exact ⟨(hfits hlt).stretch hswept hlt, le_rfl⟩
    · rw [reach] at hreach
      exact ⟨hb, by omega⟩

/-- Behind all spans the numbers below the limit are one stretch. -/
theorem Swept.stretch_iff_last (hswept : Swept limit spans spans next) (b : Span Nat) :
    (Stretch (Free limit spans) b ∧ next ≤ b.start) ↔ b ∈ gap next limit := by
  have hfree : ∀ i, next ≤ i → i < limit → Free limit spans i := by
    intro i hle hlt
    refine ⟨hlt, ?_⟩
    rintro ⟨a, ha, _, hstop⟩
    have := hswept.behind a ha
    omega
  have hstretch : next < limit → Stretch (Free limit spans) ⟨next, limit⟩ := by
    intro hlt
    exact ⟨hlt, fun i hle hi => hfree i hle hi, fun i hi h => hswept.cut i hi h (hfree _ le_rfl hlt),
      fun h => absurd h.1 (lt_irrefl _)⟩
  rw [mem_gap]
  constructor
  · rintro ⟨hb, hnext⟩
    have hlimit := (hb.inside b.start le_rfl hb.inhabited).1
    have hinhabited : b.start < b.stop := hb.inhabited
    have hlt : next < limit := by omega
    exact ⟨hlt, eq_of_stretch hb (hstretch hlt) ⟨hlimit, by simp only; omega⟩⟩
  · rintro ⟨hlt, rfl⟩
    exact ⟨hstretch hlt, le_rfl⟩

theorem gap_ordered (start stop : Nat) :
    (gap start stop).Pairwise fun a b : Span Nat => a.start < b.start := by
  rw [gap]
  split_ifs
  · exact List.pairwise_singleton _ _
  · exact List.Pairwise.nil

/-- From any point of the pass on the gaps are the stretches from there on. -/
theorem Swept.gaps_exact (hspans : ∀ a ∈ spans, a.start ≤ a.stop) (hsplit : spans = pre ++ rest)
    (hswept : Swept limit spans pre (reached limit pre)) (hsweepable : Sweepable limit spans) :
    (gaps limit (reached limit pre) rest).Pairwise (fun a b => a.start < b.start) ∧
      ∀ b, b ∈ gaps limit (reached limit pre) rest ↔
        Stretch (Free limit spans) b ∧ reached limit pre ≤ b.start := by
  induction rest generalizing pre with
  | nil =>
    rw [List.append_nil] at hsplit
    rw [← hsplit] at hswept ⊢
    exact ⟨gap_ordered _ _, fun b => (hswept.stretch_iff_last b).symm⟩
  | cons a rest ih =>
    have ha : a ∈ spans := by simp [hsplit]
    have hfits := hsweepable pre a rest hsplit
    have hstep := hswept.step ha (hspans a ha) hfits
    rw [← reached_append] at hstep
    obtain ⟨hordered, hmem⟩ := ih (by simp [hsplit]) hstep
    rw [reached_append] at hordered hmem
    rw [gaps]
    constructor
    · refine List.pairwise_append.mpr ⟨gap_ordered _ _, hordered, ?_⟩
      -- what comes behind the gap begins behind it
      intro b hb c hc
      obtain ⟨hlt, rfl⟩ := mem_gap.mp hb
      have hc' := (hmem c).mp hc
      have hinhabited : c.start < c.stop := hc'.1.inhabited
      have hends := (hfits hlt).ends
      have hle := hspans a ha
      have hreach := hc'.2
      rw [reach] at hreach
      simp only
      omega
    · intro b
      rw [List.mem_append, hmem, hswept.stretch_iff ha hfits]

end Pass

/-- A pass from zero leaves the stretches of uncovered numbers exactly when its gaps fit. -/
theorem exact_gaps_iff {limit : Nat} {spans : List (Span Nat)}
    (hspans : ∀ a ∈ spans, a.start ≤ a.stop) :
    Exact (Free limit spans) (gaps limit 0 spans) ↔ Sweepable limit spans := by
  constructor
  · intro h pre a post hsplit hlt
    have hgap : (⟨reached limit pre, a.start⟩ : Span Nat) ∈ gaps limit 0 spans := by
      rw [hsplit]
      exact mem_gaps_of_split hlt
    have hstretch := (h.mem_iff _).mp hgap
    refine ⟨?_, ?_, ?_⟩
    · have hlast := (hstretch.inside (a.start - 1) (by simp only; omega) (by simp only; omega)).1
      omega
    · exact fun i hle hi => (hstretch.inside i hle hi).2
    · intro hlimit
      by_contra hcovered
      exact hstretch.behind ⟨hlimit, hcovered⟩
  · intro h
    have hstart : Swept limit spans [] (reached limit []) :=
      ⟨Nat.zero_le _, by simp, fun i hi => absurd hi (Nat.succ_ne_zero i)⟩
    obtain ⟨hordered, hmem⟩ := hstart.gaps_exact hspans rfl h
    exact ⟨hordered, fun b => (hmem b).trans (and_iff_left (Nat.zero_le _))⟩

end Lib.Sweep
