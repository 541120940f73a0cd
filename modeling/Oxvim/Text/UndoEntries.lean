import Oxvim.Text.UndoInvariant
import Oxvim.Lib.Links

/-!
# The reported undo tree

`entries` walks two kinds of links, the active child and the next alternate sibling. The children of
a node form one chain, the active child first and the others from the newest to the oldest
(`siblingChain`), and `altLinks` links each child to the next one of its chain (`altNext_eq`). So
the links form a forest, and the walk reports every header exactly once.
-/

namespace Oxvim.Text

open Lib

/-! ## Reading a report -/

namespace UndoTreeNode

def seq : UndoTreeNode → Nat
  | .mk seq _ _ _ _ => seq

def newhead : UndoTreeNode → Bool
  | .mk _ _ newhead _ _ => newhead

def curhead : UndoTreeNode → Bool
  | .mk _ _ _ curhead _ => curhead

section

variable (n : Nat) (ts : Int) (new cur : Bool) (alt : List UndoTreeNode)

@[simp] theorem seq_mk : (mk n ts new cur alt).seq = n := rfl

@[simp] theorem newhead_mk : (mk n ts new cur alt).newhead = new := rfl

@[simp] theorem curhead_mk : (mk n ts new cur alt).curhead = cur := rfl

end

mutual

/-- A reported header and, before what follows it, all that hangs off it. -/
def reported : UndoTreeNode → List UndoTreeNode
  | node@(.mk _ _ _ _ alt) => node :: reportedAll alt

/-- All headers of a report, those in nested `alt` lists included. -/
def reportedAll : List UndoTreeNode → List UndoTreeNode
  | [] => []
  | node :: nodes => reported node ++ reportedAll nodes

end

end UndoTreeNode

namespace UndoTree

open UndoTreeNode Links

variable {t : UndoTree}

/-! ## Sibling chains -/

/-- The children of a node, the active one first, then the inactive ones from the newest on. -/
def siblingChain (t : UndoTree) (p : Nat) : List Nat := (t.activeChild p).toList ++ t.inactive p

/-- The element that follows `x`. -/
def nextIn (l : List Nat) (x : Nat) : Option Nat := l[l.idxOf x + 1]?

theorem mem_inactive (h : WellFormed t) {p c : Nat} (hp : p < t.nodes.length) :
    c ∈ t.inactive p ↔ (t.node c).parent = some p ∧ t.activeChild p ≠ some c := by
  simp only [inactive, List.mem_reverse, List.mem_mergeSort, List.mem_filter, h.mem_children hp,
    bne_iff_ne, ne_eq]
  exact and_congr_right fun _ => not_congr eq_comm

theorem nodup_inactive (h : WellFormed t) {p : Nat} (hp : p < t.nodes.length) :
    (t.inactive p).Nodup := by
  rw [inactive, List.nodup_reverse]
  exact (List.mergeSort_perm _ _).nodup_iff.mpr ((h.nodup_children hp).filter _)

theorem mem_siblingChain (h : WellFormed t) {p c : Nat} (hp : p < t.nodes.length) :
    c ∈ t.siblingChain p ↔ (t.node c).parent = some p := by
  rw [siblingChain, List.mem_append, mem_inactive h hp, Option.mem_toList]
  by_cases hc : t.activeChild p = some c
  · simp [hc, h.activeChild_mem hc]
  · simp [hc]

theorem nodup_siblingChain (h : WellFormed t) {p : Nat} (hp : p < t.nodes.length) :
    (t.siblingChain p).Nodup := by
  rw [siblingChain, List.nodup_append]
  refine ⟨?_, nodup_inactive h hp, ?_⟩
  · cases t.activeChild p <;> simp
  · rintro c hc d hd rfl
    exact ((mem_inactive h hp).mp hd).2 (by simpa using hc)

theorem length_siblingChain (h : WellFormed t) {p : Nat} (hp : p < t.nodes.length) :
    (t.siblingChain p).length ≤ t.nodes.length := by
  have hsub : t.siblingChain p ⊆ List.range t.nodes.length := fun c hc =>
    List.mem_range.mpr (h.parent_lt ((mem_siblingChain h hp).mp hc)).2
  simpa using ((nodup_siblingChain h hp).subperm hsub).length_le

/-! ## `altLinks` -/

/-- Writing the elements of a list without duplicates one by one. -/
theorem getD_foldl_set {l : List Nat} (hl : l.Nodup) (v : Nat → Option Nat) (n : Nat)
    {links : List (Option Nat)} {x : Nat} (hx : x < links.length) :
    ((l.zipIdx n).foldl (fun links p => links.set p.1 (v p.2)) links).getD x none
      = if x ∈ l then v (n + l.idxOf x) else links.getD x none := by
  induction l generalizing n links with
  | nil => simp
  | cons y l ih =>
    obtain ⟨hy, hl⟩ := List.nodup_cons.mp hl
    rw [List.zipIdx_cons, List.foldl_cons, ih hl (n + 1) (by simpa using hx)]
    by_cases hxy : x = y
    · subst hxy
      simp [hy, hx]
    · rw [List.idxOf_cons_ne _ (Ne.symm hxy)]
      simp [hxy, List.getElem?_set_ne (Ne.symm hxy), Nat.add_comm 1, Nat.add_assoc]

theorem length_foldl_set (l : List (Nat × Nat)) (v : Nat → Option Nat) (links : List (Option Nat)) :
    (l.foldl (fun links p => links.set p.1 (v p.2)) links).length = links.length := by
  induction l generalizing links with
  | nil => rfl
  | cons p l ih => rw [List.foldl_cons, ih, List.length_set]

/-- The two link lists are written independently. -/
theorem foldl_pair_fst (l : List (Nat × Nat)) (v w : Nat → Option Nat)
    (links : List (Option Nat) × List (Option Nat)) :
    (l.foldl (fun (a, b) (x, k) => (a.set x (v k), b.set x (w k))) links).1
      = l.foldl (fun links p => links.set p.1 (v p.2)) links.1 := by
  induction l generalizing links with
  | nil => rfl
  | cons p l ih => exact ih _

theorem linkSiblings_nil {links : List (Option Nat) × List (Option Nat)} {p : Nat}
    (hi : t.inactive p = []) : t.linkSiblings links p = links := by
  rw [linkSiblings, hi]

theorem linkSiblings_cons {links : List (Option Nat) × List (Option Nat)} {p c newest : Nat}
    {older : List Nat} (hi : t.inactive p = newest :: older) (hc : t.activeChild p = some c) :
    (t.linkSiblings links p).1 = (newest :: older).zipIdx.foldl
      (fun links q => links.set q.1 (newest :: older)[q.2 + 1]?)
      (links.1.set c (some newest)) := by
  rw [linkSiblings, hi]
  simp only [hc]
  exact foldl_pair_fst _ (fun slot => (newest :: older)[slot + 1]?)
    (fun slot => if slot = 0 then some c else (newest :: older)[slot - 1]?) _

/-- The links among the children of `p` follow its chain; the links of other nodes stay. -/
theorem linkSiblings_altNext (h : WellFormed t) {p : Nat} (hp : p < t.nodes.length)
    {links : List (Option Nat) × List (Option Nat)} (hlen : links.1.length = t.nodes.length)
    {x : Nat} (hx : x < t.nodes.length)
    (hnone : (t.node x).parent = some p → links.1.getD x none = none) :
    (t.linkSiblings links p).1.length = t.nodes.length ∧
      (t.linkSiblings links p).1.getD x none
        = if (t.node x).parent = some p then nextIn (t.siblingChain p) x
          else links.1.getD x none := by
  have hnodup := nodup_inactive h hp
  have hinactive := mem_inactive h (c := x) hp
  cases hi : t.inactive p with
  | nil =>
    rw [linkSiblings_nil hi]
    refine ⟨hlen, ?_⟩
    split
    · next hxp =>
      rw [hi] at hinactive
      have hactive : t.activeChild p = some x := by
        by_contra hne
        exact List.not_mem_nil (hinactive.mpr ⟨hxp, hne⟩)
      rw [hnone hxp, siblingChain, hi, hactive]
      simp [nextIn]
    · rfl
  | cons newest older =>
    have hnewest := ((mem_inactive h (c := newest) hp).mp (by simp [hi])).1
    obtain ⟨c, hc⟩ := h.activeChild_isSome hp
      (List.ne_nil_of_mem ((h.mem_children hp).mpr hnewest))
    have hchain : t.siblingChain p = c :: newest :: older := by
      rw [siblingChain, hi, hc]
      rfl
    rw [hi] at hnodup hinactive
    rw [linkSiblings_cons hi hc, length_foldl_set _ fun slot => (newest :: older)[slot + 1]?]
    refine ⟨by simp [hlen], ?_⟩
    rw [getD_foldl_set hnodup (fun slot => (newest :: older)[slot + 1]?) 0 (by simpa [hlen] using hx),
      Nat.zero_add, hchain]
    by_cases hin : x ∈ newest :: older
    · have hxp := (hinactive.mp hin).1
      have hxc : c ≠ x := fun hcx => (hinactive.mp hin).2 (hcx ▸ hc)
      rw [if_pos hin, if_pos hxp, nextIn, List.idxOf_cons_ne _ hxc]
      rfl
    · rw [if_neg hin]
      by_cases hxc : x = c
      · subst hxc
        rw [if_pos (h.activeChild_mem hc), nextIn, List.idxOf_cons_self]
        simp [hlen, hx]
      · have hxp : (t.node x).parent ≠ some p := fun hxp => hin (hinactive.mpr ⟨hxp, by
          rw [hc]
          exact fun heq => hxc (Option.some.inj heq).symm⟩)
        rw [if_neg hxp]
        simp [List.getElem?_set_ne (Ne.symm hxc)]

/-- The alternate link of a node. -/
def altNext (t : UndoTree) (x : Nat) : Option Nat := t.altLinks.1.getD x none

/-- After the first `k` parents their children are linked, and no other node is. -/
theorem foldl_linkSiblings (h : WellFormed t) {k : Nat} (hk : k ≤ t.nodes.length) :
    let start := (List.replicate t.nodes.length (none : Option Nat),
      List.replicate t.nodes.length (none : Option Nat))
    let links := ((List.range k).foldl t.linkSiblings start).1
    links.length = t.nodes.length ∧ ∀ x < t.nodes.length, links.getD x none
      = (t.node x).parent.bind fun p => if p < k then nextIn (t.siblingChain p) x else none := by
  intro start
  induction k with
  | zero =>
    refine ⟨by simp [start], fun x hx => ?_⟩
    simp only [List.range_zero, List.foldl_nil, start]
    cases (t.node x).parent <;> simp [hx]
  | succ k ih =>
    obtain ⟨hlen, hget⟩ := ih (by omega)
    have hstep := fun x hx => linkSiblings_altNext h (show k < t.nodes.length by omega) hlen
      (x := x) hx (by
        intro hxk
        rw [hget x hx, hxk]
        simp)
    rw [List.range_succ, List.foldl_append, List.foldl_cons, List.foldl_nil]
    refine ⟨(hstep 0 (by omega)).1, fun x hx => ?_⟩
    rw [(hstep x hx).2, hget x hx]
    cases hpx : (t.node x).parent with
    | none => simp
    | some p =>
      by_cases hpk : p = k
      · simp [hpk]
      · have hlt : p < k + 1 ↔ p < k := by omega
        simp only [Option.some.injEq, hpk, if_false, Option.bind_some, hlt]

/-- Every child is linked to the next one of its chain. -/
theorem altNext_eq (h : WellFormed t) {x : Nat} (hx : x < t.nodes.length) :
    t.altNext x = (t.node x).parent.bind fun p => nextIn (t.siblingChain p) x := by
  have hlinks := (foldl_linkSiblings h (Nat.le_refl _)).2 x hx
  show ((List.range t.nodes.length).foldl t.linkSiblings _).1.getD x none = _
  rw [hlinks]
  cases hpx : (t.node x).parent with
  | none => rfl
  | some p => simp [Nat.lt_trans (h.parent_lt hpx).1 hx]

theorem altNext_of_le (h : WellFormed t) {x : Nat} (hx : t.nodes.length ≤ x) :
    t.altNext x = none := by
  have hlen : t.altLinks.1.length = t.nodes.length := (foldl_linkSiblings h (Nat.le_refl _)).1
  rw [altNext, List.getD_eq_getElem?_getD, List.getElem?_eq_none (hlen ▸ hx)]
  rfl

/-! ## The links form a forest -/

/-- The position of a node in its sibling chain. -/
def slot (t : UndoTree) (x : Nat) : Nat :=
  (t.node x).parent.elim 0 fun p => (t.siblingChain p).idxOf x

theorem slot_eq {x p : Nat} (hp : (t.node x).parent = some p) :
    t.slot x = (t.siblingChain p).idxOf x := by
  rw [slot, hp]
  rfl

/-- An alternate link leads to the next sibling. -/
theorem altNext_eq_some (h : WellFormed t) {x y : Nat} :
    t.altNext x = some y ↔ ∃ p, (t.node x).parent = some p ∧ (t.node y).parent = some p ∧
      t.slot y = t.slot x + 1 := by
  have hchain : ∀ {p}, (t.node x).parent = some p → p < t.nodes.length := fun hp =>
    Nat.lt_trans (h.parent_lt hp).1 (h.parent_lt hp).2
  constructor
  · intro halt
    have hx : x < t.nodes.length := by
      by_contra hx
      rw [altNext_of_le h (Nat.le_of_not_lt hx)] at halt
      cases halt
    rw [altNext_eq h hx] at halt
    obtain ⟨p, hp, hnext⟩ := Option.bind_eq_some_iff.mp halt
    obtain ⟨hlt, hget⟩ := List.getElem?_eq_some_iff.mp hnext
    have hy : (t.node y).parent = some p :=
      (mem_siblingChain h (hchain hp)).mp (List.mem_of_getElem? hnext)
    refine ⟨p, hp, hy, ?_⟩
    rw [slot_eq hp, slot_eq hy, ← hget, (nodup_siblingChain h (hchain hp)).idxOf_getElem]
  · rintro ⟨p, hp, hy, hslot⟩
    rw [altNext_eq h (h.parent_lt hp).2, hp, Option.bind_some, nextIn, ← slot_eq hp, ← hslot,
      slot_eq hy]
    exact List.getElem?_idxOf ((mem_siblingChain h (hchain hp)).mpr hy)

/-- An active link leads to the first child of the chain. -/
theorem active_iff_slot (h : WellFormed t) {x y : Nat} :
    t.activeChild x = some y ↔ (t.node y).parent = some x ∧ t.slot y = 0 := by
  constructor
  · intro hy
    have hp := h.activeChild_mem hy
    refine ⟨hp, ?_⟩
    rw [slot_eq hp, siblingChain, hy]
    simp
  · rintro ⟨hp, hslot⟩
    have hx := Nat.lt_trans (h.parent_lt hp).1 (h.parent_lt hp).2
    obtain ⟨c, hc⟩ := h.activeChild_isSome hx (List.ne_nil_of_mem ((h.mem_children hx).mpr hp))
    rw [slot_eq hp, siblingChain, hc] at hslot
    by_cases hcy : c = y
    · rw [hc, hcy]
    · simp [List.idxOf_cons_ne _ hcy] at hslot

/-- Siblings have different slots. -/
theorem slot_inj (h : WellFormed t) {x y p : Nat} (hx : (t.node x).parent = some p)
    (hy : (t.node y).parent = some p) (hslot : t.slot x = t.slot y) : x = y := by
  have hp := Nat.lt_trans (h.parent_lt hx).1 (h.parent_lt hx).2
  rw [slot_eq hx, slot_eq hy] at hslot
  exact (List.idxOf_inj ((mem_siblingChain h hp).mpr hx)).mp hslot

theorem forest (h : WellFormed t) : Forest t.altNext t.activeChild where
  pred x y z hx hy := by
    rcases hx with hx | hx <;> rcases hy with hy | hy
    · obtain ⟨p, hxp, hzp, hzx⟩ := (altNext_eq_some h).mp hx
      obtain ⟨q, hyq, hzq, hzy⟩ := (altNext_eq_some h).mp hy
      obtain rfl : p = q := by simpa [hzp] using hzq
      exact slot_inj h hxp hyq (by omega)
    · obtain ⟨-, -, -, hzx⟩ := (altNext_eq_some h).mp hx
      have := ((active_iff_slot h).mp hy).2
      omega
    · obtain ⟨-, -, -, hzy⟩ := (altNext_eq_some h).mp hy
      have := ((active_iff_slot h).mp hx).2
      omega
    · simpa [h.activeChild_mem hx] using h.activeChild_mem hy
  apart x y hf hg := by
    obtain ⟨p, hxp, hyp, -⟩ := (altNext_eq_some h).mp hf
    have hyx := h.activeChild_mem hg
    rw [hyp] at hyx
    have := (h.parent_lt hxp).1
    simp at hyx
    omega

/-- Ranks nodes by their parent, then by their slot. -/
def rank (t : UndoTree) (x : Nat) : Nat :=
  (t.node x).parent.elim 0 fun p => p * t.nodes.length + t.slot x + 1

theorem rank_eq {x p : Nat} (hp : (t.node x).parent = some p) :
    t.rank x = p * t.nodes.length + t.slot x + 1 := by
  rw [rank, hp]
  rfl

theorem slot_lt (h : WellFormed t) {x p : Nat} (hx : (t.node x).parent = some p) :
    t.slot x < t.nodes.length := by
  have hp := Nat.lt_trans (h.parent_lt hx).1 (h.parent_lt hx).2
  rw [slot_eq hx]
  exact Nat.lt_of_lt_of_le (List.idxOf_lt_length_of_mem ((mem_siblingChain h hp).mpr hx))
    (length_siblingChain h hp)

theorem rank_lt (h : WellFormed t) {x y : Nat} (hxy : Link t.altNext t.activeChild x y) :
    x < t.nodes.length ∧ y < t.nodes.length ∧ t.rank x < t.rank y := by
  rcases hxy with hxy | hxy
  · obtain ⟨p, hx, hy, hslot⟩ := (altNext_eq_some h).mp hxy
    rw [rank_eq hx, rank_eq hy]
    exact ⟨(h.parent_lt hx).2, (h.parent_lt hy).2, by omega⟩
  · have hy := h.activeChild_mem hxy
    refine ⟨Nat.lt_trans (h.parent_lt hy).1 (h.parent_lt hy).2, (h.parent_lt hy).2, ?_⟩
    rw [rank_eq hy]
    cases hx : (t.node x).parent with
    | none =>
      rw [rank, hx]
      exact Nat.succ_pos _
    | some p =>
      have hslot := slot_lt h hx
      have hmul : (p + 1) * t.nodes.length ≤ x * t.nodes.length :=
        Nat.mul_le_mul_right _ (h.parent_lt hx).1
      rw [rank_eq hx]
      rw [Nat.succ_mul] at hmul
      omega

/-! ## The walk of `entries` -/

/-- The headers in the order in which `entries` meets them. -/
def visited (t : UndoTree) : List Nat :=
  visit t.altNext t.activeChild t.nodes.length (t.activeChild 0)

theorem nodup_visited (h : WellFormed t) : t.visited.Nodup :=
  nodup_visit (fun _ _ hxy => (rank_lt h hxy).2.2) (forest h) _ _

/-- Every header is linked from the first one on. -/
theorem reach_of_pos (h : WellFormed t) {s x : Nat} (hs : t.activeChild 0 = some s) (hpos : 0 < x)
    (hx : x < t.nodes.length) : Relation.ReflTransGen (Link t.altNext t.activeChild) s x := by
  obtain ⟨n, hn⟩ : ∃ n, n = t.rank x := ⟨_, rfl⟩
  induction n using Nat.strong_induction_on generalizing x with
  | _ n ih =>
    obtain ⟨p, hp, hlt⟩ := h.parent x hpos hx
    have hpl : p < t.nodes.length := by omega
    cases hslot : t.slot x with
    | zero =>
      have hactive := (active_iff_slot h).mpr ⟨hp, hslot⟩
      rcases Nat.eq_zero_or_pos p with rfl | hp0
      · rw [hs] at hactive
        cases hactive
        exact .refl
      · have hlink : Link t.altNext t.activeChild p x := .inr hactive
        exact (ih _ (hn ▸ (rank_lt h hlink).2.2) hp0 hpl rfl).tail hlink
    | succ k =>
      -- the sibling before `x` in the chain leads to it
      have hk : k < (t.siblingChain p).length := by
        have := List.idxOf_lt_length_of_mem ((mem_siblingChain h hpl).mpr hp)
        rw [← slot_eq hp] at this
        omega
      have hmem : (t.siblingChain p)[k] ∈ t.siblingChain p := List.getElem_mem hk
      have hyp := (mem_siblingChain h hpl).mp hmem
      have hyslot : t.slot (t.siblingChain p)[k] = k := by
        rw [slot_eq hyp, (nodup_siblingChain h hpl).idxOf_getElem]
      have hlink : Link t.altNext t.activeChild (t.siblingChain p)[k] x :=
        .inl ((altNext_eq_some h).mpr ⟨p, hyp, hp, by omega⟩)
      have hypos : 0 < (t.siblingChain p)[k] := Nat.lt_of_le_of_lt (Nat.zero_le _) (h.parent_lt hyp).1
      exact (ih _ (hn ▸ (rank_lt h hlink).2.2) hypos (h.parent_lt hyp).2 rfl).tail hlink

/-- The walk meets every header, and nothing else. -/
theorem mem_visited (h : WellFormed t) {x : Nat} :
    x ∈ t.visited ↔ 0 < x ∧ x < t.nodes.length := by
  have hpos : 0 < t.nodes.length := Nat.lt_of_le_of_lt (Nat.zero_le _) h.current_lt
  constructor
  · intro hx
    unfold visited at hx
    cases hs : t.activeChild 0 with
    | none => simp [hs] at hx
    | some s =>
      rw [hs] at hx
      have hreach := reach_of_mem_visit hx
      have hparent : ∃ p, (t.node x).parent = some p := by
        rcases Relation.ReflTransGen.cases_tail hreach with rfl | ⟨y, -, hyx | hyx⟩
        · exact ⟨0, h.activeChild_mem hs⟩
        · obtain ⟨p, -, hp, -⟩ := (altNext_eq_some h).mp hyx
          exact ⟨p, hp⟩
        · exact ⟨y, h.activeChild_mem hyx⟩
      obtain ⟨p, hp⟩ := hparent
      exact ⟨Nat.lt_of_le_of_lt (Nat.zero_le _) (h.parent_lt hp).1, (h.parent_lt hp).2⟩
  · rintro ⟨hx0, hx⟩
    have hne : (t.node 0).children ≠ [] := by
      -- the first header hangs below the root
      obtain ⟨p, hp, hlt⟩ := h.parent 1 Nat.one_pos (by omega)
      obtain rfl : p = 0 := by omega
      exact List.ne_nil_of_mem ((h.mem_children hpos).mpr hp)
    obtain ⟨s, hs⟩ := h.activeChild_isSome hpos hne
    have hslt := (h.parent_lt (h.activeChild_mem hs)).2
    let nodes := Finset.range t.nodes.length
    have hplace : ∀ x y, Link t.altNext t.activeChild x y →
        place nodes t.rank x < place nodes t.rank y := fun x y hxy =>
      place_lt_place (Finset.mem_range.mpr (rank_lt h hxy).1) (rank_lt h hxy).2.2
    have hcard : ∀ y < t.nodes.length, place nodes t.rank y < t.nodes.length := fun y hy => by
      simpa [nodes] using place_lt_card (Finset.mem_range.mpr hy)
    rw [visited, hs]
    exact mem_visit_of_reach hplace (fun x y hxy => hcard y (rank_lt h hxy).2.1) (hcard s hslt)
      (Nat.le_add_right _ _) (reach_of_pos h hs hx0 hx)

/-! ## The report -/

/-- The report lists the visited headers in order, each with its flags. -/
theorem reportedAll_evalChain (newhead : Nat) (curhead : Option Nat) {fuel : Nat}
    {start : Option Nat}
    (hentry : ∀ n ∈ visit t.altNext t.activeChild fuel start, ∃ e, (t.node n).entry = some e ∧
      e.seq = n) :
    (reportedAll (t.evalChain t.altLinks.1 newhead curhead fuel start)).map
        (fun r => (r.seq, r.newhead, r.curhead))
      = (visit t.altNext t.activeChild fuel start).map
        (fun n => (n, n == newhead, curhead == some n)) := by
  induction fuel generalizing start with
  | zero => rfl
  | succ fuel ih =>
    cases start with
    | none => rfl
    | some n =>
      obtain ⟨e, he, hseq⟩ := hentry n (by simp [visit])
      have halt := @ih (t.altNext n) fun m hm => hentry m (by simp [visit, hm])
      have hactive := @ih (t.activeChild n) fun m hm => hentry m (by simp [visit, hm])
      have hnext : t.altLinks.1.getD n none = t.altNext n := rfl
      simp only [evalChain, he, reportedAll, reported, hnext, visit, List.map_cons, List.map_append,
        List.cons_append, halt, hactive, seq_mk, newhead_mk, curhead_mk, hseq]

theorem reportedAll_entries (h : WellFormed t) :
    (reportedAll t.entries).map (fun r => (r.seq, r.newhead, r.curhead))
      = t.visited.map fun n =>
        (n, n == t.activeLeaf t.nodes.length t.current, t.activeChild t.current == some n) := by
  refine reportedAll_evalChain _ _ fun n hn => ?_
  obtain ⟨hpos, hlt⟩ := (mem_visited h).mp hn
  obtain ⟨e, he, hseq, -⟩ := h.header n hpos hlt
  exact ⟨e, he, hseq⟩

/-- The fuel leads to the end of the active branch. -/
theorem activeLeaf_spec (fuel : Nat) (h : WellFormed t) {n : Nat} (hn : n < t.nodes.length)
    (hfuel : t.nodes.length ≤ fuel + n) :
    n ≤ t.activeLeaf fuel n ∧ t.activeLeaf fuel n < t.nodes.length ∧
      t.activeChild (t.activeLeaf fuel n) = none := by
  induction fuel generalizing n with
  | zero => omega
  | succ fuel ih =>
    unfold activeLeaf
    cases hc : t.activeChild n with
    | none => exact ⟨Nat.le_refl _, hn, hc⟩
    | some c =>
      have hlt := h.active_lt hc
      obtain ⟨hle, hbound, hleaf⟩ := ih (h.parent_lt (h.activeChild_mem hc)).2 (by omega)
      exact ⟨Nat.le_trans (Nat.le_of_lt hlt) hle, hbound, hleaf⟩

/-- Every header is reported exactly once. -/
theorem entries_seq (h : WellFormed t) :
    ((reportedAll t.entries).map (·.seq)).Perm (List.range' 1 (t.nodes.length - 1)) := by
  have hmap : (reportedAll t.entries).map (·.seq) = t.visited := by
    have := congrArg (List.map Prod.fst) (reportedAll_entries h)
    simpa [List.map_map, Function.comp_def] using this
  rw [hmap]
  refine (List.perm_ext_iff_of_nodup (nodup_visited h) List.nodup_range').mpr fun x => ?_
  rw [mem_visited h, List.mem_range'_1]
  omega

/-- A report that is not empty marks one header as the newest of the active branch. -/
theorem entries_newhead (h : WellFormed t) (hne : t.entries ≠ []) :
    (reportedAll t.entries).countP (·.newhead) = 1 := by
  let leaf := t.activeLeaf t.nodes.length t.current
  have hmap : (reportedAll t.entries).map (·.newhead) = t.visited.map (· == leaf) := by
    have := congrArg (List.map fun q => q.2.1) (reportedAll_entries h)
    simpa [List.map_map, Function.comp_def] using this
  obtain ⟨hle, hlt, hend⟩ := activeLeaf_spec t.nodes.length h h.current_lt (by omega)
  have hpos : 0 < leaf := by
    refine Nat.pos_of_ne_zero fun h0 => hne ?_
    rw [show t.activeLeaf t.nodes.length t.current = 0 from h0] at hend
    rw [entries, hend]
    cases t.nodes.length <;> rfl
  have hmem : leaf ∈ t.visited := (mem_visited h).mpr ⟨hpos, hlt⟩
  have hcount : (reportedAll t.entries).countP (·.newhead) = t.visited.countP (· == leaf) := by
    have := congrArg (List.countP id) hmap
    rwa [List.countP_map, List.countP_map] at this
  rw [hcount]
  exact List.count_eq_one_of_mem (nodup_visited h) hmem

/-- At most one header is marked as the one an undo moved off. -/
theorem entries_curhead (h : WellFormed t) : (reportedAll t.entries).countP (·.curhead) ≤ 1 := by
  have hmap : (reportedAll t.entries).map (·.curhead)
      = t.visited.map fun n => t.activeChild t.current == some n := by
    have := congrArg (List.map fun q => q.2.2) (reportedAll_entries h)
    simpa [List.map_map, Function.comp_def] using this
  have hcount : (reportedAll t.entries).countP (·.curhead)
      = t.visited.countP fun n => t.activeChild t.current == some n := by
    have := congrArg (List.countP id) hmap
    rwa [List.countP_map, List.countP_map] at this
  rw [hcount]
  cases t.activeChild t.current with
  | none => simp
  | some c =>
    have hcongr : t.visited.countP (fun n => some c == some n) = t.visited.count c := by
      refine List.countP_congr fun n _ => ?_
      rw [beq_iff_eq, beq_iff_eq, Option.some.injEq, eq_comm]
    rw [hcongr]
    exact List.nodup_iff_count_le_one.mp (nodup_visited h) c

/-! ## Runs -/

/-- The operations of the tree. -/
inductive Op where
  | record (edit : LineEdit) (timestamp : Int)
  | sync
  | undojoin
  | undo
  | redo
  | redoBranch (branch : Nat)
  | undoToSeq (seq : Nat)

/-- The tree after an operation, whether it returned an error or not. -/
def Op.apply : Op → UndoTree → UndoTree
  | .record edit timestamp, t => (t.record edit timestamp).2
  | .sync, t => t.sync
  | .undojoin, t => EState.final (UndoTree.undojoin t)
  | .undo, t => EState.final (UndoTree.undo t)
  | .redo, t => EState.final (UndoTree.redo t)
  | .redoBranch branch, t => EState.final (UndoTree.redoBranch branch t)
  | .undoToSeq seq, t => EState.final (UndoTree.undoToSeq seq t)

/-- One operation. -/
def Step (t t' : UndoTree) : Prop := ∃ op : Op, t' = op.apply t

theorem WellFormed.redoBranch (h : WellFormed t) (branch : Nat) :
    WellFormed (EState.final (UndoTree.redoBranch branch t)) := by
  rcases redoBranch_run h branch with ⟨-, err, hrun⟩ | ⟨e, c, t', -, -, -, hrun, hwf, -⟩
  · rw [hrun]
    exact h
  · rw [hrun]
    exact hwf

/-- Every operation keeps the tree well formed. -/
theorem WellFormed.apply (h : WellFormed t) (op : Op) : WellFormed (op.apply t) := by
  cases op with
  | record edit timestamp => exact h.record
  | sync => exact h.sync
  | undojoin =>
    show WellFormed (EState.final (UndoTree.undojoin t))
    rcases undojoin_run h with hrun | hrun | ⟨hrun, -, hpos, hleaf⟩
    · rw [hrun]
      exact h
    · rw [hrun]
      exact h
    · rw [hrun]
      exact { h with openLeaf := fun _ => ⟨hpos, hleaf⟩ }
  | undo =>
    show WellFormed (EState.final (UndoTree.undo t))
    rcases undo_run h with ⟨-, hrun⟩ | ⟨e, p, t', -, -, hrun, hwf, -⟩
    · rw [hrun]
      exact h
    · rw [hrun]
      exact hwf
  | redo =>
    show WellFormed (EState.final (UndoTree.redo t))
    rw [redo_eq]
    exact h.redoBranch _
  | redoBranch branch => exact h.redoBranch branch
  | undoToSeq seq =>
    show WellFormed (EState.final (UndoTree.undoToSeq seq t))
    by_cases hseq : seq < t.nodes.length
    · obtain ⟨steps, t', hrun, hwf, -⟩ := undoToSeq_ok h hseq
      rw [hrun]
      exact hwf
    · rw [undoToSeq_error h hseq]
      exact h

/-- Every run leads to a well-formed tree. -/
theorem wellFormed_of_reachable (h : Reachable (· = new) Step t) : WellFormed t :=
  h.invariant (fun _ ht => ht ▸ wellFormed_new) fun _ _ ht ⟨op, heq⟩ => heq ▸ ht.apply op

theorem reachable_foldl (ops : List Op) :
    Reachable (· = new) Step (ops.foldl (fun t op => op.apply t) new) :=
  Reachable.foldl (fun _ op => ⟨op, rfl⟩) ops (.init rfl)

theorem WellFormed.header_seqs (h : WellFormed t) :
    t.nodes.filterMap (·.entry.map (·.seq)) = List.range' 1 (t.nodes.length - 1) := by
  have hnodes : t.nodes = (List.range t.nodes.length).map t.node := by
    refine List.ext_getElem (by simp) fun i hi _ => ?_
    simp [UndoTree.node, hi]
  obtain ⟨n, hn⟩ : ∃ n, t.nodes.length = n + 1 :=
    Nat.exists_eq_add_of_lt (Nat.lt_of_le_of_lt (Nat.zero_le _) h.current_lt) |>.imp
      fun n hn => by omega
  have hrange : List.range (n + 1) = 0 :: List.range' 1 n := by
    rw [List.range_eq_range', List.range'_succ]
  rw [hnodes, List.length_map, List.length_range, hn, hrange, List.map_cons, List.filterMap_cons,
    h.root.1, List.filterMap_map, Nat.add_sub_cancel]
  show (List.range' 1 n).filterMap (fun i => (t.node i).entry.map (·.seq)) = _
  have hsome : ∀ i ∈ List.range' 1 n, ((t.node i).entry.map (·.seq)) = some i := by
    intro i hi
    rw [List.mem_range'_1] at hi
    obtain ⟨e, he, hseq, -⟩ := h.header i (by omega) (by omega)
    rw [he, Option.map_some, hseq]
  rw [List.filterMap_congr hsome, List.filterMap_some]

/-- **The undo tree stays well formed.** After every run of operations, failing ones included:
every other node is listed once, below its parent, and preferred children exist; the active branch
passes the current node; the headers are numbered `1..=seq_last`, children above their parents; an
open header is a leaf; and `entries` reports every header once, with one `newhead` and at most one
`curhead`. -/
theorem undo_tree_invariants (h : Reachable (· = new) Step t) :
    ((∀ i, 0 < i → i < t.nodes.length → ∃ p, (t.node i).parent = some p ∧
        (t.node p).children.count i = 1 ∧ ∀ q, i ∈ (t.node q).children → q = p) ∧
      ∀ p k, (t.node p).preferredChild = some k → k < (t.node p).children.length) ∧
    Relation.ReflTransGen (fun m n => t.activeChild m = some n) 0 t.current ∧
    (t.nodes.filterMap (·.entry.map (·.seq)) = List.range' 1 t.summary.seqLast ∧
      ∀ p c, c ∈ (t.node p).children → t.seqOf p < t.seqOf c) ∧
    (t.synced = false → t.current ≠ 0 ∧ (t.node t.current).children = []) ∧
    (((reportedAll t.entries).map (·.seq)).Perm (List.range' 1 t.summary.seqLast) ∧
      (t.entries ≠ [] → (reportedAll t.entries).countP (·.newhead) = 1) ∧
      (reportedAll t.entries).countP (·.curhead) ≤ 1) := by
  have hwf := wellFormed_of_reachable h
  have hlast : t.summary.seqLast = t.nodes.length - 1 := by rw [hwf.length]; rfl
  have hlt : ∀ {p c}, c ∈ (t.node p).children → p < t.nodes.length := by
    intro p c hc
    by_contra hp
    rw [node_of_le (Nat.le_of_not_lt hp)] at hc
    simp at hc
  refine ⟨⟨fun i hpos hi => ?_, fun p k hk => ?_⟩, hwf.active, ⟨?_, fun p c hc => ?_⟩, hwf.openLeaf,
    ?_, entries_newhead hwf, entries_curhead hwf⟩
  · obtain ⟨p, hp, hpi⟩ := hwf.parent i hpos hi
    have hpl : p < t.nodes.length := by omega
    refine ⟨p, hp, ?_, fun q hq => ?_⟩
    · exact List.count_eq_one_of_mem (hwf.nodup_children hpl) ((hwf.mem_children hpl).mpr hp)
    · simpa [hp] using ((hwf.mem_children (hlt hq)).mp hq).symm
  · by_cases hp : p < t.nodes.length
    · have := hwf.preferred p hp
      rwa [hk] at this
    · rw [node_of_le (Nat.le_of_not_lt hp)] at hk
      cases hk
  · rw [hlast]
    exact hwf.header_seqs
  · have hp := hlt hc
    have hcp := hwf.parent_lt ((hwf.mem_children hp).mp hc)
    have hseq : ∀ i < t.nodes.length, t.seqOf i = i := by
      intro i hi
      rcases Nat.eq_zero_or_pos i with rfl | hpos
      · rw [seqOf, hwf.root.1]
        rfl
      · obtain ⟨e, he, hseq, -⟩ := hwf.header i hpos hi
        rw [seqOf, he]
        exact hseq
    rw [hseq p hp, hseq c hcp.2]
    exact hcp.1
  · rw [hlast]
    exact entries_seq hwf

/-- Two branches below the original text: both headers are reported. -/
theorem undo_tree_invariants_branches :
    ∃ t : UndoTree, t.current = 2 ∧ t.summary.seqLast = 2 ∧
      ((reportedAll t.entries).map (·.seq)).Perm (List.range' 1 t.summary.seqLast) := by
  let edit : LineEdit := ⟨1, [[]], [[97]], {}, {}⟩
  obtain ⟨-, -, -, -, hperm, -⟩ := undo_tree_invariants
    (reachable_foldl [.record edit 0, .undo, .record edit 0])
  exact ⟨_, by decide, by decide, hperm⟩

end UndoTree

end Oxvim.Text
