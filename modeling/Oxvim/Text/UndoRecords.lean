import Oxvim.Text.UndoEntries

/-!
# The links of an undo file

`headerRecords` and `summary` are what an undo file keeps of a tree. Read back by sequence numbers,
the four links of the records are the links of the tree: `prev` follows the active branch, `altNext`
and `altPrev` follow the sibling chains in both directions, and `next` leads to the parent. So the
records and the summary of a tree determine it, up to whether its newest header is closed.
-/

namespace Oxvim.Text.UndoTree

open Lib Links

variable {t t' : UndoTree}

/-! ## Reading records back -/

/-- The record with a sequence number. -/
def recordOf (records : List HeaderRecord) (seq : Nat) : Option HeaderRecord :=
  records.find? (·.seq == seq)

/-- A link, where zero stands for none. -/
def linked (seq : Nat) : Option Nat := if seq = 0 then none else some seq

/-- A link of the record with a sequence number. -/
def linkOf (records : List HeaderRecord) (link : HeaderRecord → Nat) (seq : Nat) : Option Nat :=
  (recordOf records seq).bind fun record => linked (link record)

/-- What is met by following a link from a start. -/
def follow (next : Nat → Option Nat) : Nat → Option Nat → List Nat
  | 0, _ => []
  | _ + 1, none => []
  | n + 1, some x => x :: follow next n (next x)

/-- The headers of the active branch, oldest first. -/
def activeBranch (t : UndoTree) : List Nat :=
  follow t.activeChild t.nodes.length (t.activeChild 0)

/-- The sequence of the header that the next redo reapplies, zero where there is none. -/
def redoSeq (t : UndoTree) : Nat :=
  match redo t with
  | .ok (.redo entry) _ => entry.seq
  | _ => 0

/-! ## The alternate links backwards -/

/-- The element that `x` follows. -/
def prevIn (l : List Nat) (x : Nat) : Option Nat :=
  if l.idxOf x = 0 then none else l[l.idxOf x - 1]?

/-- The backward alternate link of a node. -/
def altPrev (t : UndoTree) (x : Nat) : Option Nat := t.altLinks.2.getD x none

theorem foldl_pair_snd (l : List (Nat × Nat)) (v w : Nat → Option Nat)
    (links : List (Option Nat) × List (Option Nat)) :
    (l.foldl (fun (a, b) (x, k) => (a.set x (v k), b.set x (w k))) links).2
      = l.foldl (fun links p => links.set p.1 (w p.2)) links.2 := by
  induction l generalizing links with
  | nil => rfl
  | cons p l ih => exact ih _

theorem linkSiblings_cons_snd {links : List (Option Nat) × List (Option Nat)} {p newest : Nat}
    {older : List Nat} (hi : t.inactive p = newest :: older) :
    (t.linkSiblings links p).2 = (newest :: older).zipIdx.foldl
      (fun links q => links.set q.1
        (if q.2 = 0 then t.activeChild p else (newest :: older)[q.2 - 1]?)) links.2 := by
  rw [linkSiblings, hi]
  exact foldl_pair_snd _ (fun slot => (newest :: older)[slot + 1]?)
    (fun slot => if slot = 0 then t.activeChild p else (newest :: older)[slot - 1]?) _

/-- The backward links among the children of `p` follow its chain; the links of other nodes stay. -/
theorem linkSiblings_altPrev (h : WellFormed t) {p : Nat} (hp : p < t.nodes.length)
    {links : List (Option Nat) × List (Option Nat)} (hlen : links.2.length = t.nodes.length)
    {x : Nat} (hx : x < t.nodes.length)
    (hnone : (t.node x).parent = some p → links.2.getD x none = none) :
    (t.linkSiblings links p).2.length = t.nodes.length ∧
      (t.linkSiblings links p).2.getD x none
        = if (t.node x).parent = some p then prevIn (t.siblingChain p) x
          else links.2.getD x none := by
  have hnodup := nodup_inactive h hp
  have hinactive := mem_inactive h (c := x) hp
  -- the active child begins the chain, and is linked back to nothing
  have hactive : t.activeChild p = some x → links.2.getD x none = prevIn (t.siblingChain p) x := by
    intro hactive
    rw [hnone (h.activeChild_mem hactive), siblingChain, hactive, prevIn, Option.toList_some,
      List.singleton_append, List.idxOf_cons_self, if_pos rfl]
  have houtside : x ∉ t.inactive p → links.2.getD x none
      = if (t.node x).parent = some p then prevIn (t.siblingChain p) x
        else links.2.getD x none := by
    intro hnot
    split
    · next hxp =>
      apply hactive
      by_contra hne
      exact hnot (hinactive.mpr ⟨hxp, hne⟩)
    · rfl
  cases hi : t.inactive p with
  | nil =>
    rw [linkSiblings_nil hi]
    exact ⟨hlen, houtside (by rw [hi]; exact List.not_mem_nil)⟩
  | cons newest older =>
    have hnewest := ((mem_inactive h (c := newest) hp).mp (by simp [hi])).1
    obtain ⟨c, hc⟩ := h.activeChild_isSome hp
      (List.ne_nil_of_mem ((h.mem_children hp).mpr hnewest))
    have hchain : t.siblingChain p = c :: newest :: older := by
      rw [siblingChain, hi, hc]
      rfl
    rw [hi] at hnodup
    rw [linkSiblings_cons_snd hi, hc, length_foldl_set _ fun slot =>
      if slot = 0 then some c else (newest :: older)[slot - 1]?]
    refine ⟨hlen, ?_⟩
    rw [getD_foldl_set hnodup
      (fun slot => if slot = 0 then some c else (newest :: older)[slot - 1]?)
      0 (by simpa [hlen] using hx), Nat.zero_add]
    by_cases hin : x ∈ newest :: older
    · have hmem := hinactive.mp (hi ▸ hin)
      have hxc : c ≠ x := fun hcx => hmem.2 (hcx ▸ hc)
      rw [if_pos hin, if_pos hmem.1, hchain, prevIn, List.idxOf_cons_ne _ hxc,
        if_neg (Nat.succ_ne_zero _), Nat.succ_eq_add_one, Nat.add_sub_cancel]
      cases (newest :: older).idxOf x with
      | zero => rfl
      | succ k => rfl
    · rw [if_neg hin]
      exact houtside (hi ▸ hin)

/-- After the first `k` parents their children are linked back, and no other node is. -/
theorem foldl_linkSiblings_snd (h : WellFormed t) {k : Nat} (hk : k ≤ t.nodes.length) :
    let start := (List.replicate t.nodes.length (none : Option Nat),
      List.replicate t.nodes.length (none : Option Nat))
    let links := ((List.range k).foldl t.linkSiblings start).2
    links.length = t.nodes.length ∧ ∀ x < t.nodes.length, links.getD x none
      = (t.node x).parent.bind fun p => if p < k then prevIn (t.siblingChain p) x else none := by
  intro start
  induction k with
  | zero =>
    refine ⟨by simp [start], fun x hx => ?_⟩
    simp only [List.range_zero, List.foldl_nil, start]
    cases (t.node x).parent <;> simp [hx]
  | succ k ih =>
    obtain ⟨hlen, hget⟩ := ih (by omega)
    have hstep := fun x hx => linkSiblings_altPrev h (show k < t.nodes.length by omega) hlen
      (x := x) hx (by
        intro hxk
        rw [hget x hx, hxk]
        simp)
    rw [List.range_succ, List.foldl_append, List.foldl_cons, List.foldl_nil]
    refine ⟨(hstep 0 (by omega)).1, fun x hx => ?_⟩
    rw [(hstep x hx).2, hget x hx]
    cases hpx : (t.node x).parent with
    | none => simp
    | some p =>
      by_cases hpk : p = k
      · simp [hpk]
      · have hlt : p < k + 1 ↔ p < k := by omega
        simp only [Option.some.injEq, hpk, if_false, Option.bind_some, hlt]

theorem altPrev_of_le (h : WellFormed t) {x : Nat} (hx : t.nodes.length ≤ x) :
    t.altPrev x = none := by
  have hlen : t.altLinks.2.length = t.nodes.length := (foldl_linkSiblings_snd h (Nat.le_refl _)).1
  rw [altPrev, List.getD_eq_getElem?_getD, List.getElem?_eq_none (hlen ▸ hx)]
  rfl

/-- Every child is linked back to the one before it in its chain. -/
theorem altPrev_eq (h : WellFormed t) {x : Nat} (hx : x < t.nodes.length) :
    t.altPrev x = (t.node x).parent.bind fun p => prevIn (t.siblingChain p) x := by
  have hlinks := (foldl_linkSiblings_snd h (Nat.le_refl _)).2 x hx
  show ((List.range t.nodes.length).foldl t.linkSiblings _).2.getD x none = _
  rw [hlinks]
  cases hpx : (t.node x).parent with
  | none => rfl
  | some p => simp [Nat.lt_trans (h.parent_lt hpx).1 hx]

/-- A backward link leads to the sibling before. -/
theorem altPrev_eq_some (h : WellFormed t) {x y : Nat} :
    t.altPrev y = some x ↔ ∃ p, (t.node x).parent = some p ∧ (t.node y).parent = some p ∧
      t.slot y = t.slot x + 1 := by
  have hchain : ∀ {z p}, (t.node z).parent = some p → p < t.nodes.length := fun hp =>
    Nat.lt_trans (h.parent_lt hp).1 (h.parent_lt hp).2
  constructor
  · intro halt
    have hy : y < t.nodes.length := by
      by_contra hy
      rw [altPrev_of_le h (Nat.le_of_not_lt hy)] at halt
      cases halt
    rw [altPrev_eq h hy] at halt
    obtain ⟨p, hp, hprev⟩ := Option.bind_eq_some_iff.mp halt
    rw [prevIn, Option.ite_none_left_eq_some] at hprev
    obtain ⟨hpos, hprev⟩ := hprev
    obtain ⟨hlt, hget⟩ := List.getElem?_eq_some_iff.mp hprev
    have hx : (t.node x).parent = some p :=
      (mem_siblingChain h (hchain hp)).mp (List.mem_of_getElem? hprev)
    refine ⟨p, hx, hp, ?_⟩
    rw [slot_eq hp, slot_eq hx, ← hget, (nodup_siblingChain h (hchain hp)).idxOf_getElem]
    omega
  · rintro ⟨p, hx, hp, hslot⟩
    rw [altPrev_eq h (h.parent_lt hp).2, hp, Option.bind_some, prevIn, ← slot_eq hp, hslot,
      if_neg (Nat.succ_ne_zero _), Nat.add_sub_cancel, slot_eq hx]
    exact List.getElem?_idxOf ((mem_siblingChain h (hchain hp)).mpr hx)

/-- The alternate links are inverse to each other. -/
theorem altPrev_iff_altNext (h : WellFormed t) {x y : Nat} :
    t.altPrev y = some x ↔ t.altNext x = some y :=
  (altPrev_eq_some h).trans (altNext_eq_some h).symm

/-! ## The records -/

/-- The record of a header. -/
def recordAt (t : UndoTree) (i : Nat) (entry : UndoEntry) : HeaderRecord where
  seq := entry.seq
  timestamp := entry.timestamp
  edits := entry.edits
  next := (t.node i).parent.elim 0 t.seqOf
  prev := (t.activeChild i).elim 0 t.seqOf
  altNext := (t.altNext i).elim 0 t.seqOf
  altPrev := (t.altPrev i).elim 0 t.seqOf

theorem mem_headerRecords {r : HeaderRecord} : r ∈ t.headerRecords ↔
    ∃ i e, i < t.nodes.length ∧ (t.node i).entry = some e ∧ r = t.recordAt i e := by
  rw [headerRecords]
  simp only [List.mem_filterMap, Prod.exists, List.mem_zipIdx_iff_getElem?, Option.map_eq_some_iff]
  constructor
  · rintro ⟨node, i, hnode, e, he, rfl⟩
    obtain ⟨hi, rfl⟩ := List.getElem?_eq_some_iff.mp hnode
    have hread : t.node i = t.nodes[i] := by simp [node, hi]
    refine ⟨i, e, hi, hread ▸ he, ?_⟩
    rw [recordAt, hread]
    rfl
  · rintro ⟨i, e, hi, he, rfl⟩
    have hread : t.node i = t.nodes[i] := by simp [node, hi]
    refine ⟨t.nodes[i], i, List.getElem?_eq_getElem hi, e, hread ▸ he, ?_⟩
    rw [recordAt, hread]
    rfl

theorem headerRecords_seq (h : WellFormed t) :
    t.headerRecords.map (·.seq) = List.range' 1 (t.nodes.length - 1) := by
  rw [← h.header_seqs, headerRecords, List.map_filterMap]
  conv_rhs => rw [← List.zipIdx_map_fst 0 t.nodes, List.filterMap_map]
  refine List.filterMap_congr fun p _ => ?_
  simp only [Function.comp_apply, Option.map_map]
  rfl

theorem length_headerRecords (h : WellFormed t) : t.headerRecords.length + 1 = t.nodes.length := by
  have hlength := congrArg List.length (headerRecords_seq h)
  have hpos := Nat.lt_of_le_of_lt (Nat.zero_le _) h.current_lt
  rw [List.length_map, List.length_range'] at hlength
  omega

theorem seqOf_eq (h : WellFormed t) {i : Nat} (hi : i < t.nodes.length) : t.seqOf i = i := by
  rcases Nat.eq_zero_or_pos i with rfl | hpos
  · rw [seqOf, h.root.1]
    rfl
  · obtain ⟨e, he, hseq, -⟩ := h.header i hpos hi
    rw [seqOf, he]
    exact hseq

/-- A search for the key of an element finds it, where keys are different. -/
theorem find?_of_nodup {α : Type} {key : α → Nat} {l : List α} (h : (l.map key).Nodup) {x : α}
    (hx : x ∈ l) : l.find? (key · == key x) = some x := by
  induction l with
  | nil => cases hx
  | cons y l ih =>
    obtain ⟨hy, hl⟩ := List.nodup_cons.mp h
    rcases List.mem_cons.mp hx with rfl | hx
    · exact List.find?_cons_of_pos (beq_self_eq_true _)
    · have hne : key y ≠ key x := fun heq => hy (heq ▸ List.mem_map_of_mem hx)
      rw [List.find?_cons_of_neg (by simpa using hne)]
      exact ih hl hx

theorem recordOf_eq (h : WellFormed t) {i : Nat} (hpos : 0 < i) (hi : i < t.nodes.length) :
    ∃ e, (t.node i).entry = some e ∧ recordOf t.headerRecords i = some (t.recordAt i e) := by
  obtain ⟨e, he, hseq, -⟩ := h.header i hpos hi
  have hmem := mem_headerRecords.mpr ⟨i, e, hi, he, rfl⟩
  have hnodup : (t.headerRecords.map (·.seq)).Nodup := by
    rw [headerRecords_seq h]
    exact List.nodup_range'
  have hfind := find?_of_nodup hnodup hmem
  refine ⟨e, he, ?_⟩
  rw [← hfind]
  show t.headerRecords.find? (·.seq == i) = t.headerRecords.find? (·.seq == e.seq)
  rw [hseq]

theorem recordOf_none (h : WellFormed t) {i : Nat} (hi : i = 0 ∨ t.nodes.length ≤ i) :
    recordOf t.headerRecords i = none := by
  rw [recordOf, List.find?_eq_none]
  intro r hr hseq
  have hmem : r.seq ∈ t.headerRecords.map (·.seq) := List.mem_map_of_mem hr
  rw [headerRecords_seq h, List.mem_range'_1, beq_iff_eq.mp hseq] at hmem
  omega

/-- A link of the records is the link of the tree that it is taken from. -/
theorem linkOf_eq (h : WellFormed t) {link : HeaderRecord → Nat} {target : Nat → Option Nat}
    (hlink : ∀ i e, link (t.recordAt i e) = (target i).elim 0 t.seqOf) {i : Nat} (hpos : 0 < i)
    (htarget : ∀ j, target i = some j → 0 < j ∧ j < t.nodes.length)
    (hoff : t.nodes.length ≤ i → target i = none) : linkOf t.headerRecords link i = target i := by
  rw [linkOf]
  rcases Nat.lt_or_ge i t.nodes.length with hi | hi
  · obtain ⟨e, -, hrecord⟩ := recordOf_eq h hpos hi
    rw [hrecord, Option.bind_some, hlink]
    cases htargeti : target i with
    | none => rfl
    | some j =>
      obtain ⟨hj, hlt⟩ := htarget j htargeti
      rw [Option.elim_some, seqOf_eq h hlt, linked, if_neg hj.ne']
  · rw [recordOf_none h (.inr hi), hoff hi]
    rfl

theorem child_bounds (h : WellFormed t) {p c : Nat} (hp : (t.node c).parent = some p) :
    0 < c ∧ c < t.nodes.length :=
  ⟨Nat.lt_of_le_of_lt (Nat.zero_le _) (h.parent_lt hp).1, (h.parent_lt hp).2⟩

theorem activeChild_of_le {i : Nat} (hi : t.nodes.length ≤ i) : t.activeChild i = none := by
  rw [activeChild, node_of_le hi]
  rfl

theorem linkOf_prev (h : WellFormed t) {i : Nat} (hpos : 0 < i) :
    linkOf t.headerRecords (·.prev) i = t.activeChild i :=
  linkOf_eq h (fun _ _ => rfl) hpos (fun _ hj => child_bounds h (h.activeChild_mem hj))
    activeChild_of_le

theorem linkOf_zero (h : WellFormed t) (link : HeaderRecord → Nat) :
    linkOf t.headerRecords link 0 = none := by
  rw [linkOf, recordOf_none h (.inl rfl)]
  rfl

theorem linkOf_altNext (h : WellFormed t) (i : Nat) :
    linkOf t.headerRecords (·.altNext) i = t.altNext i := by
  rcases Nat.eq_zero_or_pos i with rfl | hpos
  · rw [linkOf_zero h, altNext_eq h (Nat.lt_of_le_of_lt (Nat.zero_le _) h.current_lt), h.root.2]
    rfl
  · refine linkOf_eq h (fun _ _ => rfl) hpos (fun j hj => ?_) (altNext_of_le h)
    obtain ⟨p, -, hp, -⟩ := (altNext_eq_some h).mp hj
    exact child_bounds h hp

theorem linkOf_altPrev (h : WellFormed t) (i : Nat) :
    linkOf t.headerRecords (·.altPrev) i = t.altPrev i := by
  rcases Nat.eq_zero_or_pos i with rfl | hpos
  · rw [linkOf_zero h, altPrev_eq h (Nat.lt_of_le_of_lt (Nat.zero_le _) h.current_lt), h.root.2]
    rfl
  · refine linkOf_eq h (fun _ _ => rfl) hpos (fun j hj => ?_) (altPrev_of_le h)
    obtain ⟨p, hp, -, -⟩ := (altPrev_eq_some h).mp hj
    exact child_bounds h hp

/-! ## The active branch -/

theorem follow_eq_visit (next : Nat → Option Nat) (n : Nat) (s : Option Nat) :
    follow next n s = visit (fun _ => none) next n s := by
  induction n generalizing s with
  | zero => rfl
  | succ n ih =>
    cases s with
    | none => rfl
    | some x => rw [follow, visit, visit_none, List.nil_append, ih]

/-- The end of what is followed is the leaf. -/
theorem getLast?_follow (fuel s : Nat) :
    (s :: follow t.activeChild fuel (t.activeChild s)).getLast? = some (t.activeLeaf fuel s) := by
  induction fuel generalizing s with
  | zero => rfl
  | succ fuel ih =>
    rw [activeLeaf]
    cases hs : t.activeChild s with
    | none => rfl
    | some c =>
      rw [follow, List.getLast?_cons_cons]
      exact ih c

theorem activeLeaf_reach (fuel s : Nat) :
    Relation.ReflTransGen t.Active s (t.activeLeaf fuel s) := by
  induction fuel generalizing s with
  | zero => exact .refl
  | succ fuel ih =>
    rw [activeLeaf]
    cases hs : t.activeChild s with
    | none => exact .refl
    | some c => exact .head hs (ih c)

/-- The branch of the current node is that of the root. -/
theorem activeLeaf_root (h : WellFormed t) :
    t.activeLeaf t.nodes.length 0 = t.activeLeaf t.nodes.length t.current := by
  have hroot := Nat.lt_of_le_of_lt (Nat.zero_le _) h.current_lt
  obtain ⟨-, -, hend⟩ := activeLeaf_spec t.nodes.length h hroot (by omega)
  obtain ⟨-, -, hend'⟩ := activeLeaf_spec t.nodes.length h h.current_lt (by omega)
  have hunique : Relator.RightUnique t.Active := by
    intro a b c hb hc
    exact Option.some.inj (hb.symm.trans hc)
  have hstop : ∀ {a b}, t.activeChild a = none → Relation.ReflTransGen t.Active a b → a = b := by
    intro a b ha hab
    rcases Relation.ReflTransGen.cases_head hab with rfl | ⟨c, hac, -⟩
    · rfl
    · rw [Active, ha] at hac
      cases hac
  rcases Relation.ReflTransGen.total_of_right_unique hunique (activeLeaf_reach t.nodes.length 0)
    (h.active.trans (activeLeaf_reach t.nodes.length t.current)) with hab | hba
  · exact hstop hend hab
  · exact (hstop hend' hba).symm

theorem linked_seqOf (h : WellFormed t) {o : Option Nat}
    (ho : ∀ j, o = some j → 0 < j ∧ j < t.nodes.length) : linked (o.elim 0 t.seqOf) = o := by
  cases o with
  | none => rfl
  | some j =>
    obtain ⟨hj, hlt⟩ := ho j rfl
    rw [Option.elim_some, seqOf_eq h hlt, linked, if_neg hj.ne']

theorem linked_oldhead (h : WellFormed t) : linked t.summary.oldhead = t.activeChild 0 :=
  linked_seqOf h fun _ hj => child_bounds h (h.activeChild_mem hj)

theorem visit_records (h : WellFormed t) (n : Nat) :
    visit (linkOf t.headerRecords (·.altNext)) (linkOf t.headerRecords (·.prev)) n
        (t.activeChild 0)
      = visit t.altNext t.activeChild n (t.activeChild 0) := by
  refine visit_congr (p := (0 < ·)) (fun x _ => linkOf_altNext h x) (fun x hx => linkOf_prev h hx)
    ?_ n fun x hx => (child_bounds h (h.activeChild_mem hx)).1
  rintro x y - (hxy | hxy)
  · obtain ⟨p, -, hp, -⟩ := (altNext_eq_some h).mp hxy
    exact (child_bounds h hp).1
  · exact (child_bounds h (h.activeChild_mem hxy)).1

theorem follow_records (h : WellFormed t) (n : Nat) :
    follow (linkOf t.headerRecords (·.prev)) n (t.activeChild 0)
      = follow t.activeChild n (t.activeChild 0) := by
  rw [follow_eq_visit, follow_eq_visit]
  refine visit_congr (p := (0 < ·)) (fun _ _ => rfl) (fun x hx => linkOf_prev h hx) ?_ n
    fun x hx => (child_bounds h (h.activeChild_mem hx)).1
  rintro x y - (hxy | hxy)
  · cases hxy
  · exact (child_bounds h (h.activeChild_mem hxy)).1

theorem lt_of_mem_activeBranch (h : WellFormed t) {x : Nat} (hx : x ∈ t.activeBranch) :
    x < t.nodes.length := by
  rw [activeBranch, follow_eq_visit] at hx
  cases hs : t.activeChild 0 with
  | none => simp [hs] at hx
  | some s =>
    rw [hs] at hx
    rcases Relation.ReflTransGen.cases_tail (reach_of_mem_visit hx) with rfl | ⟨y, -, hyx | hyx⟩
    · exact (child_bounds h (h.activeChild_mem hs)).2
    · cases hyx
    · exact (child_bounds h (h.activeChild_mem hyx)).2

theorem map_seqOf_activeBranch (h : WellFormed t) : t.activeBranch.map t.seqOf = t.activeBranch :=
  (List.map_congr_left fun _ hx => seqOf_eq h (lt_of_mem_activeBranch h hx)).trans (List.map_id _)

theorem newhead_eq (h : WellFormed t) : t.summary.newhead = t.activeBranch.getLast?.getD 0 := by
  have hlast := getLast?_follow (t := t) t.nodes.length 0
  rw [activeLeaf_root h] at hlast
  obtain ⟨-, hlt, -⟩ := activeLeaf_spec t.nodes.length h h.current_lt (by omega)
  show t.seqOf (t.activeLeaf t.nodes.length t.current) = _
  rw [seqOf_eq h hlt]
  change (0 :: t.activeBranch).getLast? = _ at hlast
  cases hbranch : t.activeBranch with
  | nil =>
    rw [hbranch] at hlast
    exact (Option.some.inj hlast).symm
  | cons x branch =>
    rw [hbranch, List.getLast?_cons_cons] at hlast
    rw [hlast]
    rfl

/-- The child that the next redo enters is the active one. -/
theorem redoSeq_eq (h : WellFormed t) :
    t.redoSeq = (t.activeChild t.current).elim 0 t.seqOf := by
  have hbranch : (t.node t.current).children[(t.node t.current).preferredChild.getD
      ((t.node t.current).children.length - 1)]? = t.activeChild t.current := by
    rw [activeChild]
    cases (t.node t.current).preferredChild with
    | none => exact List.getLast?_eq_getElem?.symm
    | some k => rfl
  rw [redoSeq, redo_eq]
  rcases redoBranch_run h ((t.node t.current).preferredChild.getD
    ((t.node t.current).children.length - 1)) with
    ⟨hnone, err, hrun⟩ | ⟨e, c, t', hc, he, -, hrun, -⟩
  · rw [hrun, ← hbranch, hnone]
    rfl
  · rw [hrun, ← hbranch, hc, Option.elim_some, seqOf, he]
    rfl

/-! ## The tree that the records describe -/

theorem entry_of_recordAt (h : WellFormed t) (h' : WellFormed t') {i : Nat} {e e' : UndoEntry}
    (hi : (t.node i).entry = some e) (hi' : (t'.node i).entry = some e')
    (hlt : i < t.nodes.length) (hlt' : i < t'.nodes.length)
    (heq : t.recordAt i e = t'.recordAt i e') :
    (t.node i).entry = (t'.node i).entry ∧ (t.node i).parent = (t'.node i).parent := by
  have hentry : e = e' := by
    have hseq := congrArg HeaderRecord.seq heq
    have htimestamp := congrArg HeaderRecord.timestamp heq
    have hedits := congrArg HeaderRecord.edits heq
    cases e
    cases e'
    simp only [recordAt] at hseq htimestamp hedits
    rw [hseq, htimestamp, hedits]
  have hpos : 0 < i := by
    rcases Nat.eq_zero_or_pos i with rfl | hpos
    · rw [h.root.1] at hi
      cases hi
    · exact hpos
  obtain ⟨p, hp, hpi⟩ := h.parent i hpos hlt
  obtain ⟨p', hp', hpi'⟩ := h'.parent i hpos hlt'
  have hnext : t.seqOf p = t'.seqOf p' := by
    have hnext := congrArg HeaderRecord.next heq
    rwa [recordAt, recordAt, hp, hp'] at hnext
  rw [seqOf_eq h (by omega), seqOf_eq h' (by omega)] at hnext
  exact ⟨by rw [hi, hi', hentry], by rw [hp, hp', hnext]⟩

/-- A preferred child is known by the active child. -/
theorem preferredChild_eq (h : WellFormed t) (h' : WellFormed t') {p : Nat}
    (hp : p < t.nodes.length) (hp' : p < t'.nodes.length)
    (hchildren : (t.node p).children = (t'.node p).children)
    (hactive : t.activeChild p = t'.activeChild p) :
    (t.node p).preferredChild = (t'.node p).preferredChild := by
  have hpref := h.preferred p hp
  have hpref' := h'.preferred p hp'
  rw [activeChild, activeChild, ← hchildren] at hactive
  rw [← hchildren] at hpref'
  cases hk : (t.node p).preferredChild with
  | none =>
    rw [hk] at hpref
    cases hk' : (t'.node p).preferredChild with
    | none => rfl
    | some k' =>
      rw [hk', show (t.node p).children = [] from hpref] at hpref'
      cases hpref'
  | some k =>
    rw [hk] at hpref hactive
    cases hk' : (t'.node p).preferredChild with
    | none =>
      rw [hk'] at hpref'
      rw [show (t.node p).children = [] from hpref'] at hpref
      cases hpref
    | some k' =>
      rw [hk'] at hpref' hactive
      rw [(List.getElem?_inj hpref (h.nodup_children hp)).mp hactive]

/-- Records and summary determine the tree, but for whether its newest header is closed. -/
theorem determined (h : WellFormed t) (h' : WellFormed t')
    (hrecords : t'.headerRecords = t.headerRecords) (hsummary : t'.summary = t.summary) :
    t' = { t with synced := t'.synced } := by
  have hlength : t'.nodes.length = t.nodes.length := by
    rw [← length_headerRecords h, ← length_headerRecords h', hrecords]
  have hcurrent : t'.current = t.current := by
    rw [← h.currentSeq, ← h'.currentSeq]
    exact congrArg UndoSummary.seqCur hsummary
  have hshape : ∀ i, i < t.nodes.length → (t'.node i).entry = (t.node i).entry ∧
      (t'.node i).parent = (t.node i).parent := by
    intro i hi
    rcases Nat.eq_zero_or_pos i with rfl | hpos
    · rw [h.root.1, h'.root.1, h.root.2, h'.root.2]
      exact ⟨rfl, rfl⟩
    · obtain ⟨e, he, hrecord⟩ := recordOf_eq h hpos hi
      obtain ⟨e', he', hrecord'⟩ := recordOf_eq h' hpos (hlength ▸ hi)
      rw [hrecords, hrecord] at hrecord'
      exact entry_of_recordAt h' h he' he (hlength ▸ hi) hi (Option.some.inj hrecord').symm
  have hchildren : ∀ i, i < t.nodes.length → (t'.node i).children = (t.node i).children := by
    intro p hp
    rw [h.children p hp, h'.children p (hlength ▸ hp), hlength]
    refine List.filter_congr fun i hi => ?_
    rw [(hshape i (List.mem_range.mp hi)).2]
  have hactive : ∀ i, t'.activeChild i = t.activeChild i := by
    intro i
    rcases Nat.eq_zero_or_pos i with rfl | hpos
    · rw [← linked_oldhead h, ← linked_oldhead h', hsummary]
    · rw [← linkOf_prev h hpos, ← linkOf_prev h' hpos, hrecords]
  have hnode : ∀ i, i < t.nodes.length → t'.node i = t.node i := by
    intro i hi
    have hpreferred := preferredChild_eq h' h (hlength ▸ hi) hi (hchildren i hi) (hactive i)
    have hchild := hchildren i hi
    obtain ⟨hentry, hparent⟩ := hshape i hi
    cases hn : t.node i
    cases hn' : t'.node i
    rw [hn, hn'] at hentry hparent hpreferred hchild
    simp only at hentry hparent hpreferred hchild
    rw [hentry, hparent, hpreferred, hchild]
  have hnodes : t'.nodes = t.nodes := by
    refine List.ext_getElem hlength fun i hi' hi => ?_
    have hread := hnode i hi
    rwa [UndoTree.node, UndoTree.node, List.getD_eq_getElem _ _ hi, List.getD_eq_getElem _ _ hi']
      at hread
  have hseq : t'.nextSeq = t.nextSeq := by rw [← h.length, ← h'.length, hlength]
  cases t'
  cases t
  cases hnodes
  cases hcurrent
  cases hseq
  rfl

/-- What the records and the summary of an undo file say about a tree. -/
structure Describes (records : List HeaderRecord) (summary : UndoSummary) (t : UndoTree) :
    Prop where
  /-- `prev` leads from the oldest header along the active branch, to the newest one. -/
  branch : follow (linkOf records (·.prev)) (records.length + 1) (linked summary.oldhead)
    = t.activeBranch.map t.seqOf
  newhead : summary.newhead = (t.activeBranch.map t.seqOf).getLast?.getD 0
  /-- The alternate links are inverse to each other. -/
  inverse : ∀ a b, linkOf records (·.altNext) a = some b ↔ linkOf records (·.altPrev) b = some a
  /-- `prev` and `altNext` lead from the oldest header to every header in one way. -/
  once : (visit (linkOf records (·.altNext)) (linkOf records (·.prev)) (records.length + 1)
    (linked summary.oldhead)).Perm (records.map (·.seq))
  /-- `next` is the sequence of the parent. -/
  next : ∀ i e, (t.node i).entry = some e → ∃ p, (t.node i).parent = some p ∧
    (recordOf records e.seq).map (·.next) = some (t.seqOf p)
  curhead : summary.curhead = t.redoSeq
  /-- No other tree has these records and this summary. -/
  determined : ∀ t', Reachable (· = new) Step t' → t'.headerRecords = records →
    t'.summary = summary → t' = { t with synced := t'.synced }

/-- The links of an undo file describe the tree. -/
theorem headerRecords_describe (h : Reachable (· = new) Step t) :
    Describes t.headerRecords t.summary t := by
  have hwf := wellFormed_of_reachable h
  refine ⟨?_, ?_, ?_, ?_, ?_, ?_, ?_⟩
  · rw [linked_oldhead hwf, length_headerRecords hwf, follow_records hwf,
      map_seqOf_activeBranch hwf]
    rfl
  · rw [map_seqOf_activeBranch hwf]
    exact newhead_eq hwf
  · intro a b
    rw [linkOf_altNext hwf, linkOf_altPrev hwf]
    exact (altPrev_iff_altNext hwf).symm
  · rw [linked_oldhead hwf, length_headerRecords hwf, visit_records hwf, headerRecords_seq hwf]
    refine (List.perm_ext_iff_of_nodup (nodup_visited hwf) List.nodup_range').mpr fun x => ?_
    rw [mem_visited hwf, List.mem_range'_1]
    omega
  · intro i e he
    have hi : i < t.nodes.length := by
      by_contra hi
      rw [node_of_le (Nat.le_of_not_lt hi)] at he
      cases he
    have hpos : 0 < i := by
      rcases Nat.eq_zero_or_pos i with rfl | hpos
      · rw [hwf.root.1] at he
        cases he
      · exact hpos
    obtain ⟨e', he', hseq, -⟩ := hwf.header i hpos hi
    obtain ⟨p, hp, -⟩ := hwf.parent i hpos hi
    obtain ⟨e'', -, hrecord⟩ := recordOf_eq hwf hpos hi
    cases he.symm.trans he'
    refine ⟨p, hp, ?_⟩
    rw [hseq, hrecord, Option.map_some, recordAt, hp]
    rfl
  · exact (redoSeq_eq hwf).symm
  · intro t' ht' hrecords hsummary
    exact determined hwf (wellFormed_of_reachable ht') hrecords hsummary

/-- Two branches below the original text. -/
theorem headerRecords_describe_branches :
    ∃ t : UndoTree, t.headerRecords.map (·.seq) = [1, 2] ∧
      t.headerRecords.map (·.altNext) = [0, 1] ∧
      Describes t.headerRecords t.summary t := by
  let edit : LineEdit := ⟨1, [[]], [[97]], {}, {}⟩
  refine ⟨_, ?_, ?_, headerRecords_describe
    (reachable_foldl [.record edit 0, .undo, .record edit 0])⟩
  · decide +kernel
  · decide +kernel

end Oxvim.Text.UndoTree
