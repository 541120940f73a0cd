import Oxvim.Text.Undo
import Oxvim.Lib.Transition

/-!
# The undo tree is a tree

`UndoTree.WellFormed` is what every run of operations keeps: node `i` carries sequence number `i`
and hangs below a smaller node, the children lists are the parent links read backwards, and the
current node lies on the active branch.

Navigation moves `current` and the preferred children and nothing else (`SameShape`). Its result is
described by `Walk`, the steps of a walk along parent links; `undoToSeq_ok` says that the walk ends
at the requested header, so the fuel of the loops is enough.
-/

namespace Oxvim.Text.UndoTree

open Lib EState

variable {t t' : UndoTree}

/-! ## Reading nodes back -/

theorem node_modifyNode (t : UndoTree) (i j : Nat) (f : Node → Node) :
    (t.modifyNode i f).node j
      = if i = j ∧ j < t.nodes.length then f (t.node j) else t.node j := by
  simp only [node, modifyNode, List.getD_eq_getElem?_getD, List.getElem?_modify]
  by_cases hj : j < t.nodes.length
  · by_cases hij : i = j <;> simp [hij, hj]
  · simp [hj]

@[simp] theorem length_modifyNode (t : UndoTree) (i : Nat) (f : Node → Node) :
    (t.modifyNode i f).nodes.length = t.nodes.length := by
  simp [modifyNode]

@[simp] theorem current_modifyNode (t : UndoTree) (i : Nat) (f : Node → Node) :
    (t.modifyNode i f).current = t.current := rfl

@[simp] theorem nextSeq_modifyNode (t : UndoTree) (i : Nat) (f : Node → Node) :
    (t.modifyNode i f).nextSeq = t.nextSeq := rfl

theorem node_of_le {i : Nat} (h : t.nodes.length ≤ i) : t.node i = {} := by
  simp [node, List.getElem?_eq_none h]

/-- `Active t m n`: the active branch goes from `m` to `n`. -/
def Active (t : UndoTree) (m n : Nat) : Prop := t.activeChild m = some n

/-- What every run keeps. -/
structure WellFormed (t : UndoTree) : Prop where
  length : t.nodes.length = t.nextSeq
  current_lt : t.current < t.nodes.length
  root : (t.node 0).entry = none ∧ (t.node 0).parent = none
  header : ∀ i, 0 < i → i < t.nodes.length →
    ∃ e, (t.node i).entry = some e ∧ e.seq = i ∧ e.edits ≠ []
  parent : ∀ i, 0 < i → i < t.nodes.length → ∃ p, (t.node i).parent = some p ∧ p < i
  children : ∀ p, p < t.nodes.length → (t.node p).children
    = (List.range t.nodes.length).filter fun i => (t.node i).parent = some p
  preferred : ∀ p, p < t.nodes.length → match (t.node p).preferredChild with
    | none => (t.node p).children = []
    | some k => k < (t.node p).children.length
  active : Relation.ReflTransGen t.Active 0 t.current
  openLeaf : t.synced = false → t.current ≠ 0 ∧ (t.node t.current).children = []

/-! ## What a well-formed tree says -/

namespace WellFormed

theorem parent_lt (h : WellFormed t) {i p : Nat} (hp : (t.node i).parent = some p) :
    p < i ∧ i < t.nodes.length := by
  have hi : i < t.nodes.length := by
    by_contra hi
    rw [node_of_le (Nat.le_of_not_lt hi)] at hp
    cases hp
  have hpos : 0 < i := by
    rcases Nat.eq_zero_or_pos i with rfl | hpos
    · rw [h.root.2] at hp
      cases hp
    · exact hpos
  obtain ⟨q, hq, hlt⟩ := h.parent i hpos hi
  rw [hq] at hp
  cases hp
  exact ⟨hlt, hi⟩

theorem mem_children (h : WellFormed t) {p c : Nat} (hp : p < t.nodes.length) :
    c ∈ (t.node p).children ↔ (t.node c).parent = some p := by
  rw [h.children p hp, List.mem_filter, List.mem_range, decide_eq_true_eq]
  exact ⟨And.right, fun hc => ⟨(h.parent_lt hc).2, hc⟩⟩

theorem nodup_children (h : WellFormed t) {p : Nat} (hp : p < t.nodes.length) :
    (t.node p).children.Nodup := by
  rw [h.children p hp]
  exact List.nodup_range.filter _

theorem activeChild_mem (h : WellFormed t) {p c : Nat} (hc : t.Active p c) :
    (t.node c).parent = some p := by
  have hp : p < t.nodes.length := by
    by_contra hp
    rw [Active, activeChild, node_of_le (Nat.le_of_not_lt hp)] at hc
    simp at hc
  rw [← h.mem_children hp]
  unfold Active activeChild at hc
  split at hc
  · exact List.mem_of_getElem? hc
  · exact List.mem_of_getLast? hc

theorem active_lt (h : WellFormed t) {m n : Nat} (hmn : t.Active m n) : m < n :=
  (h.parent_lt (h.activeChild_mem hmn)).1

/-- A node with children has an active one. -/
theorem activeChild_isSome (h : WellFormed t) {p : Nat} (hp : p < t.nodes.length)
    (hne : (t.node p).children ≠ []) : ∃ c, t.Active p c := by
  have hpref := h.preferred p hp
  unfold Active activeChild
  cases hk : (t.node p).preferredChild with
  | none =>
    rw [hk] at hpref
    exact absurd hpref hne
  | some k =>
    rw [hk] at hpref
    exact ⟨_, List.getElem?_eq_getElem hpref⟩

theorem currentSeq (h : WellFormed t) : t.currentSeq = t.current := by
  unfold UndoTree.currentSeq
  rcases Nat.eq_zero_or_pos t.current with h0 | hpos
  · rw [h0, h.root.1]
    rfl
  · obtain ⟨e, he, hseq, -⟩ := h.header t.current hpos h.current_lt
    rw [he]
    exact hseq

end WellFormed

/-- The active branch up to a node does not see what happens at or behind that node. -/
theorem active_congr {c : Nat} (hlt : ∀ m n, t.Active m n → m < n)
    (heq : ∀ m, m < c → t'.activeChild m = t.activeChild m)
    (h : Relation.ReflTransGen t.Active 0 c) : Relation.ReflTransGen t'.Active 0 c := by
  have hstep : ∀ n, Relation.ReflTransGen t.Active 0 n → n ≤ c →
      Relation.ReflTransGen t'.Active 0 n := by
    intro n hn
    induction hn with
    | refl => exact fun _ => .refl
    | @tail m n _ hmn ih =>
      intro hnc
      have hmn' : m < n := hlt m n hmn
      refine (ih (by omega)).tail ?_
      rw [Active, heq m (by omega)]
      exact hmn
  exact hstep c h (Nat.le_refl c)

/-! ## The fresh tree -/

theorem wellFormed_new : WellFormed new where
  length := rfl
  current_lt := by decide
  root := by decide
  header i hpos hlt := by simp [new] at hlt; omega
  parent i hpos hlt := by simp [new] at hlt; omega
  children p hp := by
    obtain rfl : p = 0 := by simpa [new] using hp
    decide
  preferred p hp := by
    obtain rfl : p = 0 := by simpa [new] using hp
    rfl
  active := .refl
  openLeaf := by simp [new]

/-! ## Navigation -/

/-- The two trees differ in the preferred children and the position only. -/
structure SameShape (t t' : UndoTree) : Prop where
  length : t'.nodes.length = t.nodes.length
  nextSeq : t'.nextSeq = t.nextSeq
  entry : ∀ i, (t'.node i).entry = (t.node i).entry
  parent : ∀ i, (t'.node i).parent = (t.node i).parent
  children : ∀ i, (t'.node i).children = (t.node i).children

namespace SameShape

theorem refl (t : UndoTree) : SameShape t t :=
  ⟨rfl, rfl, fun _ => rfl, fun _ => rfl, fun _ => rfl⟩

theorem trans {t'' : UndoTree} (h : SameShape t t') (h' : SameShape t' t'') : SameShape t t'' where
  length := h'.length.trans h.length
  nextSeq := h'.nextSeq.trans h.nextSeq
  entry i := (h'.entry i).trans (h.entry i)
  parent i := (h'.parent i).trans (h.parent i)
  children i := (h'.children i).trans (h.children i)

end SameShape

/-- The tree after a move: `p` prefers its child number `k`, and `c` is the current node. -/
def moved (t : UndoTree) (p k c : Nat) : UndoTree :=
  { t.modifyNode p ({ · with preferredChild := some k }) with current := c, synced := true }

theorem node_moved (t : UndoTree) (p k c i : Nat) : (t.moved p k c).node i
    = if p = i ∧ i < t.nodes.length then { t.node i with preferredChild := some k }
      else t.node i :=
  node_modifyNode t p i _

theorem sameShape_moved (t : UndoTree) (p k c : Nat) : SameShape t (t.moved p k c) where
  length := length_modifyNode t p _
  nextSeq := rfl
  entry i := by rw [node_moved]; split <;> rfl
  parent i := by rw [node_moved]; split <;> rfl
  children i := by rw [node_moved]; split <;> rfl

theorem activeChild_moved_ne {p k c i : Nat} (h : i ≠ p) :
    (t.moved p k c).activeChild i = t.activeChild i := by
  have hnode : (t.moved p k c).node i = t.node i := by
    rw [node_moved, if_neg fun hi => h hi.1.symm]
  unfold activeChild
  rw [hnode]

theorem activeChild_moved_self {p k c : Nat} (hp : p < t.nodes.length) :
    (t.moved p k c).activeChild p = (t.node p).children[k]? := by
  have hnode : (t.moved p k c).node p = { t.node p with preferredChild := some k } := by
    rw [node_moved, if_pos ⟨rfl, hp⟩]
  unfold activeChild
  rw [hnode]

/-- A move to a node whose branch the new preference keeps active is well formed. -/
theorem WellFormed.moved (h : WellFormed t) {p k c : Nat}
    (hk : k < (t.node p).children.length) (hc : c < t.nodes.length)
    (hactive : Relation.ReflTransGen (t.moved p k c).Active 0 c) :
    WellFormed (t.moved p k c) := by
  have hshape := sameShape_moved t p k c
  exact {
    length := hshape.length.trans (h.length.trans hshape.nextSeq.symm)
    current_lt := hshape.length.symm ▸ hc
    root := by rw [hshape.entry, hshape.parent]; exact h.root
    header := fun i hpos hlt => by
      rw [hshape.entry]
      exact h.header i hpos (hshape.length ▸ hlt)
    parent := fun i hpos hlt => by
      rw [hshape.parent]
      exact h.parent i hpos (hshape.length ▸ hlt)
    children := fun q hq => by
      simp only [hshape.children, hshape.parent, hshape.length] at hq ⊢
      exact h.children q hq
    preferred := fun q hq => by
      rw [hshape.length] at hq
      have hold := h.preferred q hq
      rw [hshape.children, node_moved]
      by_cases hpq : p = q ∧ q < t.nodes.length
      · rw [if_pos hpq, ← hpq.1]
        exact hk
      · rw [if_neg hpq]
        exact hold
    active := hactive
    openLeaf := nofun }

/-- The branch to `p` stays active when only `p` and larger nodes change their preference. -/
theorem WellFormed.active_moved (h : WellFormed t) {p k c : Nat}
    (hp : Relation.ReflTransGen t.Active 0 p) :
    Relation.ReflTransGen (t.moved p k c).Active 0 p :=
  active_congr (fun _ _ => h.active_lt) (fun _ hm => activeChild_moved_ne (Nat.ne_of_lt hm)) hp

/-- The parent of a node on the active branch is on it. -/
theorem WellFormed.active_parent (h : WellFormed t) {p c : Nat}
    (hc : Relation.ReflTransGen t.Active 0 c) (hp : (t.node c).parent = some p) :
    Relation.ReflTransGen t.Active 0 p := by
  rcases Relation.ReflTransGen.cases_tail hc with rfl | ⟨m, hm, hmc⟩
  · rw [h.root.2] at hp
    cases hp
  · obtain rfl : m = p := by simpa [hp] using (h.activeChild_mem hmc).symm
    exact hm

/-- `undo` moves to the parent, and fails at the root without effect. -/
theorem undo_run (h : WellFormed t) :
    (t.current = 0 ∧ undo t = .error .atOldest t) ∨
      ∃ e p t', (t.node t.current).entry = some e ∧ (t.node t.current).parent = some p ∧
        undo t = .ok (.undo e) t' ∧ WellFormed t' ∧ SameShape t t' ∧ t'.current = p ∧
        t'.synced = true := by
  rcases Nat.eq_zero_or_pos t.current with h0 | hpos
  · refine .inl ⟨h0, ?_⟩
    unfold undo
    rw [bind_ok (get_run t)]
    simp only [h0, h.root.2]
    rfl
  · obtain ⟨e, he, -, -⟩ := h.header _ hpos h.current_lt
    obtain ⟨p, hp, hlt⟩ := h.parent _ hpos h.current_lt
    have hplt : p < t.nodes.length := Nat.lt_trans hlt h.current_lt
    have hmem : t.current ∈ (t.node p).children := (h.mem_children hplt).mpr hp
    obtain ⟨k, hk⟩ : ∃ k, (t.node p).children.findIdx? (· == t.current) = some k := by
      rw [← Option.isSome_iff_exists, List.findIdx?_isSome, List.any_eq_true]
      exact ⟨_, hmem, by simp⟩
    have hklt : k < (t.node p).children.length := (List.findIdx?_eq_some_iff_getElem.mp hk).1
    refine .inr ⟨e, p, t.moved p k p, he, hp, ?_, ?_, sameShape_moved .., rfl, rfl⟩
    · unfold undo
      rw [bind_ok (get_run t)]
      simp only [hp, he, hk]
      rfl
    · exact h.moved hklt hplt (h.active_moved (h.active_parent h.active hp))

/-- `redo_branch` moves to the chosen child, and fails without effect when there is none. -/
theorem redoBranch_run (h : WellFormed t) (branch : Nat) :
    ((t.node t.current).children[branch]? = none ∧ ∃ err, redoBranch branch t = .error err t) ∨
      ∃ e c t', (t.node t.current).children[branch]? = some c ∧ (t.node c).entry = some e ∧
        (t.node c).parent = some t.current ∧ redoBranch branch t = .ok (.redo e) t' ∧
        WellFormed t' ∧ SameShape t t' ∧ t'.current = c ∧ t'.synced = true := by
  cases hb : (t.node t.current).children[branch]? with
  | none =>
    refine .inl ⟨rfl, ?_⟩
    unfold redoBranch
    rw [bind_ok (get_run t)]
    simp only [hb]
    exact ⟨_, rfl⟩
  | some c =>
    have hparent : (t.node c).parent = some t.current :=
      (h.mem_children h.current_lt).mp (List.mem_of_getElem? hb)
    obtain ⟨hlt, hclt⟩ := h.parent_lt hparent
    obtain ⟨e, he, -, -⟩ := h.header c (by omega) hclt
    have hbranch : branch < (t.node t.current).children.length :=
      (List.getElem?_eq_some_iff.mp hb).1
    refine .inr ⟨e, c, t.moved t.current branch c, rfl, he, hparent, ?_, ?_, sameShape_moved ..,
      rfl, rfl⟩
    · have hentry : (({ t.modifyNode t.current ({ · with preferredChild := some branch }) with
          current := c } : UndoTree).node c).entry = some e := by
        show ((t.modifyNode t.current _).node c).entry = some e
        rw [node_modifyNode, if_neg (by omega), he]
      unfold redoBranch
      rw [bind_ok (get_run t)]
      simp only [hb, EState.bind_run, EState.set_run, hentry]
      rfl
    · refine h.moved hbranch hclt ((h.active_moved h.active).tail ?_)
      rw [Active, activeChild_moved_self h.current_lt, hb]

/-- `redo` is a `redo_branch`. -/
theorem redo_eq (t : UndoTree) : redo t = redoBranch ((t.node t.current).preferredChild.getD
    ((t.node t.current).children.length - 1)) t := rfl

/-! ## Recording -/

theorem node_pushNode (t : UndoTree) (edit : LineEdit) (timestamp : Int) (i : Nat)
    (hc : t.current < t.nodes.length) : (t.pushNode edit timestamp).node i =
      if i = t.nodes.length then
        { entry := some { seq := t.nextSeq, timestamp, edits := [edit] }, parent := some t.current }
      else if i = t.current then
        { t.node i with
          children := (t.node i).children ++ [t.nodes.length]
          preferredChild := some (t.node i).children.length }
      else t.node i := by
  let node : Node := { entry := some { seq := t.nextSeq, timestamp, edits := [edit] },
                       parent := some t.current }
  have happend : ({ t with nodes := t.nodes ++ [node] } : UndoTree).node i
      = if i = t.nodes.length then node else t.node i := by
    simp only [UndoTree.node, List.getD_eq_getElem?_getD]
    rcases Nat.lt_trichotomy i t.nodes.length with hi | rfl | hi
    · rw [List.getElem?_append_left hi, if_neg (by omega)]
    · simp
    · rw [List.getElem?_eq_none (by simp; omega), List.getElem?_eq_none (by omega),
        if_neg (by omega)]
  show (({ t with nodes := t.nodes ++ [node] } : UndoTree).modifyNode t.current _).node i = _
  rw [node_modifyNode, happend]
  by_cases hi : i = t.nodes.length
  · rw [if_pos hi, if_neg (by omega), if_pos hi]
  · rw [if_neg hi, if_neg hi]
    by_cases hic : i = t.current
    · rw [if_pos ⟨hic.symm, by simp; omega⟩, if_pos hic, hic]
    · rw [if_neg fun h => hic h.1.symm, if_neg hic]

section

variable {edit : LineEdit} {timestamp : Int}

theorem length_pushNode : (t.pushNode edit timestamp).nodes.length = t.nodes.length + 1 := by
  simp [pushNode, modifyNode]

theorem parent_pushNode (hc : t.current < t.nodes.length) (i : Nat) :
    ((t.pushNode edit timestamp).node i).parent
      = if i = t.nodes.length then some t.current else (t.node i).parent := by
  rw [node_pushNode t edit timestamp i hc]
  split
  · rfl
  · split <;> rfl

theorem activeChild_pushNode_ne (hc : t.current < t.nodes.length) {i : Nat} (hi : i ≠ t.current) :
    (t.pushNode edit timestamp).activeChild i = t.activeChild i := by
  unfold activeChild
  rw [node_pushNode t edit timestamp i hc]
  by_cases hlen : i = t.nodes.length
  · rw [if_pos hlen, node_of_le (Nat.le_of_eq hlen.symm)]
  · rw [if_neg hlen, if_neg hi]

theorem activeChild_pushNode_self (hc : t.current < t.nodes.length) :
    (t.pushNode edit timestamp).activeChild t.current = some t.nodes.length := by
  unfold activeChild
  rw [node_pushNode t edit timestamp t.current hc, if_neg (by omega), if_pos rfl]
  simp

/-- A new header is a leaf below the current one. -/
theorem WellFormed.pushNode (h : WellFormed t) : WellFormed (t.pushNode edit timestamp) where
  length := by
    rw [length_pushNode, h.length]
    rfl
  current_lt := by
    rw [length_pushNode]
    exact Nat.lt_succ_self _
  root := by
    have hlt := h.current_lt
    rw [node_pushNode t edit timestamp 0 hlt, if_neg (by omega)]
    split <;> exact h.root
  header i hpos hlt := by
    rw [length_pushNode] at hlt
    rw [node_pushNode t edit timestamp i h.current_lt]
    by_cases hi : i = t.nodes.length
    · rw [if_pos hi]
      exact ⟨_, rfl, by simp [hi, h.length], by simp⟩
    · rw [if_neg hi]
      split <;> exact h.header i hpos (by omega)
  parent i hpos hlt := by
    rw [length_pushNode] at hlt
    rw [parent_pushNode h.current_lt]
    by_cases hi : i = t.nodes.length
    · rw [if_pos hi]
      exact ⟨_, rfl, hi ▸ h.current_lt⟩
    · rw [if_neg hi]
      exact h.parent i hpos (by omega)
  children p hp := by
    rw [length_pushNode] at hp ⊢
    have hold : (List.range t.nodes.length).filter
          (fun i => ((t.pushNode edit timestamp).node i).parent = some p)
        = (List.range t.nodes.length).filter (fun i => (t.node i).parent = some p) := by
      apply List.filter_congr
      intro i hi
      rw [parent_pushNode h.current_lt, if_neg (Nat.ne_of_lt (List.mem_range.mp hi))]
    rw [List.range_succ, List.filter_append, hold, node_pushNode t edit timestamp p h.current_lt]
    simp only [List.filter_cons, List.filter_nil, parent_pushNode h.current_lt, if_true,
      Option.some.injEq, decide_eq_true_eq]
    by_cases hlen : p = t.nodes.length
    · -- the new node has no children, and nothing hung below an index out of range
      have hlt := h.current_lt
      rw [if_pos hlen, if_neg (by omega), List.append_nil]
      symm
      rw [List.filter_eq_nil_iff]
      intro i _ hi
      have := h.parent_lt (decide_eq_true_eq.mp hi)
      omega
    · rw [if_neg hlen]
      by_cases hpc : p = t.current
      · rw [if_pos hpc, if_pos hpc.symm, ← h.children p (by omega)]
      · rw [if_neg hpc, if_neg (Ne.symm hpc), List.append_nil, ← h.children p (by omega)]
  preferred p hp := by
    rw [length_pushNode] at hp
    rw [node_pushNode t edit timestamp p h.current_lt]
    by_cases hlen : p = t.nodes.length
    · rw [if_pos hlen]
    · rw [if_neg hlen]
      by_cases hpc : p = t.current
      · rw [if_pos hpc]
        simp
      · rw [if_neg hpc]
        exact h.preferred p (by omega)
  active := by
    refine .tail (b := t.current) ?_ (activeChild_pushNode_self h.current_lt)
    exact active_congr (fun _ _ => h.active_lt)
      (fun m hm => activeChild_pushNode_ne h.current_lt (Nat.ne_of_lt hm)) h.active
  openLeaf _ := by
    show t.nodes.length ≠ 0 ∧ ((UndoTree.pushNode t edit timestamp).node t.nodes.length).children = []
    have hlt := h.current_lt
    rw [node_pushNode t edit timestamp _ hlt, if_pos rfl]
    exact ⟨by omega, rfl⟩

theorem node_pushEdit (i : Nat) : (t.pushEdit edit).node i
    = if t.current = i ∧ i < t.nodes.length then
        { t.node i with
          entry := (t.node i).entry.map fun e => { e with edits := e.edits ++ [edit] } }
      else t.node i :=
  node_modifyNode t t.current i _

theorem length_pushEdit : (t.pushEdit edit).nodes.length = t.nodes.length :=
  length_modifyNode t t.current _

/-- An edit that joins the open header changes that header only. -/
theorem links_pushEdit (i : Nat) : ((t.pushEdit edit).node i).parent = (t.node i).parent ∧
    ((t.pushEdit edit).node i).children = (t.node i).children ∧
    ((t.pushEdit edit).node i).preferredChild = (t.node i).preferredChild := by
  rw [node_pushEdit]
  split <;> exact ⟨rfl, rfl, rfl⟩

theorem activeChild_pushEdit (i : Nat) : (t.pushEdit edit).activeChild i = t.activeChild i := by
  unfold activeChild
  rw [(links_pushEdit i).2.1, (links_pushEdit i).2.2]

theorem WellFormed.pushEdit (h : WellFormed t) : WellFormed (t.pushEdit edit) where
  length := length_pushEdit.trans h.length
  current_lt := length_pushEdit (t := t) ▸ h.current_lt
  root := by
    rw [(links_pushEdit 0).1, node_pushEdit]
    refine ⟨?_, h.root.2⟩
    split
    · simp [h.root.1]
    · exact h.root.1
  header i hpos hlt := by
    rw [length_pushEdit] at hlt
    obtain ⟨e, he, hseq, hedits⟩ := h.header i hpos hlt
    rw [node_pushEdit]
    split
    · exact ⟨{ e with edits := e.edits ++ [edit] }, by simp [he], hseq, by simp⟩
    · exact ⟨e, he, hseq, hedits⟩
  parent i hpos hlt := by
    rw [(links_pushEdit i).1]
    exact h.parent i hpos (length_pushEdit (t := t) ▸ hlt)
  children p hp := by
    rw [length_pushEdit] at hp ⊢
    rw [(links_pushEdit p).2.1, h.children p hp]
    exact List.filter_congr fun i _ => by rw [(links_pushEdit i).1]
  preferred p hp := by
    rw [(links_pushEdit p).2.1, (links_pushEdit p).2.2]
    exact h.preferred p (length_pushEdit (t := t) ▸ hp)
  active := active_congr (fun _ _ => h.active_lt) (fun m _ => activeChild_pushEdit m) h.active
  openLeaf hs := by
    have := h.openLeaf hs
    rw [(links_pushEdit _).2.1]
    exact this

/-- The header that `record` puts the edit in: the open one, or a new one. -/
theorem record_cases (h : WellFormed t) :
    (t.synced = false ∧ t.record edit timestamp = (t.current, t.pushEdit edit)) ∨
      (t.synced = true ∧ t.record edit timestamp = (t.nextSeq, t.pushNode edit timestamp)) := by
  unfold record
  cases hs : t.synced with
  | true => exact .inr ⟨rfl, rfl⟩
  | false =>
    have hpos := Nat.pos_of_ne_zero (h.openLeaf hs).1
    obtain ⟨e, he, hseq, -⟩ := h.header _ hpos h.current_lt
    rw [he]
    exact .inl ⟨rfl, by simp only [hseq]⟩

theorem WellFormed.record (h : WellFormed t) : WellFormed (t.record edit timestamp).2 := by
  obtain ⟨-, heq⟩ | ⟨-, heq⟩ := record_cases h
  · rw [heq]
    exact h.pushEdit
  · rw [heq]
    exact h.pushNode

end

theorem WellFormed.sync (h : WellFormed t) : WellFormed t.sync :=
  { h with openLeaf := nofun }

/-- `undojoin` reopens the current header when it is the newest one, and does nothing otherwise. -/
theorem undojoin_run (h : WellFormed t) :
    undojoin t = .ok () t ∨ undojoin t = .error .joinAfterUndo t ∨
      (undojoin t = .ok () { t with synced := false } ∧ t.synced = true ∧ t.current ≠ 0 ∧
        (t.node t.current).children = []) := by
  unfold undojoin
  rw [bind_ok (get_run t)]
  cases hs : t.synced with
  | false => exact .inl rfl
  | true =>
    simp only [Bool.not_true, Bool.false_eq_true, if_false]
    cases he : (t.node t.current).entry with
    | none =>
      by_cases hseq : 1 < t.nextSeq
      · exact .inr (.inl (by simp [hseq, bind_run]))
      · exact .inl (by simp [hseq])
    | some e =>
      cases hc : t.activeChild t.current with
      | some c => exact .inr (.inl (by simp [bind_run]))
      | none =>
        refine .inr (.inr ⟨by simp, trivial, ?_, ?_⟩)
        · intro h0
          rw [h0, h.root.1] at he
          cases he
        · by_contra hne
          obtain ⟨c, hactive⟩ := h.activeChild_isSome h.current_lt hne
          rw [Active, hc] at hactive
          cases hactive

/-! ## Walks -/

/-- `Walk t c steps d`: the steps lead from node `c` to node `d`. An undo step carries the header it
leaves, a redo step the header it enters. -/
inductive Walk (t : UndoTree) : Nat → List UndoStep → Nat → Prop where
  | nil (c : Nat) : Walk t c [] c
  | undo {c p d : Nat} {e : UndoEntry} {steps : List UndoStep} (he : (t.node c).entry = some e)
      (hp : (t.node c).parent = some p) (hwalk : Walk t p steps d) :
      Walk t c (.undo e :: steps) d
  | redo {c b d : Nat} {e : UndoEntry} {steps : List UndoStep} (he : (t.node c).entry = some e)
      (hp : (t.node c).parent = some b) (hwalk : Walk t c steps d) :
      Walk t b (.redo e :: steps) d

theorem Walk.append {a b c : Nat} {xs ys : List UndoStep} (h : Walk t a xs b) (h' : Walk t b ys c) :
    Walk t a (xs ++ ys) c := by
  induction h with
  | nil => exact h'
  | undo he hp _ ih => exact .undo he hp (ih h')
  | redo he hp _ ih => exact .redo he hp (ih h')

theorem Walk.congr (hs : SameShape t t') {a b : Nat} {xs : List UndoStep} (h : Walk t' a xs b) :
    Walk t a xs b := by
  induction h with
  | nil => exact .nil _
  | undo he hp _ ih => exact .undo (hs.entry _ ▸ he) (hs.parent _ ▸ hp) ih
  | redo he hp _ ih => exact .redo (hs.entry _ ▸ he) (hs.parent _ ▸ hp) ih

/-! ## The path to the root -/

theorem pathToRoot_head (t : UndoTree) (fuel i : Nat) : ∃ path, t.pathToRoot fuel i = i :: path := by
  cases fuel with
  | zero => exact ⟨[], rfl⟩
  | succ fuel => exact ⟨_, rfl⟩

theorem pathToRoot_congr (hs : SameShape t t') (fuel i : Nat) :
    t'.pathToRoot fuel i = t.pathToRoot fuel i := by
  induction fuel generalizing i with
  | zero => rfl
  | succ fuel ih =>
    simp only [pathToRoot, hs.parent]
    cases (t.node i).parent with
    | none => rfl
    | some p => simp only [ih]

/-- Each node of the path hangs below the next one. -/
theorem isChain_pathToRoot (t : UndoTree) (fuel i : Nat) :
    (t.pathToRoot fuel i).IsChain fun a b => (t.node a).parent = some b := by
  induction fuel generalizing i with
  | zero => exact .singleton _
  | succ fuel ih =>
    unfold pathToRoot
    cases hp : (t.node i).parent with
    | none => exact .singleton _
    | some p =>
      obtain ⟨path, hpath⟩ := pathToRoot_head t fuel p
      have ih := ih p
      simp only [hpath] at ih ⊢
      exact .cons_cons hp ih

/-- Indices decrease towards the root, so as many steps as the index says reach it. -/
theorem WellFormed.zero_mem_pathToRoot (h : WellFormed t) {fuel i : Nat} (hi : i ≤ fuel)
    (hlt : i < t.nodes.length) : 0 ∈ t.pathToRoot fuel i := by
  induction fuel generalizing i with
  | zero => simp [pathToRoot, Nat.le_zero.mp hi]
  | succ fuel ih =>
    rcases Nat.eq_zero_or_pos i with rfl | hpos
    · simp [pathToRoot]
    · obtain ⟨p, hp, hpi⟩ := h.parent i hpos hlt
      unfold pathToRoot
      rw [hp]
      exact List.mem_cons_of_mem _ (ih (by omega) (by omega))

/-! ## Going to a sequence -/

/-- The upward loop reaches every node on the path to the root. -/
theorem undoUntil_run {common fuel : Nat} (h : WellFormed t)
    (hmem : common ∈ t.pathToRoot fuel t.current) :
    ∃ steps t', undoUntil common fuel t = .ok steps t' ∧ WellFormed t' ∧ SameShape t t' ∧
      t'.current = common ∧ Walk t t.current steps common := by
  induction fuel generalizing t with
  | zero =>
    have hc : common = t.current := by simpa [pathToRoot] using hmem
    exact ⟨[], t, rfl, h, .refl t, hc.symm, hc ▸ .nil _⟩
  | succ fuel ih =>
    by_cases hc : t.current = common
    · refine ⟨[], t, ?_, h, .refl t, hc, hc ▸ .nil _⟩
      unfold undoUntil
      rw [bind_ok (get_run t), if_pos hc]
      rfl
    · rcases undo_run h with ⟨h0, -⟩ | ⟨e, p, t₁, he, hp, hrun, hwf, hs, hcur, -⟩
      · rw [h0] at hc hmem
        unfold pathToRoot at hmem
        rw [h.root.2] at hmem
        exact absurd (by simpa using hmem) (Ne.symm hc)
      · have hmem₁ : common ∈ t₁.pathToRoot fuel t₁.current := by
          rw [pathToRoot_congr hs, hcur]
          unfold pathToRoot at hmem
          rw [hp] at hmem
          exact (List.mem_cons.mp hmem).resolve_left (Ne.symm hc)
        obtain ⟨steps, t', hrun', hwf', hs', hcur', hwalk⟩ := ih hwf hmem₁
        refine ⟨.undo e :: steps, t', ?_, hwf', hs.trans hs', hcur', ?_⟩
        · unfold undoUntil
          rw [bind_ok (get_run t), if_neg hc, bind_ok hrun, bind_ok hrun']
          rfl
        · rw [hcur] at hwalk
          exact .undo he hp (hwalk.congr hs)

/-- The downward loop follows a chain of children to its end. -/
theorem redoAlong_run {seq : Nat} {down : List Nat} (h : WellFormed t)
    (hchain : (t.current :: down).IsChain fun a b => (t.node b).parent = some a) :
    ∃ steps t', redoAlong seq down t = .ok steps t' ∧ WellFormed t' ∧ SameShape t t' ∧
      t'.current = (t.current :: down).getLast (by simp) ∧ Walk t t.current steps t'.current := by
  induction down generalizing t with
  | nil => exact ⟨[], t, rfl, h, .refl t, rfl, .nil _⟩
  | cons c down ih =>
    have hc : (t.node c).parent = some t.current := hchain.rel
    have hmem : c ∈ (t.node t.current).children := (h.mem_children h.current_lt).mpr hc
    obtain ⟨k, hk⟩ : ∃ k, (t.node t.current).children.findIdx? (· == c) = some k := by
      rw [← Option.isSome_iff_exists, List.findIdx?_isSome, List.any_eq_true]
      exact ⟨_, hmem, by simp⟩
    have hkc : (t.node t.current).children[k]? = some c := by
      obtain ⟨hlt, heq, -⟩ := List.findIdx?_eq_some_iff_getElem.mp hk
      rw [List.getElem?_eq_getElem hlt, beq_iff_eq.mp heq]
    rcases redoBranch_run h k with ⟨hnone, -⟩ | ⟨e, c', t₁, hb, he, hp, hrun, hwf, hs, hcur, -⟩
    · rw [hkc] at hnone
      cases hnone
    · rw [hkc] at hb
      cases hb
      have hchain₁ : (t₁.current :: down).IsChain fun a b => (t₁.node b).parent = some a := by
        simp only [hcur, hs.parent]
        exact hchain.tail
      obtain ⟨steps, t', hrun', hwf', hs', hcur', hwalk⟩ := ih hwf hchain₁
      refine ⟨.redo e :: steps, t', ?_, hwf', hs.trans hs', ?_, ?_⟩
      · unfold redoAlong
        rw [bind_ok (get_run t)]
        simp only [hk]
        rw [bind_ok hrun, bind_ok hrun']
        rfl
      · rw [hcur', List.getLast_cons_cons]
        simp only [hcur]
      · rw [hcur] at hwalk
        exact .redo he hp (hwalk.congr hs)

theorem WellFormed.targetOf_eq (h : WellFormed t) (seq : Nat) :
    t.targetOf seq = if seq < t.nodes.length then some seq else none := by
  unfold targetOf
  rcases Nat.eq_zero_or_pos seq with rfl | hpos
  · rw [if_pos rfl, if_pos (Nat.lt_of_le_of_lt (Nat.zero_le _) h.current_lt)]
  · have hany : ∀ i (hi : i < t.nodes.length), (t.nodes[i].entry.any (·.seq == seq)) = (i == seq) := by
      intro i hi
      have hnode : t.nodes[i] = t.node i := by simp [UndoTree.node, hi]
      rw [hnode]
      rcases Nat.eq_zero_or_pos i with rfl | hi0
      · rw [h.root.1, Option.any_none]
        exact (beq_eq_false_iff_ne.mpr (Nat.ne_of_lt hpos)).symm
      · obtain ⟨e, he, hseq, -⟩ := h.header i hi0 hi
        rw [he, Option.any_some, hseq]
    rw [if_neg (Nat.ne_of_gt hpos)]
    split
    · next hlt =>
      rw [List.findIdx?_eq_some_iff_getElem]
      refine ⟨hlt, by rw [hany seq hlt]; simp, fun j hj => ?_⟩
      rw [hany j (by omega)]
      simpa using Nat.ne_of_lt hj
    · next hlt =>
      rw [List.findIdx?_eq_none_iff]
      intro node hnode
      obtain ⟨i, hi, rfl⟩ := List.mem_iff_getElem.mp hnode
      rw [hany i hi]
      simp only [beq_eq_false_iff_ne]
      omega

theorem exists_takeWhile_ne {c : Nat} {l : List Nat} (h : c ∈ l) :
    ∃ front back, l = front ++ c :: back ∧ l.takeWhile (· != c) = front := by
  obtain ⟨front, back, rfl, hfront⟩ := List.eq_append_cons_of_mem h
  have hne : ∀ x ∈ front, (x != c) = true := by
    intro x hx
    rw [bne_iff_ne]
    rintro rfl
    exact hfront hx
  refine ⟨front, back, rfl, ?_⟩
  rw [List.takeWhile_append_of_pos hne]
  simp

/-- `undo_to_seq` finds the requested header, and its steps walk there. -/
theorem undoToSeq_ok (h : WellFormed t) {seq : Nat} (hseq : seq < t.nodes.length) :
    ∃ steps t', undoToSeq seq t = .ok steps t' ∧ WellFormed t' ∧ SameShape t t' ∧
      t'.current = seq ∧ Walk t t.current steps seq := by
  let currentPath := t.pathToRoot t.nodes.length t.current
  let targetPath := t.pathToRoot t.nodes.length seq
  let common := (currentPath.find? targetPath.contains).getD 0
  -- both paths end at the root, so the search finds a common node
  have hcommon : common ∈ currentPath ∧ common ∈ targetPath := by
    have hzero : 0 ∈ currentPath ∧ 0 ∈ targetPath :=
      ⟨h.zero_mem_pathToRoot (Nat.le_of_lt h.current_lt) h.current_lt,
        h.zero_mem_pathToRoot (Nat.le_of_lt hseq) hseq⟩
    show (currentPath.find? targetPath.contains).getD 0 ∈ currentPath ∧
      (currentPath.find? targetPath.contains).getD 0 ∈ targetPath
    cases hfind : currentPath.find? targetPath.contains with
    | none => exact hzero
    | some c =>
      exact ⟨List.mem_of_find?_eq_some hfind, by simpa using List.find?_some hfind⟩
  obtain ⟨up, t₁, hup, hwf₁, hs₁, hcur₁, hwalk₁⟩ := undoUntil_run h hcommon.1
  obtain ⟨front, back, hsplit, hfront⟩ := exists_takeWhile_ne hcommon.2
  have hpath : (front ++ common :: back).IsChain fun a b => (t.node a).parent = some b :=
    hsplit ▸ isChain_pathToRoot t t.nodes.length seq
  have hchain : (t₁.current :: front.reverse).IsChain fun a b => (t₁.node b).parent = some a := by
    have hup : (front ++ [common]).IsChain fun a b => (t.node a).parent = some b := by
      rw [List.append_cons] at hpath
      exact (List.isChain_append.mp hpath).1
    simp only [hs₁.parent, hcur₁]
    simpa using List.isChain_reverse.mpr hup
  have hlast : (t₁.current :: front.reverse).getLast (by simp) = seq := by
    obtain ⟨path, hhead⟩ := pathToRoot_head t t.nodes.length seq
    rw [show t.pathToRoot t.nodes.length seq = front ++ common :: back from hsplit] at hhead
    cases front with
    | nil => simpa [hcur₁] using (List.cons.inj hhead).1
    | cons x front => simpa using (List.cons.inj hhead).1
  obtain ⟨down, t', hdown, hwf', hs', hcur', hwalk'⟩ := redoAlong_run hwf₁ hchain
  refine ⟨up ++ down, t', ?_, hwf', hs₁.trans hs', hcur'.trans hlast, ?_⟩
  · unfold undoToSeq
    rw [bind_ok (get_run t)]
    simp only [h.targetOf_eq, if_pos hseq]
    rw [bind_ok hup, hfront, bind_ok hdown]
    rfl
  · rw [hcur', hlast, hcur₁] at hwalk'
    exact hwalk₁.append (hwalk'.congr hs₁)

/-- An unknown sequence is rejected without effect. -/
theorem undoToSeq_error (h : WellFormed t) {seq : Nat} (hseq : ¬ seq < t.nodes.length) :
    undoToSeq seq t = .error (.unknownSequence seq) t := by
  unfold undoToSeq
  rw [bind_ok (get_run t)]
  simp only [h.targetOf_eq, if_neg hseq]
  rfl

end Oxvim.Text.UndoTree
