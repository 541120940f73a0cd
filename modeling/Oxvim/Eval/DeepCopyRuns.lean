import Oxvim.Eval.DeepCopy

/-!
# A deep copy as a traversal

Copying goes through containers as a walk with a set of visited ones does, and it has a copy for
each container of that set. What holds on the way is in `Tracks`: the copies are new, each container
has its own, and the memory from before is as it was. A container that was entered but not finished
has an empty copy, so that `Progress` speaks of the contents of those that a run has both entered
and finished.
-/

namespace Oxvim.Eval

open Lib Lib.Walk Lib.EState Relation

/-! ## Containers -/

/-- A list or a dictionary, by its place. -/
abbrev Container := Nat ⊕ Nat

def container : Value → Option Container
  | .list a => some (.inl a)
  | .dict d => some (.inr d)
  | _ => none

namespace Memory

/-- The container exists. -/
def Live (m : Memory) : Container → Prop
  | .inl a => a < m.lists.length
  | .inr d => d < m.dicts.length

/-- What is stored for a container. -/
def contents (m : Memory) : Container → Option (ListData ⊕ DictData)
  | .inl a => (m.lists[a]?).map .inl
  | .inr d => (m.dicts[d]?).map .inr

/-- The containers of `m` are as they were. -/
def Unchanged (m m' : Memory) : Prop :=
  ∀ c, m.Live c → m'.contents c = m.contents c

/-- What a container holds. -/
def held (m : Memory) : Value → List Value
  | .list a => (m.lists[a]?).elim [] (·.items)
  | .dict d => ((m.dicts[d]?).elim [] (·.entries)).map (·.value)
  | _ => []

/-- The value is no container, or one that exists. -/
def Bounded (m : Memory) (v : Value) : Prop :=
  ∀ c, container v = some c → m.Live c

/-- Containers and what they hold, as a graph to be walked. -/
def graph (m : Memory) : Keyed Value Container where
  key := container
  check _ := true
  parts v := (m.held v).map some
  key_inj := by
    intro x y k hx hy
    cases x <;> cases hx <;> cases y <;> cases hy <;> rfl

theorem contents_isSome {m : Memory} {c : Container} : (m.contents c).isSome ↔ m.Live c := by
  cases c <;> simp [contents, Live]

theorem part_iff {m : Memory} {v w : Value} :
    Walk.Part m.graph v w ↔ (container v).isSome ∧ w ∈ m.held v := by
  simp [Walk.Part, graph]

end Memory

/-- The walk that copying goes along with. -/
def traverse (m : Memory) (fuel depth : Nat) (seen : Finset Container) (v : Value) :
    Outcome Container EvalError :=
  walk m.graph (fun _ => some true)
    (fun depth => if depth ≥ maxContainerDepth then some depthError else none) fuel depth seen v

/-- The traversal of a value, depth first and into each container once, stays below the depth
limit. -/
def StaysBelow (m : Memory) (v : Value) : Prop :=
  ∃ seen, traverse m (maxContainerDepth + 1) 0 ∅ v = some (.ok (true, seen))

/-! ## Copies -/

/-- A value and what it is in the copy. -/
inductive Renamed (target : Container → Option Container) : Value → Value → Prop
  | list {a b : Nat} : target (.inl a) = some (.inl b) → Renamed target (.list a) (.list b)
  | dict {d e : Nat} : target (.inr d) = some (.inr e) → Renamed target (.dict d) (.dict e)
  | scalar {v : Value} : container v = none → Renamed target v v

/-- An entry and its copy, which has neither flags nor a lock. -/
def EntryRenamed (target : Container → Option Container) (entry copied : MarkedEntry) : Prop :=
  ∃ value, Renamed target entry.value value ∧ copied = MarkedEntry.new entry.key value

/-- The contents of a container and those of its copy. -/
inductive Copies (target : Container → Option Container) :
    ListData ⊕ DictData → ListData ⊕ DictData → Prop
  | list {data : ListData} {items : List Value} : List.Forall₂ (Renamed target) data.items items →
    Copies target (.inl data) (.inl ⟨items, .default⟩)
  | dict {data : DictData} {entries : List MarkedEntry} :
    List.Forall₂ (EntryRenamed target) data.entries entries →
    Copies target (.inr data) (.inr ⟨entries, .default, false⟩)

/-- Whatever has a copy in `target` has it in `target'`. -/
def Grows (target target' : Container → Option Container) : Prop :=
  ∀ c t, target c = some t → target' c = some t

variable {target target' : Container → Option Container}

theorem Renamed.mono (hgrows : Grows target target') {v w : Value} (h : Renamed target v w) :
    Renamed target' v w := by
  cases h with
  | list hab => exact .list (hgrows _ _ hab)
  | dict hde => exact .dict (hgrows _ _ hde)
  | scalar hv => exact .scalar hv

theorem EntryRenamed.mono (hgrows : Grows target target') {entry copied : MarkedEntry}
    (h : EntryRenamed target entry copied) : EntryRenamed target' entry copied := by
  obtain ⟨value, hvalue, hcopied⟩ := h
  exact ⟨value, hvalue.mono hgrows, hcopied⟩

theorem Copies.mono (hgrows : Grows target target') {data data' : ListData ⊕ DictData}
    (h : Copies target data data') : Copies target' data data' := by
  cases h with
  | list hitems => exact .list (hitems.imp fun _ _ hvw => hvw.mono hgrows)
  | dict hentries => exact .dict (hentries.imp fun _ _ hee => hee.mono hgrows)

namespace Copying

/-- The copy of a container. -/
def copyOf (s : Copying) : Container → Option Container
  | .inl a => (s.lists a).map .inl
  | .inr d => (s.dicts d).map .inr

/-- The next container of the same kind. -/
def next (s : Copying) : Container → Container
  | .inl _ => .inl s.memory.lists.length
  | .inr _ => .inr s.memory.dicts.length

/-- The state in which a container has an empty copy. -/
def enter (s : Copying) : Container → Copying
  | .inl a =>
    { s with
      memory.lists := s.memory.lists ++ [ListData.mk [] .default]
      lists := Function.update s.lists a (some s.memory.lists.length) }
  | .inr d =>
    { s with
      memory.dicts := s.memory.dicts ++ [DictData.mk [] .default false]
      dicts := Function.update s.dicts d (some s.memory.dicts.length) }

/-- The containers with a copy. -/
def Keys (s : Copying) (seen : Finset Container) : Prop :=
  ∀ c, c ∈ seen ↔ (s.copyOf c).isSome

variable {s : Copying}

theorem enter_copyOf (c c' : Container) :
    (s.enter c).copyOf c' = if c' = c then some (s.next c) else s.copyOf c' := by
  cases c <;> cases c' <;> simp only [enter, copyOf, next, Function.update_apply] <;> grind

theorem enter_live (c t : Container) :
    (s.enter c).memory.Live t ↔ t = s.next c ∨ s.memory.Live t := by
  cases c <;> cases t <;> simp [enter, next, Memory.Live]
  all_goals omega

theorem enter_contents (c : Container) {t : Container} (ht : s.memory.Live t) :
    (s.enter c).memory.contents t = s.memory.contents t := by
  cases c <;> cases t <;> simp only [enter, Memory.contents]
  all_goals rw [List.getElem?_append_left ht]

theorem not_live_next (c : Container) : ¬s.memory.Live (s.next c) := by
  cases c <;> simp [next, Memory.Live]

theorem keys_enter {seen : Finset Container} (h : s.Keys seen) (c : Container) :
    (s.enter c).Keys (insert c seen) := by
  intro c'
  rw [enter_copyOf, Finset.mem_insert, h c']
  split
  · next heq => simp [heq]
  · next hne => simp [hne]

/-! ## What holds on the way -/

/-- The memory from before is as it was, and the containers that are new are copies, each of one
container. -/
structure Tracks (orig : Memory) (s : Copying) : Prop where
  kept : orig.Unchanged s.memory
  fresh : ∀ c t, s.copyOf c = some t → ¬orig.Live t ∧ s.memory.Live t
  injective : ∀ c c' t, s.copyOf c = some t → s.copyOf c' = some t → c = c'
  onto : ∀ t, s.memory.Live t → ¬orig.Live t → ∃ c, s.copyOf c = some t

/-- What a run adds: copies, finished, of containers that had none. -/
structure Progress (orig : Memory) (s s' : Copying) : Prop where
  grows : Grows s.copyOf s'.copyOf
  frame : ∀ t, s.memory.Live t → s'.memory.contents t = s.memory.contents t
  finished : ∀ c t, s'.copyOf c = some t → s.copyOf c = none → ∃ data data',
    orig.contents c = some data ∧ s'.memory.contents t = some data' ∧ Copies s'.copyOf data data'

variable {orig : Memory} {s s' s'' : Copying}

theorem Tracks.live (h : Tracks orig s) {c : Container} (hc : orig.Live c) : s.memory.Live c := by
  rw [← Memory.contents_isSome, h.kept c hc, Memory.contents_isSome]
  exact hc

theorem Progress.live (h : Progress orig s s') {t : Container} (ht : s.memory.Live t) :
    s'.memory.Live t := by
  rw [← Memory.contents_isSome, h.frame t ht, Memory.contents_isSome]
  exact ht

theorem Progress.refl (s : Copying) : Progress orig s s := by
  refine ⟨fun _ _ h => h, fun _ _ => rfl, ?_⟩
  intro c t hc hnone
  rw [hnone] at hc
  cases hc

theorem Progress.trans (h : Progress orig s s') (h' : Progress orig s' s'') (hs' : Tracks orig s') :
    Progress orig s s'' := by
  refine ⟨fun c t hc => h'.grows c t (h.grows c t hc), ?_, ?_⟩
  · intro t ht
    rw [h'.frame t (h.live ht), h.frame t ht]
  · intro c t hc hnone
    cases hmid : s'.copyOf c with
    | none => exact h'.finished c t hc hmid
    | some t' =>
      obtain rfl : t' = t := Option.some.inj ((h'.grows c t' hmid).symm.trans hc)
      obtain ⟨data, data', hdata, hdata', hcopies⟩ := h.finished c t' hmid hnone
      refine ⟨data, data', hdata, ?_, hcopies.mono h'.grows⟩
      rw [h'.frame t' (hs'.fresh c t' hmid).2, hdata']

/-- No copy has the place of the next container. -/
theorem Tracks.ne_next (h : Tracks orig s) (c : Container) {c' t : Container}
    (ht : s.copyOf c' = some t) : t ≠ s.next c := by
  intro heq
  exact not_live_next c (heq ▸ (h.fresh c' t ht).2)

/-- Entering a container keeps what holds on the way. -/
theorem Tracks.enter (h : Tracks orig s) {c : Container} (hc : s.copyOf c = none) :
    Tracks orig (s.enter c) := by
  constructor
  · intro c' hc'
    rw [enter_contents c (h.live hc'), h.kept c' hc']
  · intro c' t ht
    rw [enter_copyOf] at ht
    rw [enter_live]
    split at ht
    · obtain rfl := Option.some.inj ht
      exact ⟨fun hlive => not_live_next c (h.live hlive), .inl rfl⟩
    · obtain ⟨hnew, hlive⟩ := h.fresh c' t ht
      exact ⟨hnew, .inr hlive⟩
  · intro c' c'' t ht ht'
    rw [enter_copyOf] at ht ht'
    split at ht <;> split at ht'
    · next heq heq' => rw [heq, heq']
    · exact absurd (Option.some.inj ht).symm (h.ne_next c ht')
    · exact absurd (Option.some.inj ht').symm (h.ne_next c ht)
    · exact h.injective c' c'' t ht ht'
  · intro t ht hnew
    rcases (enter_live c t).mp ht with rfl | hlive
    · exact ⟨c, by rw [enter_copyOf, if_pos rfl]⟩
    · obtain ⟨c', hc'⟩ := h.onto t hlive hnew
      refine ⟨c', ?_⟩
      have hne : c' ≠ c := by
        intro heq
        rw [heq, hc] at hc'
        cases hc'
      rw [enter_copyOf, if_neg hne, hc']

/-- Installing the contents of a copy finishes the container that was entered for it. -/
theorem Progress.install (hs : Tracks orig s) {c : Container} (hnone : s.copyOf c = none)
    (hs' : Tracks orig s') (h : Progress orig (s.enter c) s')
    (hcopyOf : s''.copyOf = s'.copyOf)
    (hcontents : ∀ t, t ≠ s.next c → s''.memory.contents t = s'.memory.contents t)
    {data data' : ListData ⊕ DictData} (hdata : orig.contents c = some data)
    (hdata' : s''.memory.contents (s.next c) = some data')
    (hcopies : Copies s''.copyOf data data') : Tracks orig s'' ∧ Progress orig s s'' := by
  have hnextLive : s'.memory.Live (s.next c) := h.live ((enter_live c _).mpr (.inl rfl))
  have hlive : ∀ t, s''.memory.Live t ↔ s'.memory.Live t := by
    intro t
    by_cases ht : t = s.next c
    · rw [← Memory.contents_isSome, ht, hdata']
      exact iff_of_true rfl hnextLive
    · rw [← Memory.contents_isSome, hcontents t ht, Memory.contents_isSome]
  have hold : ∀ t, s.memory.Live t → t ≠ s.next c := by
    intro t ht heq
    exact not_live_next c (heq ▸ ht)
  constructor
  · constructor
    · intro c' hc'
      rw [hcontents c' (hold c' (hs.live hc')), hs'.kept c' hc']
    · intro c' t ht
      rw [hcopyOf] at ht
      rw [hlive]
      exact hs'.fresh c' t ht
    · rw [hcopyOf]
      exact hs'.injective
    · intro t ht
      rw [hcopyOf]
      exact hs'.onto t ((hlive t).mp ht)
  · have henter : s'.copyOf c = some (s.next c) :=
      h.grows c _ (by rw [enter_copyOf, if_pos rfl])
    constructor
    · intro c' t ht
      rw [hcopyOf]
      refine h.grows c' t ?_
      have hne : c' ≠ c := by
        intro heq
        rw [heq, hnone] at ht
        cases ht
      rw [enter_copyOf, if_neg hne, ht]
    · intro t ht
      rw [hcontents t (hold t ht), h.frame t ((enter_live c t).mpr (.inr ht)), enter_contents c ht]
    · intro c' t ht hnone'
      rw [hcopyOf] at ht
      by_cases heq : c' = c
      · rw [heq, henter] at ht
        rw [heq, ← Option.some.inj ht]
        exact ⟨data, data', hdata, hdata', hcopies⟩
      · have hnew : (s.enter c).copyOf c' = none := by
          rw [enter_copyOf, if_neg heq, hnone']
        obtain ⟨d, d', hd, hd', hcop⟩ := h.finished c' t ht hnew
        have hne : t ≠ s.next c := fun htn => heq (hs'.injective c' c t ht (htn ▸ henter))
        exact ⟨d, d', hd, by rw [hcontents t hne, hd'], hcopyOf ▸ hcop⟩

/-- What is read of a container from before is what was stored there. -/
theorem Tracks.listItems (h : Tracks orig s) {a : Nat} (ha : orig.Live (.inl a)) :
    ∃ data, orig.contents (.inl a) = some (.inl data) ∧ Eval.listItems s a = data.items ∧
      orig.held (.list a) = data.items := by
  have hdata : orig.lists[a]? = some orig.lists[a] := List.getElem?_eq_getElem ha
  have hkept := h.kept (.inl a) ha
  refine ⟨orig.lists[a], ?_, ?_, ?_⟩
  · rw [Memory.contents, hdata, Option.map_some]
  · rw [Memory.contents, Memory.contents, hdata, Option.map_some, Option.map_eq_some_iff] at hkept
    obtain ⟨data, hget, heq⟩ := hkept
    rw [Eval.listItems, hget, Sum.inl.inj heq]
    rfl
  · rw [Memory.held, hdata]
    rfl

theorem Tracks.clonedEntries (h : Tracks orig s) {d : Nat} (hd : orig.Live (.inr d)) :
    ∃ data, orig.contents (.inr d) = some (.inr data) ∧ Eval.clonedEntries s d = data.entries ∧
      orig.held (.dict d) = data.entries.map (·.value) := by
  have hdata : orig.dicts[d]? = some orig.dicts[d] := List.getElem?_eq_getElem hd
  have hkept := h.kept (.inr d) hd
  refine ⟨orig.dicts[d], ?_, ?_, ?_⟩
  · rw [Memory.contents, hdata, Option.map_some]
  · rw [Memory.contents, Memory.contents, hdata, Option.map_some, Option.map_eq_some_iff] at hkept
    obtain ⟨data, hget, heq⟩ := hkept
    rw [Eval.clonedEntries, hget, Sum.inr.inj heq]
    rfl
  · rw [Memory.held, hdata]
    rfl

theorem setItems_contents (t : Nat) (items : List Value) (c : Container) :
    (setItems t items s).memory.contents c = if c = .inl t then
      (s.memory.lists[t]?).map fun data => .inl { data with items } else s.memory.contents c := by
  cases c with
  | inl a =>
    simp only [setItems, Memory.contents, List.getElem?_modify, Sum.inl.injEq]
    by_cases h : t = a
    · subst h
      cases s.memory.lists[t]? <;> simp
    · simp [h, Ne.symm h]
  | inr d => simp [setItems, Memory.contents]

theorem setEntries_contents (t : Nat) (entries : List MarkedEntry) (c : Container) :
    (setEntries t entries s).memory.contents c = if c = .inr t then
      (s.memory.dicts[t]?).map fun data => .inr { data with entries } else s.memory.contents c := by
  cases c with
  | inl a => simp [setEntries, Memory.contents]
  | inr d =>
    simp only [setEntries, Memory.contents, List.getElem?_modify, Sum.inr.injEq]
    by_cases h : t = d
    · subst h
      cases s.memory.dicts[t]? <;> simp
    · simp [h, Ne.symm h]

/-! ## Runs -/

variable {β γ : Type}

/-- A run of copying from `s` ends as a walk does: with copies of the containers that the walk has
visited, or at the depth limit. -/
inductive InStep (orig : Memory) (s : Copying) (answer : Copying → γ → Prop) :
    Outcome Container EvalError → EStateM.Result EvalError Copying γ → Prop
  | done {seen : Finset Container} {s' : Copying} {a : γ} : s'.Keys seen → Tracks orig s' →
    Progress orig s s' → answer s' a → InStep orig s answer (some (.ok (true, seen))) (.ok a s')
  | tooDeep {s' : Copying} : orig.Unchanged s'.memory →
    InStep orig s answer (some (.error depthError)) (.error depthError s')

/-- What a container holds is copied one after another, as the walk visits it. -/
theorem mapM_inStep (visit : Finset Container → Value → Outcome Container EvalError)
    (f : β → EStateM EvalError Copying γ) (value : β → Value)
    (answer : (Container → Option Container) → β → γ → Prop)
    (hmono : ∀ target target', Grows target target' → ∀ x y, answer target x y → answer target' x y)
    {xs : List β} (hvisit : ∀ x ∈ xs, ∀ s seen, Tracks orig s → s.Keys seen →
      InStep orig s (fun s' y => answer s'.copyOf x y) (visit seen (value x)) (f x s))
    {seen : Finset Container} (hs : Tracks orig s) (hkeys : s.Keys seen) :
    InStep orig s (fun s' ys => List.Forall₂ (answer s'.copyOf) xs ys)
      (walkAll visit ((xs.map value).map some) seen) (xs.mapM f s) := by
  induction xs generalizing s seen with
  | nil =>
    rw [List.mapM_nil]
    exact .done hkeys hs (.refl s) .nil
  | cons x xs ih =>
    have hhead := hvisit x (List.mem_cons_self ..) s seen hs hkeys
    rw [List.mapM_cons, List.map_cons, List.map_cons, walkAll]
    generalize houtcome : visit seen (value x) = outcome at hhead
    generalize hresult : f x s = result at hhead
    cases hhead with
    | tooDeep hkept =>
      rw [bind_error hresult]
      exact .tooDeep hkept
    | @done seen' s' y hkeys' hs' hprogress hy =>
      have hrest := ih (fun z hz => hvisit z (List.mem_cons_of_mem _ hz)) hs' hkeys'
      rw [bind_ok hresult]
      dsimp only
      generalize houtcome' : walkAll visit ((xs.map value).map some) seen' = outcome' at hrest
      generalize hresult' : xs.mapM f s' = result' at hrest
      cases hrest with
      | tooDeep hkept =>
        rw [bind_error hresult']
        exact .tooDeep hkept
      | done hkeys'' hs'' hprogress' hys =>
        rw [bind_ok hresult']
        exact .done hkeys'' hs'' (hprogress.trans hprogress' hs')
          (.cons (hmono _ _ hprogress'.grows _ _ hy) hys)

end Copying

open Copying

variable {orig : Memory} {s : Copying}

section Traverse

variable {fuel depth : Nat} {seen : Finset Container} {v : Value} {c : Container}

theorem traverse_tooDeep (hdepth : depth ≥ maxContainerDepth) :
    traverse orig (fuel + 1) depth seen v = some (.error depthError) := by
  rw [traverse, walk, if_pos hdepth]

theorem traverse_scalar (hdepth : ¬depth ≥ maxContainerDepth) (hv : container v = none) :
    traverse orig (fuel + 1) depth seen v = some (.ok (true, seen)) := by
  have hkey : orig.graph.key v = none := hv
  rw [traverse, walk, if_neg hdepth]
  dsimp only
  rw [hkey]
  rfl

theorem traverse_again (hdepth : ¬depth ≥ maxContainerDepth) (hv : container v = some c)
    (hc : c ∈ seen) : traverse orig (fuel + 1) depth seen v = some (.ok (true, seen)) := by
  have hkey : orig.graph.key v = some c := hv
  rw [traverse, walk, if_neg hdepth]
  dsimp only
  rw [hkey]
  dsimp only
  rw [if_pos hc]

theorem traverse_enter (hdepth : ¬depth ≥ maxContainerDepth) (hv : container v = some c)
    (hc : c ∉ seen) : traverse orig (fuel + 1) depth seen v
      = walkAll (traverse orig fuel (depth + 1)) ((orig.held v).map some) (insert c seen) := by
  have hkey : orig.graph.key v = some c := hv
  rw [traverse, walk, if_neg hdepth]
  dsimp only
  rw [hkey]
  dsimp only
  rw [if_neg hc]
  rfl

end Traverse

section Copy

variable {depth a d : Nat}

theorem copy_tooDeep (hdepth : depth ≥ maxContainerDepth) (v : Value) :
    copy v depth s = .error depthError s := by
  unfold copy
  rw [if_pos hdepth]
  rfl

theorem copy_scalar (hdepth : ¬depth ≥ maxContainerDepth) {v : Value} (hv : container v = none) :
    copy v depth s = .ok v s := by
  unfold copy
  rw [if_neg hdepth]
  cases v <;> first | rfl | cases hv

theorem copy_list_again {b : Nat} (hdepth : ¬depth ≥ maxContainerDepth)
    (hcopy : s.lists a = some b) : copy (.list a) depth s = .ok (.list b) s := by
  rw [copy, if_neg hdepth, bind_ok (get_run s), hcopy]
  rfl

theorem copy_dict_again {e : Nat} (hdepth : ¬depth ≥ maxContainerDepth)
    (hcopy : s.dicts d = some e) : copy (.dict d) depth s = .ok (.dict e) s := by
  rw [copy, if_neg hdepth, bind_ok (get_run s), hcopy]
  rfl

theorem copy_list_enter (hdepth : ¬depth ≥ maxContainerDepth) (hcopy : s.lists a = none) :
    copy (.list a) depth s = ((listItems (s.enter (.inl a)) a).mapM
      (fun item => copy item (depth + 1)) >>= fun items => do
        modify (setItems s.memory.lists.length items)
        return .list s.memory.lists.length) (s.enter (.inl a)) := by
  rw [copy, if_neg hdepth, bind_ok (get_run s), hcopy]
  rfl

theorem copy_dict_enter (hdepth : ¬depth ≥ maxContainerDepth) (hcopy : s.dicts d = none) :
    copy (.dict d) depth s = ((clonedEntries (s.enter (.inr d)) d).mapM
      (fun entry => MarkedEntry.new entry.key <$> copy entry.value (depth + 1)) >>=
      fun entries => do
        modify (setEntries s.memory.dicts.length entries)
        return .dict s.memory.dicts.length) (s.enter (.inr d)) := by
  rw [copy, if_neg hdepth, bind_ok (get_run s), hcopy]
  rfl

end Copy

/-- The contents of the copy that was entered last are those of an empty container. -/
theorem enter_contents_next (c : Container) : (s.enter c).memory.contents (s.next c)
    = some (c.map (fun _ => ⟨[], .default⟩) fun _ => ⟨[], .default, false⟩) := by
  cases c <;> simp [enter, next, Memory.contents]

/-- What a container holds is copied after the container was entered, and installed then. -/
theorem Copying.InStep.install {γ : Type} {c : Container} (hs : Tracks orig s)
    (hnone : s.copyOf c = none) {data : ListData ⊕ DictData} (hdata : orig.contents c = some data)
    {run : EStateM EvalError Copying γ} {outcome : Outcome Container EvalError}
    {answer : Copying → γ → Prop} (h : InStep orig (s.enter c) answer outcome (run (s.enter c)))
    (put : γ → Copying → Copying) (hcopyOf : ∀ ys s', (put ys s').copyOf = s'.copyOf)
    (hcontents : ∀ ys s' t, t ≠ s.next c → (put ys s').memory.contents t = s'.memory.contents t)
    (hput : ∀ ys s', answer s' ys →
      s'.memory.contents (s.next c) = (s.enter c).memory.contents (s.next c) →
        ∃ data', (put ys s').memory.contents (s.next c) = some data' ∧ Copies s'.copyOf data data')
    {v w : Value} (hw : ∀ target, target c = some (s.next c) → Renamed target v w) :
    InStep orig s (fun s' w => Renamed s'.copyOf v w) outcome ((run >>= fun ys => do
      modify (put ys)
      return w) (s.enter c)) := by
  generalize hresult : run (s.enter c) = result at h
  cases h with
  | tooDeep hkept =>
    rw [bind_error hresult]
    exact .tooDeep hkept
  | @done seen s' ys hkeys hs' hprogress hanswer =>
    have hframe := hprogress.frame (s.next c) ((enter_live c _).mpr (.inl rfl))
    obtain ⟨data', hdata', hcopies⟩ := hput ys s' hanswer hframe
    obtain ⟨htracks, hprogress'⟩ := Progress.install hs hnone hs' hprogress (hcopyOf ys s')
      (hcontents ys s') hdata hdata' (hcopyOf ys s' ▸ hcopies)
    rw [bind_ok hresult, bind_ok (modify_run (put ys) s')]
    refine .done ?_ htracks hprogress' (hw _ ?_)
    · intro c'
      rw [hcopyOf]
      exact hkeys c'
    · rw [hcopyOf]
      exact hprogress.grows c _ (by rw [enter_copyOf, if_pos rfl])

/-- **Copying goes along with the traversal of what a value leads to.** -/
theorem copy_inStep {fuel depth : Nat} (hfuel : fuel + depth = maxContainerDepth) {v : Value}
    (hv : ∀ w, Reach orig.graph v w → orig.Bounded w) (hs : Tracks orig s) {seen : Finset Container}
    (hkeys : s.Keys seen) : InStep orig s (fun s' w => Renamed s'.copyOf v w)
      (traverse orig (fuel + 1) depth seen v) (copy v depth s) := by
  induction fuel generalizing depth v s seen with
  | zero =>
    have hdepth : depth ≥ maxContainerDepth := by omega
    rw [copy_tooDeep hdepth, traverse_tooDeep hdepth]
    exact .tooDeep hs.kept
  | succ fuel ih =>
    have hdepth : ¬depth ≥ maxContainerDepth := by omega
    have hvisit : ∀ w ∈ orig.held v, (container v).isSome → ∀ s seen, Tracks orig s → s.Keys seen →
        InStep orig s (fun s' x => Renamed s'.copyOf w x)
          (traverse orig (fuel + 1) (depth + 1) seen w) (copy w (depth + 1) s) := by
      intro w hw hc s seen hs hkeys
      refine ih (by omega) (fun w' hreach => ?_) hs hkeys
      exact hv w' (.head (Memory.part_iff.mpr ⟨hc, hw⟩) hreach)
    cases v with
    | list a =>
      cases hcopy : s.lists a with
      | some b =>
        have hmem : (.inl a : Container) ∈ seen := by
          rw [hkeys, copyOf, hcopy]
          rfl
        rw [traverse_again hdepth rfl hmem, copy_list_again hdepth hcopy]
        refine .done hkeys hs (.refl s) (.list ?_)
        rw [copyOf, hcopy, Option.map_some]
      | none =>
        have hnone : s.copyOf (.inl a) = none := by rw [copyOf, hcopy, Option.map_none]
        have hmem : (.inl a : Container) ∉ seen := by
          rw [hkeys, hnone]
          exact Bool.false_ne_true
        have henter := hs.enter hnone
        obtain ⟨data, hdata, hitems, hheld⟩ := henter.listItems (hv _ .refl _ rfl)
        have hall := mapM_inStep (traverse orig (fuel + 1) (depth + 1))
          (fun item => copy item (depth + 1)) (fun item => item) Renamed
          (fun _ _ hgrows _ _ hvw => Renamed.mono hgrows hvw)
          (fun w hw s seen hs hkeys => hvisit w hw rfl s seen hs hkeys) henter
          (keys_enter hkeys (.inl a))
        rw [traverse_enter hdepth rfl hmem, copy_list_enter hdepth hcopy, hitems, ← hheld]
        rw [List.map_id'] at hall
        refine hall.install hs hnone hdata (setItems s.memory.lists.length) (fun _ _ => rfl) ?_ ?_
          fun _ hc => .list hc
        · intro items s' t ht
          exact (setItems_contents _ items t).trans (if_neg ht)
        · intro items s' hitems hcontents
          rw [enter_contents_next] at hcontents
          obtain ⟨empty, hget, heq⟩ := Option.map_eq_some_iff.mp hcontents
          obtain rfl := Sum.inl.inj heq
          rw [hheld] at hitems
          refine ⟨_, ?_, .list hitems⟩
          rw [setItems_contents, next, if_pos rfl, hget]
          rfl
    | dict d =>
      cases hcopy : s.dicts d with
      | some e =>
        have hmem : (.inr d : Container) ∈ seen := by
          rw [hkeys, copyOf, hcopy]
          rfl
        rw [traverse_again hdepth rfl hmem, copy_dict_again hdepth hcopy]
        refine .done hkeys hs (.refl s) (.dict ?_)
        rw [copyOf, hcopy, Option.map_some]
      | none =>
        have hnone : s.copyOf (.inr d) = none := by rw [copyOf, hcopy, Option.map_none]
        have hmem : (.inr d : Container) ∉ seen := by
          rw [hkeys, hnone]
          exact Bool.false_ne_true
        have henter := hs.enter hnone
        obtain ⟨data, hdata, hentries, hheld⟩ := henter.clonedEntries (hv _ .refl _ rfl)
        have hentry : ∀ entry ∈ data.entries, ∀ s seen, Tracks orig s → s.Keys seen →
            InStep orig s (fun s' copied => EntryRenamed s'.copyOf entry copied)
              (traverse orig (fuel + 1) (depth + 1) seen entry.value)
              ((MarkedEntry.new entry.key <$> copy entry.value (depth + 1)) s) := by
          intro entry hentry s seen hs hkeys
          have hvalue := hvisit entry.value (by
            rw [hheld]
            exact List.mem_map_of_mem hentry) rfl s seen hs hkeys
          rw [map_run]
          generalize traverse orig (fuel + 1) (depth + 1) seen entry.value = outcome at hvalue
          generalize copy entry.value (depth + 1) s = result at hvalue
          cases hvalue with
          | tooDeep hkept => exact .tooDeep hkept
          | done hkeys' hs' hprogress hanswer =>
            exact .done hkeys' hs' hprogress ⟨_, hanswer, rfl⟩
        have hall := mapM_inStep (traverse orig (fuel + 1) (depth + 1))
          (fun entry => MarkedEntry.new entry.key <$> copy entry.value (depth + 1))
          (fun entry => entry.value) EntryRenamed
          (fun _ _ hgrows _ _ hee => EntryRenamed.mono hgrows hee) hentry henter
          (keys_enter hkeys (.inr d))
        rw [traverse_enter hdepth rfl hmem, copy_dict_enter hdepth hcopy, hentries, hheld]
        refine hall.install hs hnone hdata (setEntries s.memory.dicts.length) (fun _ _ => rfl) ?_ ?_
          fun _ hc => .dict hc
        · intro entries s' t ht
          exact (setEntries_contents _ entries t).trans (if_neg ht)
        · intro entries s' hentries hcontents
          rw [enter_contents_next] at hcontents
          obtain ⟨empty, hget, heq⟩ := Option.map_eq_some_iff.mp hcontents
          obtain rfl := Sum.inr.inj heq
          refine ⟨_, ?_, .dict hentries⟩
          rw [setEntries_contents, next, if_pos rfl, hget]
          rfl
    | _ =>
      rw [traverse_scalar hdepth rfl, copy_scalar hdepth rfl]
      exact .done hkeys hs (.refl s) (.scalar rfl)

end Oxvim.Eval
