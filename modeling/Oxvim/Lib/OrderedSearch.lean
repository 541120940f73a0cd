import Mathlib

/-!
# Depth-first search in priority order

Threads wait on a stack; the one on top is taken off, and what it leads to is put in its place, in
order. A thread may have a key: where one with the same key was taken before, it is dropped.

Threads that `Same` relates lead to related ones, and threads with one key are related. Then the search
finds the first goal of the tree to which the threads unfold, where that is finite (`search_first`), as
it would if it dropped none.
-/

namespace Lib.OrderedSearch

universe u v w

/-- Threads, what they lead to in order, and which of them are told apart by a key. -/
structure Graph (σ : Type u) (κ : Type v) (ε : Type w) where
  next : σ → Except ε (List σ)
  goal : σ → Bool
  key : σ → Option κ

variable {σ : Type u} {κ : Type v} {ε : Type w} [DecidableEq κ]

namespace Graph

variable (G : Graph σ κ ε)

def pruned (visited : Finset κ) (s : σ) : Bool := (G.key s).any fun k => decide (k ∈ visited)

def mark (visited : Finset κ) (s : σ) : Finset κ := (G.key s).elim visited fun k => insert k visited

/-- The search with so many steps left; `spent` is the error when there are none. -/
def search (spent : ε) : (left : Nat) → (visited : Finset κ) → (stack : List σ) →
    Except ε (Option σ × Nat)
  | left, _, [] => .ok (none, left)
  | 0, _, _ :: _ => .error spent
  | left + 1, visited, s :: stack =>
    if G.pruned visited s then search spent left visited stack
    else if G.goal s then .ok (some s, left)
    else match G.next s with
      | .error e => .error e
      | .ok ss => search spent left (G.mark visited s) (ss ++ stack)

/-- One thread leads to another. -/
def Leads (s t : σ) : Prop := ∃ ss, G.next s = .ok ss ∧ t ∈ ss

def Reaches : σ → σ → Prop := Relation.ReflTransGen G.Leads

variable {G} {spent : ε} {left left' : Nat} {visited : Finset κ} {stack : List σ} {r : Option σ}
  {s t : σ} {k : κ}

theorem pruned_iff : G.pruned visited s = true ↔ ∃ k ∈ visited, G.key s = some k := by
  rw [pruned]
  cases G.key s with
  | none => simp
  | some k => simp [eq_comm]

theorem mem_mark : k ∈ G.mark visited s ↔ G.key s = some k ∨ k ∈ visited := by
  rw [mark]
  cases G.key s with
  | none => simp
  | some k' => simp [eq_comm]

/-! ## What is found can be reached -/

theorem search_sound (h : G.search spent left visited stack = .ok (some t, left')) :
    G.goal t = true ∧ ∃ s ∈ stack, G.Reaches s t := by
  fun_induction G.search spent left visited stack with
  | case1 => cases h
  | case2 => cases h
  | case3 left visited s stack hpruned ih =>
    obtain ⟨hgoal, s', hmem, hreach⟩ := ih h
    exact ⟨hgoal, s', List.mem_cons_of_mem s hmem, hreach⟩
  | case4 left visited s stack hpruned hgoal =>
    cases h
    exact ⟨hgoal, t, List.mem_cons_self, .refl⟩
  | case5 => cases h
  | case6 left visited s stack hpruned hgoal ss hnext ih =>
    obtain ⟨hgoal, s', hmem, hreach⟩ := ih h
    refine ⟨hgoal, ?_⟩
    rcases List.mem_append.mp hmem with hmem | hmem
    · exact ⟨s, List.mem_cons_self, .head ⟨ss, hnext, hmem⟩ hreach⟩
    · exact ⟨s', List.mem_cons_of_mem s hmem, hreach⟩

end Graph

/-- Threads that cannot be told apart by what they lead to. -/
structure Sameness (G : Graph σ κ ε) where
  Same : σ → σ → Prop
  refl : ∀ s, Same s s
  trans : ∀ {s t u}, Same s t → Same t u → Same s u
  of_key : ∀ {s t k}, G.key s = some k → G.key t = some k → Same s t
  goal_eq : ∀ {s t}, Same s t → G.goal s = G.goal t
  next_same : ∀ {s t ss ts}, Same s t → G.next s = .ok ss → G.next t = .ok ts →
    List.Forall₂ Same ss ts

namespace Graph

variable {G : Graph σ κ ε} (S : Sameness G) {spent : ε} {left left' : Nat} {visited : Finset κ}
  {stack : List σ} {r : Option σ} {s t : σ} {k : κ}

theorem exists_of_forall₂ {α β : Type*} {R : α → β → Prop} {as : List α} {bs : List β}
    (h : List.Forall₂ R as bs) {b : β} (hb : b ∈ bs) : ∃ a ∈ as, R a b := by
  induction h with
  | nil => cases hb
  | @cons a b' as bs hab _ ih =>
    rcases List.mem_cons.mp hb with rfl | hb
    · exact ⟨a, List.mem_cons_self, hab⟩
    · obtain ⟨a', ha', hR⟩ := ih hb
      exact ⟨a', List.mem_cons_of_mem a ha', hR⟩

/-! ## The first goal is found -/

mutual

/-- What a thread unfolds to, where that is finite: the number of threads, and the goals in order. -/
inductive Tree (G : Graph σ κ ε) : Nat → σ → List σ → Prop where
  | goal {s : σ} (h : G.goal s = true) : Tree G 1 s [s]
  | node {n : Nat} {s : σ} {ss out : List σ} (h : G.goal s = false) (hnext : G.next s = .ok ss)
      (hss : Forest G n ss out) : Tree G (n + 1) s out

inductive Forest (G : Graph σ κ ε) : Nat → List σ → List σ → Prop where
  | nil : Forest G 0 [] []
  | cons {m n : Nat} {s : σ} {ss out outs : List σ} (hs : Tree G m s out) (hss : Forest G n ss outs) :
      Forest G (m + n) (s :: ss) (out ++ outs)

end

section

omit [DecidableEq κ]

theorem Tree.pos {n : Nat} {out : List σ} (h : Tree G n s out) : 0 < n := by
  cases h <;> omega

/-- Threads that are the same unfold alike. -/
theorem Forest.same (S : Sameness G) {n m : Nat} {ss ts out out' : List σ}
    (hsame : List.Forall₂ S.Same ss ts) (hs : Forest G n ss out) (ht : Forest G m ts out') :
    n = m ∧ (out = [] ↔ out' = []) := by
  induction n using Nat.strongRecOn generalizing m ss ts out out' with
  | ind n ih =>
    cases hs with
    | nil =>
      cases hsame
      cases ht
      exact ⟨rfl, Iff.rfl⟩
    | cons htree hforest =>
      cases hsame with
      | cons hhead htail =>
        cases ht with
        | cons htree' hforest' =>
          have hpos := htree.pos
          obtain ⟨hn, houts⟩ := ih _ (by omega) htail hforest hforest'
          have hgoal := S.goal_eq hhead
          rw [List.append_eq_nil_iff, List.append_eq_nil_iff, houts, hn]
          cases htree with
          | goal h =>
            cases htree' with
            | goal h' => simp
            | node h' => rw [h, h'] at hgoal; cases hgoal
          | node h hnext hss =>
            cases htree' with
            | goal h' => rw [h, h'] at hgoal; cases hgoal
            | node h' hnext' hts =>
              obtain ⟨hm, hout⟩ := ih _ (by omega) (S.next_same hhead hnext hnext') hss hts
              rw [hout, hm]
              exact ⟨rfl, Iff.rfl⟩

theorem Tree.same (S : Sameness G) {n m : Nat} {s t : σ} {out out' : List σ} (hsame : S.Same s t)
    (hs : Tree G n s out) (ht : Tree G m t out') : n = m ∧ (out = [] ↔ out' = []) := by
  have h := Forest.same S (.cons hsame .nil) (.cons hs .nil) (.cons ht .nil)
  simpa using h

end

/-- Threads with the key lead to no goal. -/
def Dead (G : Graph σ κ ε) (k : κ) : Prop :=
  ∀ n t out, G.key t = some k → Tree G n t out → out = []

/-- Threads with the key unfold to more than so many. -/
def Larger (G : Graph σ κ ε) (n : Nat) (k : κ) : Prop :=
  ∀ m t out, G.key t = some k → Tree G m t out → n < m

/-- The search goes through the threads on top of the stack: it stops at the first goal, or comes to what
is below with more dead keys. Keys that were seen and are not dead are those of threads being unfolded,
and these are larger. -/
theorem search_forest (S : Sameness G) {n : Nat} {ss out : List σ} (hss : Forest G n ss out)
    {left : Nat} {visited : Finset κ} (hvisited : ∀ k ∈ visited, Dead G k ∨ Larger G n k)
    (h : G.search spent left visited (ss ++ stack) = .ok (r, left')) :
    (∃ o outs, out = o :: outs ∧ r = some o) ∨
      (out = [] ∧ ∃ left visited', (∀ k ∈ visited', Dead G k ∨ k ∈ visited) ∧
        G.search spent left visited' stack = .ok (r, left')) := by
  induction n using Nat.strongRecOn generalizing ss out left visited stack with
  | ind n ih =>
    cases hss with
    | nil => exact .inr ⟨rfl, left, visited, fun k hk => .inr hk, h⟩
    | @cons m n' s ss out outs hs hss =>
      -- Once the first thread is done with, the others are fewer.
      have hrest : ∀ {left : Nat} {visited' : Finset κ}, 0 < m → out = [] →
          (∀ k ∈ visited', Dead G k ∨ k ∈ visited) →
          G.search spent left visited' (ss ++ stack) = .ok (r, left') →
          (∃ o outs', out ++ outs = o :: outs' ∧ r = some o) ∨
            (out ++ outs = [] ∧ ∃ left visited', (∀ k ∈ visited', Dead G k ∨ k ∈ visited) ∧
              G.search spent left visited' stack = .ok (r, left')) := by
        rintro left visited' hm rfl hdead h
        have hlarger : ∀ k ∈ visited', Dead G k ∨ Larger G n' k := by
          intro k hk
          rcases hdead k hk with hk | hk
          · exact .inl hk
          · refine (hvisited k hk).imp_right fun hk a t out hkey ht => ?_
            have := hk a t out hkey ht
            omega
        rw [List.nil_append]
        refine (ih n' (by omega) hss hlarger h).imp_right ?_
        rintro ⟨hout, left, visited'', hdead', h⟩
        exact ⟨hout, left, visited'', fun k hk => (hdead' k hk).elim .inl (hdead k), h⟩
      rw [List.cons_append] at h
      cases left with
      | zero => cases h
      | succ left =>
        rw [search] at h
        split at h
        · next hpruned =>
          obtain ⟨k, hk, hkey⟩ := pruned_iff.mp hpruned
          have hout : out = [] := by
            rcases hvisited k hk with hdead | hlarger
            · exact hdead m s out hkey hs
            · have := hlarger m s out hkey hs
              omega
          exact hrest (by cases hs <;> omega) hout (fun k hk => .inr hk) h
        · cases hs with
          | goal hgoal =>
            rw [if_pos hgoal] at h
            cases h
            exact .inl ⟨s, outs, rfl, rfl⟩
          | @node a _ children _ hgoal hnext hchildren =>
            rw [if_neg (Bool.eq_false_iff.mp hgoal), hnext] at h
            have hown : ∀ k, G.key s = some k → ∀ b t out', G.key t = some k → Tree G b t out' →
                a + 1 = b ∧ (out = [] ↔ out' = []) := by
              intro k hkey b t out' hkey' ht
              exact Tree.same S (S.of_key hkey hkey') (.node hgoal hnext hchildren) ht
            have hmark : ∀ k ∈ G.mark visited s, Dead G k ∨ Larger G a k := by
              intro k hk
              rcases mem_mark.mp hk with hk | hk
              · exact .inr fun b t out' hkey ht => (hown k hk b t out' hkey ht).1 ▸ Nat.lt_succ_self a
              · refine (hvisited k hk).imp_right fun hk b t out' hkey ht => ?_
                have := hk b t out' hkey ht
                omega
            rcases ih a (by omega) hchildren hmark h with ⟨o, outs', rfl, hr⟩ | ⟨hout, left, visited',
              hdead, h⟩
            · exact .inl ⟨o, outs' ++ outs, rfl, hr⟩
            · refine hrest (Nat.succ_pos a) hout (fun k hk => ?_) h
              rcases hdead k hk with hk | hk
              · exact .inl hk
              · rcases mem_mark.mp hk with hk | hk
                · exact .inl fun b t out' hkey ht => (hown k hk b t out' hkey ht).2.mp hout
                · exact .inr hk

/-- The search finds the first goal of what the threads unfold to. -/
theorem search_first (S : Sameness G) {n : Nat} {ss out : List σ} (hss : Forest G n ss out)
    (h : G.search spent left ∅ ss = .ok (r, left')) : r = out.head? := by
  have hempty : ∀ k ∈ (∅ : Finset κ), Dead G k ∨ Larger G n k := by simp
  rw [← List.append_nil ss] at h
  rcases search_forest S hss hempty h with ⟨o, outs, rfl, rfl⟩ | ⟨rfl, left, visited, -, h⟩
  · rfl
  · rw [search] at h
    cases h
    rfl

/-! ## Unfolding by rules -/

section Unfolds

universe x

variable {β : Type x} {view : σ → β} {out : List β} {ss : List σ}

/-- The thread unfolds to a finite tree, with goals of which this is seen. -/
def UnfoldsTo (G : Graph σ κ ε) (view : σ → β) (s : σ) (out : List β) : Prop :=
  ∃ n goals, Tree G n s goals ∧ goals.map view = out

omit [DecidableEq κ] in
theorem UnfoldsTo.goal (h : G.goal s = true) : G.UnfoldsTo view s [view s] := ⟨1, [s], .goal h, rfl⟩

omit [DecidableEq κ] in
theorem UnfoldsTo.node {outs : List (List β)} (h : G.goal s = false) (hnext : G.next s = .ok ss)
    (hss : List.Forall₂ (G.UnfoldsTo view) ss outs) : G.UnfoldsTo view s outs.flatten := by
  have hforest : ∃ n goals, Forest G n ss goals ∧ goals.map view = outs.flatten := by
    clear hnext
    induction hss with
    | nil => exact ⟨0, [], .nil, rfl⟩
    | cons ht _ ih =>
      obtain ⟨m, goals, htree, hgoals⟩ := ht
      obtain ⟨n, goals', hforest, hgoals'⟩ := ih
      refine ⟨m + n, goals ++ goals', .cons htree hforest, ?_⟩
      rw [List.map_append, hgoals, hgoals', List.flatten_cons]
  obtain ⟨n, goals, hforest, hgoals⟩ := hforest
  exact ⟨n + 1, goals, .node h hnext hforest, hgoals⟩

theorem UnfoldsTo.search_first (S : Sameness G) (hs : G.UnfoldsTo view s out)
    (h : G.search spent left ∅ [s] = .ok (r, left')) : r.map view = out.head? := by
  obtain ⟨n, goals, htree, rfl⟩ := hs
  rw [Graph.search_first S (.cons htree .nil) h, List.append_nil, List.head?_map]

end Unfolds

/-! ## Two graphs -/

/-- A search gives the same where another graph agrees on all threads that it meets. -/
theorem search_agree {H : Graph σ κ ε} {P : σ → Prop} (hkey : ∀ s, H.key s = G.key s)
    (hgoal : ∀ s, H.goal s = G.goal s)
    (hnext : ∀ s ss, P s → G.next s = .ok ss → H.next s = .ok ss ∧ ∀ t ∈ ss, P t)
    (hstack : ∀ s ∈ stack, P s) (h : G.search spent left visited stack = .ok (r, left')) :
    H.search spent left visited stack = .ok (r, left') := by
  have hpruned : ∀ visited s, H.pruned visited s = G.pruned visited s := by
    intro visited s
    rw [pruned, pruned, hkey]
  have hmark : ∀ visited s, H.mark visited s = G.mark visited s := by
    intro visited s
    rw [mark, mark, hkey]
  fun_induction G.search spent left visited stack with
  | case1 =>
    rw [search]
    exact h
  | case2 => cases h
  | case3 left visited s stack hseen ih =>
    rw [search, hpruned, if_pos hseen]
    exact ih (List.forall_mem_cons.mp hstack).2 h
  | case4 left visited s stack hseen hfound =>
    rw [search, hpruned, if_neg hseen, hgoal, if_pos hfound]
    exact h
  | case5 => cases h
  | case6 left visited s stack hseen hfound ss hss ih =>
    obtain ⟨hs, hstack⟩ := List.forall_mem_cons.mp hstack
    obtain ⟨hnext, hnew⟩ := hnext s ss hs hss
    rw [search, hpruned, if_neg hseen, hgoal, if_neg hfound, hnext, hmark]
    exact ih (List.forall_mem_append.mpr ⟨hnew, hstack⟩) h

/-! ## How many steps are enough -/

variable (spent) in
/-- Where every thread has one of `N` keys and leads to at most `b` others, a search ends within as many
steps as there are threads on the stack, and `b` for each key that was not seen yet. -/
theorem search_ok {keys : Finset κ} {b : Nat}
    (hnext : ∀ s, (∃ k ∈ keys, G.key s = some k) → ∃ ss, G.next s = .ok ss ∧ ss.length ≤ b ∧
      ∀ t ∈ ss, ∃ k ∈ keys, G.key t = some k)
    (hstack : ∀ s ∈ stack, ∃ k ∈ keys, G.key s = some k) (hvisited : visited ⊆ keys)
    (hleft : stack.length + b * (keys.card - visited.card) ≤ left) :
    ∃ r left', G.search spent left visited stack = .ok (r, left') ∧
      left ≤ left' + stack.length + b * (keys.card - visited.card) := by
  fun_induction G.search spent left visited stack with
  | case1 visited left => exact ⟨none, left, rfl, by omega⟩
  | case2 visited s stack =>
    rw [List.length_cons] at hleft
    omega
  | case3 left visited s stack hpruned ih =>
    rw [List.length_cons] at hleft ⊢
    obtain ⟨r, left', h, hle⟩ := ih (fun t ht => hstack t (List.mem_cons_of_mem s ht)) hvisited
      (by omega)
    exact ⟨r, left', h, by omega⟩
  | case4 left visited s stack hpruned hgoal =>
    refine ⟨some s, left, rfl, ?_⟩
    rw [List.length_cons]
    omega
  | case5 left visited s stack hpruned hgoal e he =>
    obtain ⟨ss, hss, -⟩ := hnext s (hstack s List.mem_cons_self)
    rw [he] at hss
    cases hss
  | case6 left visited s stack hpruned hgoal ss hss ih =>
    obtain ⟨k, hk, hkey⟩ := hstack s List.mem_cons_self
    obtain ⟨ss', hss', hlen, hnew'⟩ := hnext s ⟨k, hk, hkey⟩
    obtain rfl := Except.ok.inj (hss.symm.trans hss')
    have hnew : k ∉ visited := fun hmem => hpruned (pruned_iff.mpr ⟨k, hmem, hkey⟩)
    have hmark : G.mark visited s = insert k visited := by rw [mark, hkey]; rfl
    have hsub : insert k visited ⊆ keys := Finset.insert_subset hk hvisited
    have hcard := Finset.card_le_card hsub
    rw [Finset.card_insert_of_notMem hnew] at hcard
    have hcost : b * (keys.card - visited.card)
        = b + b * (keys.card - (visited.card + 1)) := by
      rw [Nat.add_comm, ← Nat.mul_succ]
      congr 1
      omega
    rw [hmark] at ih ⊢
    rw [List.length_cons] at hleft ⊢
    rw [Finset.card_insert_of_notMem hnew, List.length_append] at ih
    obtain ⟨r, left', h, hle⟩ := ih (List.forall_mem_append.mpr
      ⟨hnew', fun t ht => hstack t (List.mem_cons_of_mem s ht)⟩) hsub (by omega)
    exact ⟨r, left', h, by omega⟩

end Graph

end Lib.OrderedSearch
