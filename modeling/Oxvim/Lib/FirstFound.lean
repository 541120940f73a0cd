import Oxvim.Lib.Repetition

/-!
# Lists alike to a search

Two lists are alike where a search finds the same in both, whatever it searches for: they have the same
elements, in the same order of first occurrence. Repeating an optional body is alike to a repetition.
-/

namespace Lib

universe u v

variable {α : Type u} {β : Type v} {l l' l'' l₁ l₂ : List α} {f g : α → List β}

/-- Whatever one searches for, both lists have the same first. -/
def Alike (l l' : List α) : Prop := ∀ p : α → Bool, l.find? p = l'.find? p

namespace Alike

theorem refl (l : List α) : Alike l l := fun _ => rfl

theorem symm (h : Alike l l') : Alike l' l := fun p => (h p).symm

theorem trans (h : Alike l l') (h' : Alike l' l'') : Alike l l'' := fun p => (h p).trans (h' p)

theorem head?_eq (h : Alike l l') : l.head? = l'.head? := by
  have hall := h fun _ => true
  cases l <;> cases l' <;> simp at hall ⊢
  exact hall

theorem mem_iff (h : Alike l l') {a : α} : a ∈ l ↔ a ∈ l' := by
  classical
  have hfind := h fun b => decide (b = a)
  have hmem : ∀ l : List α, a ∈ l ↔ (l.find? fun b => decide (b = a)).isSome = true := by
    intro l
    simp
  rw [hmem l, hmem l', hfind]

theorem append (h : Alike l l') (h' : Alike l₁ l₂) : Alike (l ++ l₁) (l' ++ l₂) := by
  intro p
  rw [List.find?_append, List.find?_append, h p, h' p]

/-- Of what stands behind, only what is new counts. -/
theorem append_of_mem {a : α} (ha : a ∈ l') (h : ∀ b ∈ l', b = a ∨ b ∈ l) :
    Alike (l ++ l') (l ++ [a]) := by
  intro p
  rw [List.find?_append, List.find?_append]
  cases hfind : l.find? p with
  | some b => rfl
  | none =>
    have hnone := List.find?_eq_none.mp hfind
    cases hp : p a with
    | true =>
      cases hfind' : l'.find? p with
      | none => exact absurd hp (List.find?_eq_none.mp hfind' a ha)
      | some b =>
        have hb := List.find?_some hfind'
        rcases h b (List.mem_of_find?_eq_some hfind') with rfl | hmem
        · simp [hp]
        · exact absurd hb (hnone b hmem)
    | false =>
      have hnone' : l'.find? p = none := by
        apply List.find?_eq_none.mpr
        intro b hb
        rcases h b hb with rfl | hmem
        · simp [hp]
        · exact hnone b hmem
      rw [hnone']
      simp [hp]

theorem findSome?_eq_bind (f : α → Option β) (l : List α) :
    l.findSome? f = (l.find? fun a => (f a).isSome).bind f := by
  induction l with
  | nil => rfl
  | cons a l ih =>
    rw [List.findSome?_cons, List.find?_cons, ih]
    cases hf : f a with
    | none => rfl
    | some b => simp [hf]

theorem flatMap (h : Alike l l') (hf : ∀ a ∈ l, Alike (f a) (g a)) :
    Alike (l.flatMap f) (l'.flatMap g) := by
  intro p
  have hsome : l.findSome? (fun a => (f a).find? p) = l.findSome? (fun a => (g a).find? p) := by
    clear h
    induction l with
    | nil => rfl
    | cons a l ih =>
      obtain ⟨ha, hl⟩ := List.forall_mem_cons.mp hf
      rw [List.findSome?_cons, List.findSome?_cons, ha p, ih hl]
  rw [List.find?_flatMap, List.find?_flatMap, hsome, findSome?_eq_bind, findSome?_eq_bind, h]

theorem map (h : Alike l l') (f : α → β) : Alike (l.map f) (l'.map f) := by
  rw [List.map_eq_flatMap, List.map_eq_flatMap]
  exact h.flatMap fun a _ => refl [f a]

end Alike

/-! ## Bodies one after another -/

namespace Repetition

/-- One body after another. -/
def inSequence : (bodies : List (α → List α)) → (s : α) → List α
  | [], s => [s]
  | body :: bodies, s => (body s).flatMap (inSequence bodies)

/-- Try the body, and go on without it too. -/
def optional (body : α → List α) (greedy : Bool) (s : α) : List α := arrange greedy [s] (body s)

section Repeated

variable {body : α → List α} {pos : α → Nat} {N low count k : Nat} {high : Option Nat} {greedy : Bool}
  {bodies bodies' : List (α → List α)} {s a : α}

/-- Attempts can all be passed over. -/
theorem self_mem_attempts : s ∈ inSequence (List.replicate k (optional body greedy)) s := by
  induction k with
  | zero => exact List.mem_singleton_self s
  | succ k ih =>
    rw [List.replicate_succ, inSequence, List.mem_flatMap]
    exact ⟨s, mem_arrange.mpr (.inl (List.mem_singleton_self s)), ih⟩

/-- One attempt more leads to all that fewer do. -/
theorem attempts_mono (h : a ∈ inSequence (List.replicate k (optional body greedy)) s) :
    a ∈ inSequence (List.replicate (k + 1) (optional body greedy)) s := by
  rw [List.replicate_succ, inSequence, List.mem_flatMap]
  exact ⟨s, mem_arrange.mpr (.inl (List.mem_singleton_self s)), h⟩

/-- What attempts lead to is the state itself, or behind a first one that was made. -/
theorem mem_attempts (h : a ∈ inSequence (List.replicate k (optional body greedy)) s) :
    a = s ∨ a ∈ (body s).flatMap (inSequence (List.replicate k (optional body greedy))) := by
  induction k with
  | zero => exact .inl (List.mem_singleton.mp h)
  | succ k ih =>
    rw [List.replicate_succ, inSequence, List.mem_flatMap] at h
    obtain ⟨t, ht, ha⟩ := h
    have hmore : ∀ {t : α}, t ∈ body s → a ∈ inSequence (List.replicate k (optional body greedy)) t →
        a ∈ (body s).flatMap (inSequence (List.replicate (k + 1) (optional body greedy))) :=
      fun ht ha => List.mem_flatMap.mpr ⟨_, ht, attempts_mono ha⟩
    rcases mem_arrange.mp ht with ht | ht
    · rw [List.mem_singleton.mp ht] at ha
      rcases ih ha with rfl | ha
      · exact .inl rfl
      · obtain ⟨t, ht, ha⟩ := List.mem_flatMap.mp ha
        exact .inr (hmore ht ha)
    · exact .inr (hmore ht ha)

/-- Attempts at a body that always moves are alike to a bounded repetition. -/
theorem attempts_alike (h : Bounded body pos N) (hmoves : Moves body pos N)
    (hs : pos s ≤ N) (hgreedy : greedy = true ∨ k ≤ 1) (hlow : low ≤ count) :
    Alike (inSequence (List.replicate k (optional body greedy)) s)
      (iterate body pos low (some (count + k)) greedy (N + 1) s count) := by
  induction k generalizing s count with
  | zero =>
    rw [iterate_eq h hs]
    simpa [inSequence, arrange, hlow] using Alike.refl [s]
  | succ k ih =>
    have hiterate : iterate body pos low (some (count + (k + 1))) greedy (N + 1) s count
        = arrange greedy [s] ((body s).flatMap fun next =>
            iterate body pos low (some (count + 1 + k)) greedy (N + 1) next (count + 1)) := by
      rw [iterate_eq h hs, if_pos hlow, if_pos (by simp)]
      congr 1
      apply List.flatMap_congr
      intro next hnext
      rw [if_neg (hmoves s hs next hnext), Nat.add_assoc, Nat.add_comm 1 k]
    have hbody : Alike ((body s).flatMap (inSequence (List.replicate k (optional body greedy))))
        ((body s).flatMap fun next =>
          iterate body pos low (some (count + 1 + k)) greedy (N + 1) next (count + 1)) :=
      (Alike.refl (body s)).flatMap fun next hnext =>
        ih (h s hs next hnext).2 (hgreedy.imp_right (by omega)) (by omega)
    rw [hiterate, List.replicate_succ, inSequence]
    cases greedy with
    | true =>
      rw [optional, arrange, arrange, if_pos rfl, if_pos rfl, List.flatMap_append,
        List.flatMap_singleton]
      refine Alike.trans ?_ (hbody.append (Alike.refl [s]))
      exact Alike.append_of_mem self_mem_attempts fun a ha => mem_attempts ha
    | false =>
      have hk : k = 0 := by simpa using hgreedy
      subst hk
      rw [optional, arrange, arrange, if_neg Bool.false_ne_true, if_neg Bool.false_ne_true,
        List.flatMap_append, List.flatMap_singleton]
      exact (Alike.refl _).append hbody

/-- A repetition begins with the iterations that it must have. -/
theorem iterate_required (h : Bounded body pos N) (hmoves : Moves body pos N)
    (hs : pos s ≤ N) (hhigh : ∀ m, high = some m → count + k ≤ m) (hlow : count + k = low) :
    iterate body pos low high greedy (N + 1) s count
      = (inSequence (List.replicate k body) s).flatMap fun t =>
          iterate body pos low high greedy (N + 1) t low := by
  induction k generalizing s count with
  | zero =>
    obtain rfl : count = low := hlow
    simp [inSequence]
  | succ k ih =>
    have hmax : high.all (count < ·) = true := by
      cases high with
      | none => rfl
      | some m =>
        have := hhigh m rfl
        simp
        omega
    rw [iterate_eq h hs, if_pos hmax, if_neg (by omega), List.replicate_succ, inSequence,
      List.flatMap_assoc]
    have hall : arrange greedy [] ((body s).flatMap fun next =>
        if pos next = pos s then if low ≤ count + 1 then [next] else []
        else iterate body pos low high greedy (N + 1) next (count + 1))
        = (body s).flatMap fun next =>
            if pos next = pos s then if low ≤ count + 1 then [next] else []
            else iterate body pos low high greedy (N + 1) next (count + 1) := by
      cases greedy <;> simp [arrange]
    rw [hall]
    apply List.flatMap_congr
    intro next hnext
    rw [if_neg (hmoves s hs next hnext)]
    exact ih (h s hs next hnext).2 (fun m hm => by have := hhigh m hm; omega) (by omega)

/-- Where there is no upper bound, it does not matter how many iterations there were. -/
theorem iterate_unbounded {fuel count' low' : Nat} (hlow : low ≤ count) (hlow' : low' ≤ count') :
    iterate body pos low none greedy fuel s count = iterate body pos low' none greedy fuel s count' := by
  induction fuel generalizing s count count' with
  | zero => rfl
  | succ fuel ih =>
    rw [iterate, iterate, if_pos hlow, if_pos hlow']
    congr 1
    simp only [Option.all_none, if_true]
    apply List.flatMap_congr
    intro next _
    split
    · rw [if_pos (by omega), if_pos (by omega)]
    · exact ih (by omega) (by omega)

/-- Repeat the body as often as it leads on. -/
def star (body : α → List α) (pos : α → Nat) (N : Nat) (greedy : Bool) (s : α) : List α :=
  iterate body pos 0 none greedy (N + 1) s 0

/-- Repeat the body as compilers do: as often as it must be, then as often as it may. -/
def repeated (body : α → List α) (pos : α → Nat) (N low : Nat) : (high : Option Nat) →
    (greedy : Bool) → (s : α) → List α
  | some high, greedy, s => (inSequence (List.replicate low body) s).flatMap
      (inSequence (List.replicate (high - low) (optional body greedy)))
  | none, greedy, s => (inSequence (List.replicate low body) s).flatMap (star body pos N greedy)

theorem star_eq (h : Bounded body pos N) (hmoves : Moves body pos N)
    (hs : pos s ≤ N) :
    star body pos N greedy s = arrange greedy [s] ((body s).flatMap (star body pos N greedy)) := by
  rw [star, iterate_eq h hs, if_pos (Nat.zero_le 0), Option.all_none, if_pos rfl]
  congr 1
  apply List.flatMap_congr
  intro next hnext
  rw [if_neg (hmoves s hs next hnext)]
  exact iterate_unbounded (Nat.zero_le _) (Nat.zero_le _)

theorem inSequence_bounded (h : ∀ body ∈ bodies, Bounded body pos N) :
    Bounded (inSequence bodies) pos N := by
  induction bodies with
  | nil =>
    intro s hs t ht
    rw [List.mem_singleton.mp ht]
    exact ⟨le_rfl, hs⟩
  | cons body bodies ih =>
    intro s hs t ht
    obtain ⟨hbody, hbodies⟩ := List.forall_mem_cons.mp h
    obtain ⟨r, hr, ht⟩ := List.mem_flatMap.mp ht
    have hfirst := hbody s hs r hr
    have hrest := ih hbodies r hfirst.2 t ht
    omega

theorem optional_bounded (h : Bounded body pos N) : Bounded (optional body greedy) pos N := by
  intro s hs t ht
  rcases mem_arrange.mp ht with ht | ht
  · rw [List.mem_singleton.mp ht]
    exact ⟨le_rfl, hs⟩
  · exact h s hs t ht

theorem star_bounded (h : Bounded body pos N) : Bounded (star body pos N greedy) pos N :=
  fun _ hs _ ht => iterate_bounded h hs ht

/-- A sequence moves where one of its bodies does. -/
theorem inSequence_moves (h : ∀ body ∈ bodies, Bounded body pos N)
    (hmoves : ∃ body ∈ bodies, Moves body pos N) : Moves (inSequence bodies) pos N := by
  induction bodies with
  | nil =>
    obtain ⟨body, hbody, -⟩ := hmoves
    cases hbody
  | cons body bodies ih =>
    intro s hs t ht
    obtain ⟨hbody, hbodies⟩ := List.forall_mem_cons.mp h
    obtain ⟨r, hr, ht⟩ := List.mem_flatMap.mp ht
    have hfirst := hbody s hs r hr
    have hrest := inSequence_bounded hbodies r hfirst.2 t ht
    obtain ⟨mover, hmem, hmover⟩ := hmoves
    rcases List.mem_cons.mp hmem with rfl | hmem
    · have hne := hmover s hs r hr
      omega
    · have hne := ih hbodies ⟨mover, hmem, hmover⟩ r hfirst.2 t ht
      omega

theorem repeated_moves (h : Bounded body pos N) (hmoves : Moves body pos N) (hlow : low ≠ 0) :
    Moves (repeated body pos N low high greedy) pos N := by
  have hreplicate : ∀ {n : Nat} {b : α → List α}, Bounded b pos N →
      ∀ c ∈ List.replicate n b, Bounded c pos N := fun hb c hc => (List.eq_of_mem_replicate hc) ▸ hb
  have hrequired : Moves (inSequence (List.replicate low body)) pos N :=
    inSequence_moves (hreplicate h) ⟨body, List.mem_replicate.mpr ⟨hlow, rfl⟩, hmoves⟩
  intro s hs t ht
  cases high with
  | none =>
    obtain ⟨r, hr, ht⟩ := List.mem_flatMap.mp ht
    have hfirst := inSequence_bounded (hreplicate h) s hs r hr
    have hne := hrequired s hs r hr
    have hrest := star_bounded h r hfirst.2 t ht
    omega
  | some high =>
    obtain ⟨r, hr, ht⟩ := List.mem_flatMap.mp ht
    have hfirst := inSequence_bounded (hreplicate h) s hs r hr
    have hne := hrequired s hs r hr
    have hrest := inSequence_bounded (hreplicate (optional_bounded h)) r hfirst.2 t ht
    omega

/-- Repeating as compilers do is alike to a repetition, where the body always moves and no bound is left
to a lazy one. -/
theorem repeated_alike (h : Bounded body pos N) (hmoves : Moves body pos N) (hs : pos s ≤ N)
    (hhigh : ∀ m, high = some m → low ≤ m ∧ (greedy = true ∨ m ≤ low + 1)) :
    Alike (repeated body pos N low high greedy s)
      (iterate body pos low high greedy (N + 1) s 0) := by
  rw [iterate_required h hmoves hs (fun m hm => by simpa using (hhigh m hm).1) (Nat.zero_add low)]
  have hrequired : Bounded (inSequence (List.replicate low body)) pos N :=
    inSequence_bounded fun b hb => (List.eq_of_mem_replicate hb) ▸ h
  cases high with
  | none =>
    refine (Alike.refl _).flatMap fun t ht => ?_
    rw [star, iterate_unbounded (Nat.zero_le 0) le_rfl]
    exact Alike.refl _
  | some m =>
    obtain ⟨hle, hgreedy⟩ := hhigh m rfl
    refine (Alike.refl _).flatMap fun t ht => ?_
    have hattempts := attempts_alike (k := m - low) h hmoves
      (hrequired s hs t ht).2 (hgreedy.imp_right fun hm => by omega) (Nat.le_refl low)
    rwa [Nat.add_sub_cancel' hle] at hattempts

end Repeated

end Repetition

end Lib
