import Oxvim.Regex.Program
import Oxvim.Regex.Results

/-!
# What compiled patterns lead to

`compiled` tells what the program of a pattern leads to, instruction for instruction: it keeps the starts
of open groups, and repeats a body as its copies do. For regular patterns it is alike to the results of
the pattern.
-/

namespace Oxvim.Regex.Nfa

open Lib Lib.Repetition

/-! ## Regular patterns -/

mutual

/-- The slots of the captures that a pattern sets. -/
def slots : Expr → List Nat
  | .concat parts | .alt parts | .and parts | .optionalSeq parts => allSlots parts
  | .repeat expr _ _ _ | .look expr _ _ | .group none expr => slots expr
  | .group (some index) expr => (index - 1) :: slots expr
  | _ => []

def allSlots : List Expr → List Nat
  | [] => []
  | part :: parts => slots part ++ allSlots parts

end

mutual

/-- Whether each match of a pattern reads something. -/
def consumes : Expr → Bool
  | .literal _ | .any _ | .class _ => true
  | .concat parts => anyConsumes parts
  | .alt branches => allConsume branches
  | .repeat expr min _ _ => min != 0 && consumes expr
  | .group _ expr => consumes expr
  | _ => false

def anyConsumes : List Expr → Bool
  | [] => false
  | part :: parts => consumes part || anyConsumes parts

def allConsume : List Expr → Bool
  | [] => true
  | part :: parts => consumes part && allConsume parts

end

mutual

/-- What the program repeats reads something each time, no lazy repetition has more than one iteration
to give up, and no group is within itself. -/
def regular : Expr → Bool
  | .concat parts | .optionalSeq parts => allRegular parts
  | .alt branches => !branches.isEmpty && allRegular branches
  | .repeat expr min max greedy =>
    isLargeRepeat min max || (regular expr && consumes expr &&
      max.all fun max => min ≤ max && (greedy || max ≤ min + 1))
  | .group none expr => regular expr
  | .group (some index) expr => regular expr && !(slots expr).contains (index - 1)
  | _ => true

def allRegular : List Expr → Bool
  | [] => true
  | part :: parts => regular part && allRegular parts

end

/-! ## What the program leads to -/

section Compiled

variable (context : Context)

mutual

def compiled : (expr : Expr) → (state : State) → List State
  | .concat parts => inSequence (compiledAll parts)
  | .alt branches => inTurn (compiledAll branches)
  | .repeat expr min max greedy =>
    if isLargeRepeat min max then results context (.repeat expr min max greedy)
    else repeated (compiled expr) State.pos context.text.length min max greedy
  | .group none expr => compiled expr
  | .group (some index) expr => fun state =>
    (compiled expr (state.openCapture index)).map fun result => result.closeCapture index
  | .optionalSeq parts => inTurn ((compiledAll parts).inits.reverse.map inSequence)
  | .empty => results context .empty
  | .literal c => results context (.literal c)
  | .any newline => results context (.any newline)
  | .class charClass => results context (.class charClass)
  | .and parts => results context (.and parts)
  | .anchor anchor => results context (.anchor anchor)
  | .look expr kind limit => results context (.look expr kind limit)
  | .backref index => results context (.backref index)
  | .setStart => results context .setStart
  | .setEnd => results context .setEnd

def compiledAll : (exprs : List Expr) → List (State → List State)
  | [] => []
  | expr :: exprs => compiled expr :: compiledAll exprs

end

end Compiled

variable {context : Context}

/-! ## Sequences of results -/

theorem resultsSeq_eq (parts : List Expr) :
    resultsSeq context parts = inSequence (parts.map (results context)) := by
  induction parts with
  | nil =>
    funext s
    rw [resultsSeq]
    rfl
  | cons part parts ih =>
    funext s
    rw [resultsSeq, ih]
    rfl

theorem resultsAlt_eq (branches : List Expr) :
    resultsAlt context branches = inTurn (branches.map (results context)) := by
  induction branches with
  | nil =>
    funext s
    rw [resultsAlt]
    rfl
  | cons branch branches ih =>
    funext s
    rw [resultsAlt, ih]
    rfl

/-- The levels of an optional sequence are its initial parts. -/
theorem resultsOptional_eq (parts : List Expr) (states : List State) :
    resultsOptional context parts states
      = (parts.map (results context)).inits.reverse.flatMap fun bodies =>
          states.flatMap (inSequence bodies) := by
  induction parts generalizing states with
  | nil => simp [resultsOptional, inSequence]
  | cons part parts ih =>
    rw [resultsOptional, ih]
    simp [List.flatMap_append, List.flatMap_map, List.flatMap_assoc, inSequence, ← List.map_reverse]

/-! ## Patterns that read -/

mutual

theorem results_moves : (expr : Expr) → consumes expr = true →
    Moves (results context expr) State.pos context.text.length
  | .literal expected, _, s, _, t, ht => by
    rw [results] at ht
    exact (matchChar_bounds ht).1.ne'
  | .any newline, _, s, _, t, ht => by
    rw [results] at ht
    exact (matchChar_bounds ht).1.ne'
  | .class charClass, _, s, _, t, ht => by
    rw [results] at ht
    exact (matchChar_bounds ht).1.ne'
  | .concat parts, h, s, hs, t, ht => by
    rw [results] at ht
    exact (resultsSeq_moves parts h s hs t ht).ne'
  | .alt branches, h, s, hs, t, ht => by
    rw [results] at ht
    exact resultsAlt_moves branches h s hs t ht
  | .repeat expr min max greedy, h, s, hs, t, ht => by
    rw [consumes, Bool.and_eq_true, bne_iff_ne] at h
    rw [results] at ht
    exact (iterate_moves (results_bounded context expr) (results_moves expr h.2) hs
      (Nat.pos_of_ne_zero h.1) ht).ne'
  | .group index expr, h, s, hs, t, ht => by
    rw [results] at ht
    obtain ⟨r, hr, rfl⟩ := List.mem_map.mp ht
    rw [setCapture_pos]
    exact results_moves expr h s hs r hr

theorem resultsSeq_moves : (parts : List Expr) → anyConsumes parts = true → (s : State) →
    s.pos ≤ context.text.length → ∀ t ∈ resultsSeq context parts s, s.pos < t.pos
  | part :: parts, h, s, hs => by
    intro t ht
    rw [anyConsumes, Bool.or_eq_true] at h
    rw [resultsSeq] at ht
    obtain ⟨r, hr, ht⟩ := List.mem_flatMap.mp ht
    have hfirst := results_bounded context part s hs r hr
    have hrest := resultsSeq_bounded context parts r hfirst.2 t ht
    rcases h with h | h
    · have hne := results_moves part h s hs r hr
      omega
    · have hlt := resultsSeq_moves parts h r hfirst.2 t ht
      omega

theorem resultsAlt_moves : (branches : List Expr) → allConsume branches = true → (s : State) →
    s.pos ≤ context.text.length → ∀ t ∈ resultsAlt context branches s, t.pos ≠ s.pos
  | [], _, s, _ => by
    intro t ht
    rw [resultsAlt] at ht
    cases ht
  | branch :: branches, h, s, hs => by
    intro t ht
    rw [allConsume, Bool.and_eq_true] at h
    rw [resultsAlt] at ht
    rcases List.mem_append.mp ht with ht | ht
    · exact results_moves branch h.1 s hs t ht
    · exact resultsAlt_moves branches h.2 s hs t ht

end

/-! ## Simulation -/

/-- Each group has a place for its start as for its capture. -/
def Balanced (s : State) : Prop := s.opens.length = s.captures.length

/-- The first body is alike to the second, but for the starts of open groups. -/
structure Simulates (context : Context) (body body' : State → List State) : Prop where
  alike : ∀ s : State, s.pos ≤ context.text.length → Balanced s →
    Alike ((body s).map clean) ((body' s).map clean)
  balanced : ∀ s, Balanced s → ∀ t ∈ body s, Balanced t
  clean : ∀ s t, clean s = clean t →
    List.Forall₂ (fun a b => clean a = clean b) (body' s) (body' t)
  bounded : Bounded body' State.pos context.text.length

namespace Simulates

variable {body body' body₂ body₂' : State → List State}

theorem map_clean (h : Simulates context body body') {s t : State} (hst : Regex.clean s = Regex.clean t) :
    (body' s).map Regex.clean = (body' t).map Regex.clean := by
  have hmap := h.clean s t hst
  rwa [← List.forall₂_eq_eq_eq, List.forall₂_map_left_iff, List.forall₂_map_right_iff]

/-- What the first body leads to, the second does too, but for open groups. -/
theorem exists_clean (h : Simulates context body body') {s t : State}
    (hs : s.pos ≤ context.text.length) (hb : Balanced s) (ht : t ∈ body s) :
    ∃ t' ∈ body' s, Regex.clean t' = Regex.clean t := by
  have hmem := (h.alike s hs hb).mem_iff.mp (List.mem_map_of_mem ht)
  obtain ⟨t', ht', heq⟩ := List.mem_map.mp hmem
  exact ⟨t', ht', heq⟩

theorem pos_bounds (h : Simulates context body body') : ∀ s : State, s.pos ≤ context.text.length →
    Balanced s → ∀ t ∈ body s, s.pos ≤ t.pos ∧ t.pos ≤ context.text.length := by
  intro s hs hb t ht
  obtain ⟨t', ht', heq⟩ := h.exists_clean hs hb ht
  have hpos : t'.pos = t.pos := (clean_eq_iff.mp heq).1
  rw [← hpos]
  exact h.bounded s hs t' ht'

theorem flatMap_alike {as as' : List State} {f f' : State → List State}
    (has : Alike (as.map Regex.clean) (as'.map Regex.clean))
    (hf : ∀ a ∈ as, Alike ((f a).map Regex.clean) ((f' a).map Regex.clean))
    (hf' : ∀ s t, Regex.clean s = Regex.clean t →
      (f' s).map Regex.clean = (f' t).map Regex.clean) :
    Alike ((as.flatMap f).map Regex.clean) ((as'.flatMap f').map Regex.clean) := by
  have hclean : ∀ a, (f' a).map Regex.clean = (f' (Regex.clean a)).map Regex.clean :=
    fun a => hf' a (Regex.clean a) (clean_clean a).symm
  have hfirst : Alike ((as.flatMap f).map Regex.clean)
      ((as.map Regex.clean).flatMap fun c => (f' c).map Regex.clean) := by
    rw [List.map_flatMap, List.flatMap_map]
    exact (Alike.refl as).flatMap fun a ha => (hf a ha).trans (hclean a ▸ Alike.refl _)
  have hsecond : (as'.flatMap f').map Regex.clean
      = (as'.map Regex.clean).flatMap fun c => (f' c).map Regex.clean := by
    rw [List.map_flatMap, List.flatMap_map]
    exact List.flatMap_congr fun a _ => hclean a
  rw [hsecond]
  exact hfirst.trans (has.flatMap fun c _ => Alike.refl _)

theorem nil : Simulates context (fun s => [s]) fun s => [s] where
  alike s _ _ := Alike.refl _
  balanced s hs t ht := by rwa [List.mem_singleton.mp ht]
  clean s t hst := .cons hst .nil
  bounded s hs t ht := by
    rw [List.mem_singleton.mp ht]
    exact ⟨le_rfl, hs⟩

theorem seq (h : Simulates context body body') (h₂ : Simulates context body₂ body₂') :
    Simulates context (fun s => (body s).flatMap body₂) fun s => (body' s).flatMap body₂' where
  alike s hs hb := flatMap_alike (h.alike s hs hb)
    (fun a ha => h₂.alike a (h.pos_bounds s hs hb a ha).2 (h.balanced s hb a ha))
    fun s t hst => h₂.map_clean hst
  balanced s hb t ht := by
    obtain ⟨r, hr, ht⟩ := List.mem_flatMap.mp ht
    exact h₂.balanced r (h.balanced s hb r hr) t ht
  clean s t hst := List.rel_flatMap (h.clean s t hst) fun a b hab => h₂.clean a b hab
  bounded s hs t ht := by
    obtain ⟨r, hr, ht⟩ := List.mem_flatMap.mp ht
    have hfirst := h.bounded s hs r hr
    have hsecond := h₂.bounded r hfirst.2 t ht
    omega

theorem append (h : Simulates context body body') (h₂ : Simulates context body₂ body₂') :
    Simulates context (fun s => body s ++ body₂ s) fun s => body' s ++ body₂' s where
  alike s hs hb := by
    rw [List.map_append, List.map_append]
    exact (h.alike s hs hb).append (h₂.alike s hs hb)
  balanced s hb t ht := (List.mem_append.mp ht).elim (h.balanced s hb t) (h₂.balanced s hb t)
  clean s t hst := List.rel_append (h.clean s t hst) (h₂.clean s t hst)
  bounded s hs t ht := (List.mem_append.mp ht).elim (h.bounded s hs t) (h₂.bounded s hs t)

theorem arrange_alike {own own' more more' : List State} {greedy : Bool}
    (hown : Alike (own.map Regex.clean) (own'.map Regex.clean))
    (hmore : Alike (more.map Regex.clean) (more'.map Regex.clean)) :
    Alike ((arrange greedy own more).map Regex.clean)
      ((arrange greedy own' more').map Regex.clean) := by
  cases greedy with
  | true =>
    simp only [arrange, if_true, List.map_append]
    exact hmore.append hown
  | false =>
    simp only [arrange, Bool.false_eq_true, if_false, List.map_append]
    exact hown.append hmore

theorem inSequence {bodies bodies' : List (State → List State)}
    (h : List.Forall₂ (Simulates context) bodies bodies') :
    Simulates context (inSequence bodies) (inSequence bodies') := by
  induction h with
  | nil => exact nil
  | cons hbody _ ih => exact hbody.seq ih

theorem inTurn {bodies bodies' : List (State → List State)}
    (h : List.Forall₂ (Simulates context) bodies bodies') :
    Simulates context (inTurn bodies) (inTurn bodies') := by
  induction h with
  | nil =>
    refine ⟨fun s _ _ => Alike.refl _, fun s _ t ht => ?_, fun s t _ => .nil, fun s _ t ht => ?_⟩
    · cases ht
    · cases ht
  | cons hbody _ ih => exact hbody.append ih

theorem optional (h : Simulates context body body') (greedy : Bool) :
    Simulates context (optional body greedy) (optional body' greedy) := by
  cases greedy with
  | true => exact h.append nil
  | false => exact nil.append h

theorem iterate (h : Simulates context body body') {low fuel : Nat} {high : Option Nat}
    {greedy : Bool} (count : Nat) :
    Simulates context (iterate body State.pos low high greedy fuel · count)
      (iterate body' State.pos low high greedy fuel · count) where
  alike s hs hb := by
    induction fuel generalizing s count with
    | zero => exact Alike.refl []
    | succ fuel ih =>
      have hmore : Alike
          (((body s).flatMap fun next => if next.pos = s.pos then if low ≤ count + 1 then [next] else []
            else Repetition.iterate body State.pos low high greedy fuel next (count + 1)).map Regex.clean)
          (((body' s).flatMap fun next => if next.pos = s.pos then if low ≤ count + 1 then [next] else []
            else Repetition.iterate body' State.pos low high greedy fuel next (count + 1)).map
              Regex.clean) := by
        refine flatMap_alike (h.alike s hs hb) (fun a ha => ?_) fun a b hab => ?_
        · split
          · exact Alike.refl _
          · exact ih (count + 1) a (h.pos_bounds s hs hb a ha).2 (h.balanced s hb a ha)
        · rw [(clean_eq_iff.mp hab).1]
          split
          · split
            · simp [hab]
            · rfl
          · rw [← List.forall₂_eq_eq_eq, List.forall₂_map_left_iff, List.forall₂_map_right_iff]
            exact iterate_related clean_respected.pos h.clean hab
      simp only [Repetition.iterate]
      apply arrange_alike
      · exact Alike.refl _
      · split
        · exact hmore
        · exact Alike.refl []
  balanced s hb t ht := iterate_preserves h.balanced hb ht
  clean s t hst := iterate_related clean_respected.pos h.clean hst
  bounded s hs t ht := iterate_bounded h.bounded hs ht

theorem repeated (h : Simulates context body body') (low : Nat) (high : Option Nat) (greedy : Bool) :
    Simulates context (repeated body State.pos context.text.length low high greedy)
      (repeated body' State.pos context.text.length low high greedy) := by
  have hcopies : ∀ (n : Nat) {b b' : State → List State}, Simulates context b b' →
      Simulates context (Repetition.inSequence (List.replicate n b))
        (Repetition.inSequence (List.replicate n b')) := by
    intro n b b' hb
    apply inSequence
    induction n with
    | zero => exact .nil
    | succ n ih => exact .cons hb ih
  cases high with
  | none => exact (hcopies low h).seq (h.iterate 0)
  | some high => exact (hcopies low h).seq (hcopies (high - low) (h.optional greedy))

/-- A body that is alike to the second may take its place. -/
theorem trans {body'' : State → List State} (h : Simulates context body body')
    (halike : ∀ s : State, s.pos ≤ context.text.length → Alike (body' s) (body'' s))
    (hclean : ∀ s t, Regex.clean s = Regex.clean t →
      List.Forall₂ (fun a b => Regex.clean a = Regex.clean b) (body'' s) (body'' t))
    (hbounded : Bounded body'' State.pos context.text.length) : Simulates context body body'' where
  alike s hs hb := (h.alike s hs hb).trans ((halike s hs).map Regex.clean)
  balanced := h.balanced
  clean := hclean
  bounded := hbounded

/-- What has no instructions is its own simulation. -/
theorem results (expr : Expr) : Simulates context (results context expr) (results context expr) where
  alike s _ _ := Alike.refl _
  balanced s hb t ht := by
    obtain ⟨hopens, hcaptures⟩ := results_opens ht
    rw [Balanced, hopens, hcaptures]
    exact hb
  clean s t hst := results_related clean_respected expr (fun _ => clean_respectsBackref) s t hst
  bounded := results_bounded context expr

end Simulates

/-! ## Open groups -/

/-- The second state has the same groups open, apart from the slots. -/
structure Kept (free : List Nat) (s t : State) : Prop where
  captures : t.captures.length = s.captures.length
  opens : t.opens.length = s.opens.length
  slot : ∀ i, i ∉ free → t.opens[i]? = s.opens[i]?

namespace Kept

variable {free : List Nat} {body : State → List State}

theorem refl (free : List Nat) (s : State) : Kept free s s := ⟨rfl, rfl, fun _ _ => rfl⟩

theorem trans {s t u : State} (h : Kept free s t) (h' : Kept free t u) : Kept free s u :=
  ⟨h'.captures.trans h.captures, h'.opens.trans h.opens, fun i hi => (h'.slot i hi).trans (h.slot i hi)⟩

theorem mono {free' : List Nat} (h : Kept free s t) (hsub : free ⊆ free') : Kept free' s t :=
  ⟨h.captures, h.opens, fun i hi => h.slot i fun hmem => hi (hsub hmem)⟩

theorem openCapture {index : Nat} (s : State) (hindex : index - 1 ∈ free) :
    Kept free s (s.openCapture index) := by
  refine ⟨rfl, List.length_set .., fun i hi => ?_⟩
  apply List.getElem?_set_ne
  rintro rfl
  exact hi hindex

theorem closeCapture {index : Nat} (s : State) : Kept free s (s.closeCapture index) := by
  rw [State.closeCapture]
  split
  · exact ⟨List.length_set .., rfl, fun _ _ => rfl⟩
  · exact refl free s

theorem inSequence {bodies : List (State → List State)}
    (h : ∀ body ∈ bodies, ∀ s, ∀ t ∈ body s, Kept free s t) (s : State) :
    ∀ t ∈ inSequence bodies s, Kept free s t := by
  induction bodies generalizing s with
  | nil =>
    intro t ht
    rw [List.mem_singleton.mp ht]
    exact refl free s
  | cons body bodies ih =>
    intro t ht
    obtain ⟨hbody, hbodies⟩ := List.forall_mem_cons.mp h
    obtain ⟨r, hr, ht⟩ := List.mem_flatMap.mp ht
    exact (hbody s r hr).trans (ih hbodies r t ht)

theorem repeated (h : ∀ s, ∀ t ∈ body s, Kept free s t) {N low : Nat} {high : Option Nat}
    {greedy : Bool} (s : State) :
    ∀ t ∈ repeated body State.pos N low high greedy s, Kept free s t := by
  have hbodies : ∀ b ∈ List.replicate low body, ∀ s, ∀ t ∈ b s, Kept free s t :=
    fun b hb => (List.eq_of_mem_replicate hb) ▸ h
  have hrequired := inSequence hbodies s
  intro t ht
  cases high with
  | none =>
    obtain ⟨r, hr, ht⟩ := List.mem_flatMap.mp ht
    exact iterate_preserves (P := fun t => Kept free s t) (fun a ha b hb => ha.trans (h a b hb))
      (hrequired r hr) ht
  | some high =>
    obtain ⟨r, hr, ht⟩ := List.mem_flatMap.mp ht
    refine (hrequired r hr).trans (inSequence (fun b hb => ?_) r t ht)
    rw [List.eq_of_mem_replicate hb]
    intro a c hc
    rcases mem_arrange.mp hc with hc | hc
    · rw [List.mem_singleton.mp hc]
      exact refl free a
    · exact h a c hc

end Kept

theorem results_kept {expr : Expr} {free : List Nat} (s : State) :
    ∀ t ∈ results context expr s, Kept free s t := by
  intro t ht
  obtain ⟨hopens, hcaptures⟩ := results_opens ht
  exact ⟨hcaptures, congrArg List.length hopens, fun i _ => by rw [hopens]⟩

mutual

/-- A program opens and closes its own groups only. -/
theorem compiled_kept {free : List Nat} : (expr : Expr) → slots expr ⊆ free → (s : State) →
    ∀ t ∈ compiled context expr s, Kept free s t
  | .empty, _, s => by
    rw [compiled]
    exact results_kept s
  | .literal c, _, s => by
    rw [compiled]
    exact results_kept s
  | .any newline, _, s => by
    rw [compiled]
    exact results_kept s
  | .class charClass, _, s => by
    rw [compiled]
    exact results_kept s
  | .and parts, _, s => by
    rw [compiled]
    exact results_kept s
  | .anchor anchor, _, s => by
    rw [compiled]
    exact results_kept s
  | .look expr kind limit, _, s => by
    rw [compiled]
    exact results_kept s
  | .backref index, _, s => by
    rw [compiled]
    exact results_kept s
  | .setStart, _, s => by
    rw [compiled]
    exact results_kept s
  | .setEnd, _, s => by
    rw [compiled]
    exact results_kept s
  | .concat parts, h, s => by
    rw [compiled]
    exact Kept.inSequence (compiledAll_kept parts h) s
  | .alt branches, h, s => by
    intro t ht
    rw [compiled] at ht
    obtain ⟨body, hbody, ht⟩ := List.mem_flatMap.mp ht
    exact compiledAll_kept branches h body hbody s t ht
  | .repeat expr min max greedy, h, s => by
    rw [compiled]
    split
    · exact results_kept s
    · exact Kept.repeated (compiled_kept expr h) s
  | .group none expr, h, s => by
    rw [compiled]
    exact compiled_kept expr h s
  | .group (some index) expr, h, s => by
    intro t ht
    rw [compiled] at ht
    obtain ⟨r, hr, rfl⟩ := List.mem_map.mp ht
    rw [slots, List.cons_subset] at h
    exact ((Kept.openCapture s h.1).trans (compiled_kept expr h.2 _ r hr)).trans (Kept.closeCapture r)
  | .optionalSeq parts, h, s => by
    intro t ht
    rw [compiled] at ht
    obtain ⟨body, hbody, ht⟩ := List.mem_flatMap.mp ht
    obtain ⟨bodies, hbodies, rfl⟩ := List.mem_map.mp hbody
    have hpart := (List.mem_inits _ _).mp (List.mem_reverse.mp hbodies)
    exact Kept.inSequence (fun b hb => compiledAll_kept parts h b (hpart.subset hb)) s t ht

theorem compiledAll_kept {free : List Nat} : (exprs : List Expr) → allSlots exprs ⊆ free →
    ∀ body ∈ compiledAll context exprs, ∀ s, ∀ t ∈ body s, Kept free s t
  | [], _ => by simp [compiledAll]
  | expr :: exprs, h => by
    rw [allSlots, List.append_subset] at h
    rw [compiledAll, List.forall_mem_cons]
    exact ⟨compiled_kept expr h.1, compiledAll_kept exprs h.2⟩

end

/-! ## Programs simulate patterns -/

/-- Where nothing within a group opens or closes it, closing it sets the capture. -/
theorem closeCapture_eq {index : Nat} {free : List Nat} {s t : State} (hb : Balanced s)
    (hindex : index - 1 ∉ free) (h : Kept free (s.openCapture index) t) :
    clean (t.closeCapture index) = clean (Backtrack.setCapture (some index) s.pos t) := by
  have hslot := h.slot (index - 1) hindex
  by_cases hlt : index - 1 < s.opens.length
  · have hopen : (s.openCapture index).opens[index - 1]? = some (some s.pos) := by
      rw [State.openCapture]
      exact List.getElem?_set_self hlt
    rw [State.closeCapture, hslot, hopen]
    rfl
  · have hopen : (s.openCapture index).opens[index - 1]? = none := by
      rw [State.openCapture, List.getElem?_eq_none_iff, List.length_set]
      omega
    have hcaptures : t.captures.length ≤ index - 1 := by
      have hlength : t.captures.length = s.captures.length := h.captures
      rw [Balanced] at hb
      omega
    rw [State.closeCapture, hslot, hopen]
    exact clean_eq_iff.mpr ⟨rfl, (List.set_eq_of_length_le hcaptures).symm, rfl, rfl⟩

theorem Simulates.group {index : Nat} {expr : Expr} {body : State → List State} {free : List Nat}
    (h : Simulates context body (Regex.results context expr))
    (hkept : ∀ s, ∀ t ∈ body s, Kept free s t) (hindex : index - 1 ∉ free) :
    Simulates context
      (fun s => (body (s.openCapture index)).map fun result => result.closeCapture index)
      (Regex.results context (.group (some index) expr)) where
  alike s hs hb := by
    have hopened : Balanced (s.openCapture index) := (List.length_set ..).trans hb
    have hclean : ∀ t ∈ body (s.openCapture index),
        Regex.clean (t.closeCapture index)
          = Regex.clean (Backtrack.setCapture (some index) s.pos (Regex.clean t)) := by
      intro t ht
      rw [closeCapture_eq hb hindex (hkept _ t ht)]
      exact clean_respected.setCapture (some index) s.pos t (Regex.clean t) (clean_clean t).symm
    have hleft : ((body (s.openCapture index)).map fun result => result.closeCapture index).map
        Regex.clean = ((body (s.openCapture index)).map Regex.clean).map fun c =>
          Regex.clean (Backtrack.setCapture (some index) s.pos c) := by
      rw [List.map_map, List.map_map]
      exact List.map_congr_left hclean
    have hright : (Regex.results context (.group (some index) expr) s).map Regex.clean
        = ((Regex.results context expr (s.openCapture index)).map Regex.clean).map fun c =>
          Regex.clean (Backtrack.setCapture (some index) s.pos c) := by
      rw [Regex.results, h.map_clean (s := s.openCapture index) (t := s) rfl, List.map_map, List.map_map]
      exact List.map_congr_left fun t _ =>
        clean_respected.setCapture (some index) s.pos t (Regex.clean t) (clean_clean t).symm
    rw [hleft, hright]
    exact (h.alike (s.openCapture index) hs hopened).map _
  balanced s hb t ht := by
    have hopened : Balanced (s.openCapture index) := (List.length_set ..).trans hb
    obtain ⟨r, hr, rfl⟩ := List.mem_map.mp ht
    have hr := h.balanced _ hopened r hr
    have hclosed : Kept free r (r.closeCapture index) := Kept.closeCapture r
    rw [Balanced, hclosed.opens, hclosed.captures]
    exact hr
  clean s t hst := results_related clean_respected _ (fun _ => clean_respectsBackref) s t hst
  bounded := results_bounded context _

theorem forall₂_inits {α β : Type} {R : α → β → Prop} {as : List α} {bs : List β}
    (h : List.Forall₂ R as bs) : List.Forall₂ (List.Forall₂ R) as.inits bs.inits := by
  induction h with
  | nil => exact .cons .nil .nil
  | @cons a b as bs hab _ ih =>
    rw [List.inits_cons, List.inits_cons]
    refine .cons .nil ?_
    rw [List.forall₂_map_left_iff, List.forall₂_map_right_iff]
    exact ih.imp fun _ _ hinit => .cons hab hinit

mutual

/-- What the program of a regular pattern leads to is alike to the results of the pattern. -/
theorem compiled_simulates : (expr : Expr) → regular expr = true →
    Simulates context (compiled context expr) (results context expr)
  | .empty, _ => by
    rw [compiled]
    exact .results _
  | .literal c, _ => by
    rw [compiled]
    exact .results _
  | .any newline, _ => by
    rw [compiled]
    exact .results _
  | .class charClass, _ => by
    rw [compiled]
    exact .results _
  | .and parts, _ => by
    rw [compiled]
    exact .results _
  | .anchor anchor, _ => by
    rw [compiled]
    exact .results _
  | .look expr kind limit, _ => by
    rw [compiled]
    exact .results _
  | .backref index, _ => by
    rw [compiled]
    exact .results _
  | .setStart, _ => by
    rw [compiled]
    exact .results _
  | .setEnd, _ => by
    rw [compiled]
    exact .results _
  | .concat parts, h => by
    have hresults : results context (.concat parts) = inSequence (parts.map (results context)) := by
      funext s
      rw [results, resultsSeq_eq]
    rw [compiled, hresults]
    exact .inSequence (compiledAll_simulates parts h)
  | .alt branches, h => by
    rw [regular, Bool.and_eq_true] at h
    have hresults : results context (.alt branches) = inTurn (branches.map (results context)) := by
      funext s
      rw [results, resultsAlt_eq]
    rw [compiled, hresults]
    exact .inTurn (compiledAll_simulates branches h.2)
  | .repeat expr min max greedy, h => by
    rw [compiled]
    split
    · exact .results _
    · next hsmall =>
      simp only [regular, hsmall, Bool.false_or, Bool.and_eq_true] at h
      obtain ⟨⟨hexpr, hconsumes⟩, hmax⟩ := h
      have hbound : ∀ m, max = some m → min ≤ m ∧ (greedy = true ∨ m ≤ min + 1) := by
        rintro m rfl
        simpa using hmax
      refine ((compiled_simulates expr hexpr).repeated min max greedy).trans (fun s hs => ?_) ?_ ?_
      · rw [results]
        exact repeated_alike (results_bounded context expr) (results_moves expr hconsumes) hs hbound
      · exact (Simulates.results _).clean
      · exact results_bounded context _
  | .group none expr, h => by
    have hresults : results context (.group none expr) = results context expr := by
      funext s
      rw [results]
      exact List.map_id _
    rw [compiled, hresults]
    exact compiled_simulates expr h
  | .group (some index) expr, h => by
    rw [regular, Bool.and_eq_true] at h
    rw [compiled]
    exact .group (compiled_simulates expr h.1) (compiled_kept expr (List.Subset.refl _))
      (by simpa using h.2)
  | .optionalSeq parts, h => by
    have hresults : results context (.optionalSeq parts)
        = inTurn ((parts.map (results context)).inits.reverse.map inSequence) := by
      funext s
      rw [results, resultsOptional_eq, inTurn, List.flatMap_map]
      exact List.flatMap_congr fun bodies _ => List.flatMap_singleton ..
    rw [compiled, hresults]
    apply Simulates.inTurn
    rw [List.forall₂_map_left_iff, List.forall₂_map_right_iff]
    exact (List.rel_reverse (forall₂_inits (compiledAll_simulates parts h))).imp
      fun _ _ hbodies => .inSequence hbodies

theorem compiledAll_simulates : (exprs : List Expr) → allRegular exprs = true →
    List.Forall₂ (Simulates context) (compiledAll context exprs) (exprs.map (results context))
  | [], _ => by
    rw [compiledAll]
    exact .nil
  | expr :: exprs, h => by
    rw [allRegular, Bool.and_eq_true] at h
    rw [compiledAll]
    exact .cons (compiled_simulates expr h.1) (compiledAll_simulates exprs h.2)

end

end Oxvim.Regex.Nfa
