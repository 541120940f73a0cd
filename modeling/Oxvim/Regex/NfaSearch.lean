import Oxvim.Regex.Compiled
import Oxvim.Regex.Fallbacks

/-!
# The NFA engine finds the leftmost match

The program of a regular pattern unfolds to what the pattern leads to. Without references back threads at
one instruction and offset go on alike, so that dropping all but the first of them loses nothing: the
engine finds the match that the backtracking engine finds.
-/

namespace Oxvim.Regex.Nfa

open Lib Lib.Repetition

variable {context : Context}

/-! ## Programs of patterns -/

/-- A pattern with an instruction of its own. -/
theorem compiles_effect (inst : Inst) {expr : Expr} (h : effect context inst = some (results context expr)) :
    Compiles context (fun code => code ++ [inst]) (results context expr) :=
  .effect h (results_bounded context expr)

theorem compileRepeat_compiles {compile : List Inst → List Inst} {body : State → List State}
    (h : Compiles context compile body) (hmoves : Moves body State.pos context.text.length) (min : Nat)
    (max : Option Nat) (greedy : Bool) :
    Compiles context (compileRepeat compile min max greedy)
      (repeated body State.pos context.text.length min max greedy) := by
  cases max with
  | none => exact (h.iterate min).seq (h.star hmoves greedy)
  | some max => exact (h.iterate min).seq ((h.optional greedy).iterate (max - min))

theorem closeCapture_pos (s : State) (index : Nat) : (s.closeCapture index).pos = s.pos := by
  rw [State.closeCapture]
  split <;> rfl

/-- A capturing group is its body between two instructions. -/
theorem compileGroup_compiles {compile : List Inst → List Inst} {body : State → List State}
    (h : Compiles context compile body) (index : Nat) :
    Compiles context (fun code => compile (code ++ [.saveStart index]) ++ [.saveEnd index])
      (fun s => (body (s.openCapture index)).map fun result => result.closeCapture index) := by
  have hopen : Compiles context (fun code => code ++ [.saveStart index])
      fun s => [s.openCapture index] := by
    refine .effect rfl fun s hs t ht => ?_
    rw [List.mem_singleton.mp ht]
    exact ⟨le_rfl, hs⟩
  have hclose : Compiles context (fun code => code ++ [.saveEnd index])
      fun s => [s.closeCapture index] := by
    refine .effect rfl fun s hs t ht => ?_
    rw [List.mem_singleton.mp ht, closeCapture_pos]
    exact ⟨le_rfl, hs⟩
  have hbody : (fun s : State => (body (s.openCapture index)).map fun result => result.closeCapture index)
      = fun s => [s.openCapture index].flatMap fun s =>
          (body s).flatMap fun t => [t.closeCapture index] := by
    funext s
    rw [List.flatMap_singleton, List.map_eq_flatMap]
  rw [hbody]
  exact hopen.seq (h.seq hclose)

theorem bounded_of_compiles {parts : List (List Inst → List Inst)}
    {bodies : List (State → List State)} (h : List.Forall₂ (Compiles context) parts bodies) :
    ∀ body ∈ bodies, Bounded body State.pos context.text.length := by
  intro body hbody
  obtain ⟨part, -, hpart⟩ := OrderedSearch.Graph.exists_of_forall₂ h hbody
  exact hpart.bounded

mutual

/-- The program of a regular pattern has a block that leads to what is told of it. -/
theorem compileExpr_compiles : (expr : Expr) → regular expr = true →
    Compiles context (compileExpr expr) (compiled context expr) ∧
      (consumes expr = true → Moves (compiled context expr) State.pos context.text.length)
  | .empty, _ => by
    have hresults : results context .empty = fun s => [s] := by
      funext s
      rw [results]
    refine ⟨?_, fun h => by cases h⟩
    rw [compiled, hresults]
    exact Compiles.nil.congr fun code => by rw [compileExpr]
  | .literal c, _ => by
    have hresults : effect context (.char c) = some (results context (.literal c)) := by
      rw [effect, Option.some_inj]
      funext s
      rw [results]
    rw [compiled]
    exact ⟨(compiles_effect _ hresults).congr fun code => by rw [compileExpr], results_moves _⟩
  | .any newline, _ => by
    have hresults : effect context (.any newline) = some (results context (.any newline)) := by
      rw [effect, Option.some_inj]
      funext s
      rw [results]
    rw [compiled]
    exact ⟨(compiles_effect _ hresults).congr fun code => by rw [compileExpr], results_moves _⟩
  | .class charClass, _ => by
    have hresults : effect context (.class charClass) = some (results context (.class charClass)) := by
      rw [effect, Option.some_inj]
      funext s
      rw [results]
    rw [compiled]
    exact ⟨(compiles_effect _ hresults).congr fun code => by rw [compileExpr], results_moves _⟩
  | .and parts, _ => by
    have hresults : effect context (.fallback (.and parts)) = some (results context (.and parts)) := rfl
    rw [compiled]
    exact ⟨(compiles_effect _ hresults).congr fun code => by rw [compileExpr], results_moves _⟩
  | .anchor anchor, _ => by
    have hresults : effect context (.fallback (.anchor anchor)) = some (results context (.anchor anchor)) := rfl
    rw [compiled]
    exact ⟨(compiles_effect _ hresults).congr fun code => by rw [compileExpr], results_moves _⟩
  | .look expr kind limit, _ => by
    have hresults : effect context (.fallback (.look expr kind limit)) = some (results context (.look expr kind limit)) := rfl
    rw [compiled]
    exact ⟨(compiles_effect _ hresults).congr fun code => by rw [compileExpr], results_moves _⟩
  | .backref index, _ => by
    have hresults : effect context (.fallback (.backref index)) = some (results context (.backref index)) := rfl
    rw [compiled]
    exact ⟨(compiles_effect _ hresults).congr fun code => by rw [compileExpr], results_moves _⟩
  | .setStart, _ => by
    have hresults : effect context (.setStart) = some (results context (.setStart)) := by
      rw [effect, Option.some_inj]
      funext s
      rw [results]
    rw [compiled]
    exact ⟨(compiles_effect _ hresults).congr fun code => by rw [compileExpr], results_moves _⟩
  | .setEnd, _ => by
    have hresults : effect context (.setEnd) = some (results context (.setEnd)) := by
      rw [effect, Option.some_inj]
      funext s
      rw [results]
    rw [compiled]
    exact ⟨(compiles_effect _ hresults).congr fun code => by rw [compileExpr], results_moves _⟩
  | .concat parts, h => by
    obtain ⟨hcompiles, hany, -⟩ := compileAll_compiles parts h
    refine ⟨?_, fun hconsumes => ?_⟩
    · rw [compiled]
      exact (Compiles.compileSeq hcompiles).congr fun code => by rw [compileExpr]
    · rw [compiled]
      exact inSequence_moves (bounded_of_compiles hcompiles) (hany hconsumes)
  | .alt branches, h => by
    rw [regular, Bool.and_eq_true] at h
    obtain ⟨hcompiles, -, hall⟩ := compileAll_compiles branches h.2
    refine ⟨?_, fun hconsumes => ?_⟩
    · rw [compiled]
      refine (Compiles.alt hcompiles ?_).congr fun code => by rw [compileExpr]
      cases branches with
      | nil => simp at h
      | cons branch branches => simp [compileAll]
    · intro s hs t ht
      rw [compiled] at ht
      obtain ⟨body, hbody, ht⟩ := List.mem_flatMap.mp ht
      exact hall hconsumes body hbody s hs t ht
  | .repeat expr min max greedy, h => by
    by_cases hlarge : isLargeRepeat min max = true
    · rw [compiled, if_pos hlarge]
      refine ⟨?_, results_moves _⟩
      refine (compiles_effect (.fallback (.repeat expr min max greedy)) rfl).congr fun code => ?_
      rw [compileExpr, if_pos hlarge]
    · simp only [regular, hlarge, Bool.false_or, Bool.and_eq_true] at h
      obtain ⟨⟨hexpr, hconsumes⟩, -⟩ := h
      obtain ⟨hcompiles, hmoves⟩ := compileExpr_compiles expr hexpr
      have hmoves := hmoves hconsumes
      rw [compiled, if_neg hlarge]
      refine ⟨?_, fun hmin => ?_⟩
      · refine (compileRepeat_compiles hcompiles hmoves min max greedy).congr fun code => ?_
        rw [compileExpr, if_neg hlarge]
      · rw [consumes, Bool.and_eq_true, bne_iff_ne] at hmin
        exact repeated_moves hcompiles.bounded hmoves hmin.1
  | .group none expr, h => by
    obtain ⟨hcompiles, hmoves⟩ := compileExpr_compiles expr h
    rw [compiled]
    exact ⟨hcompiles.congr fun code => by rw [compileExpr], hmoves⟩
  | .group (some index) expr, h => by
    rw [regular, Bool.and_eq_true] at h
    obtain ⟨hcompiles, hmoves⟩ := compileExpr_compiles expr h.1
    rw [compiled]
    refine ⟨(compileGroup_compiles hcompiles index).congr fun code => by rw [compileExpr], ?_⟩
    intro hconsumes s hs t ht
    obtain ⟨r, hr, rfl⟩ := List.mem_map.mp ht
    rw [closeCapture_pos]
    exact hmoves hconsumes (s.openCapture index) hs r hr
  | .optionalSeq parts, h => by
    obtain ⟨hcompiles, -, -⟩ := compileAll_compiles parts h
    have hlevels : List.Forall₂ (Compiles context)
        ((compileAll parts).inits.reverse.map compileSeq)
        ((compiledAll context parts).inits.reverse.map inSequence) := by
      rw [List.forall₂_map_left_iff, List.forall₂_map_right_iff]
      exact (List.rel_reverse (forall₂_inits hcompiles)).imp fun _ _ hlevel => .compileSeq hlevel
    refine ⟨?_, fun h => by cases h⟩
    rw [compiled]
    refine (Compiles.alt hlevels ?_).congr fun code => by rw [compileExpr]
    have hnil : [] ∈ (compileAll parts).inits := (List.mem_inits _ _).mpr List.nil_prefix
    simpa using List.ne_nil_of_mem hnil

theorem compileAll_compiles : (exprs : List Expr) → allRegular exprs = true →
    List.Forall₂ (Compiles context) (compileAll exprs) (compiledAll context exprs) ∧
      (anyConsumes exprs = true →
        ∃ body ∈ compiledAll context exprs, Moves body State.pos context.text.length) ∧
      (allConsume exprs = true →
        ∀ body ∈ compiledAll context exprs, Moves body State.pos context.text.length)
  | [], _ => by
    rw [compileAll, compiledAll]
    exact ⟨.nil, fun h => (by cases h), fun _ => by simp⟩
  | expr :: exprs, h => by
    rw [allRegular, Bool.and_eq_true] at h
    obtain ⟨hcompiles, hmoves⟩ := compileExpr_compiles expr h.1
    obtain ⟨hrest, hany, hall⟩ := compileAll_compiles exprs h.2
    rw [compileAll, compiledAll]
    refine ⟨.cons hcompiles hrest, fun hconsumes => ?_, fun hconsumes => ?_⟩
    · rw [anyConsumes, Bool.or_eq_true] at hconsumes
      rcases hconsumes with hconsumes | hconsumes
      · exact ⟨_, List.mem_cons_self, hmoves hconsumes⟩
      · obtain ⟨body, hbody, hmover⟩ := hany hconsumes
        exact ⟨body, List.mem_cons_of_mem _ hbody, hmover⟩
    · rw [allConsume, Bool.and_eq_true] at hconsumes
      exact List.forall_mem_cons.mpr ⟨hmoves hconsumes.1, hall hconsumes.2⟩

end

/-- The program of a regular pattern unfolds to what is told of it. -/
theorem program_unfolds {expr : Expr} (h : regular expr = true) {s : State}
    (hs : s.pos ≤ context.text.length) :
    UnfoldsFrom context (program expr) 0 s (compiled context expr s) := by
  obtain ⟨⟨-, hblock⟩, -⟩ := @compileExpr_compiles context expr h
  obtain ⟨block, hcode, hrun⟩ := hblock 0
  have hprogram : program expr = block ++ [.match] := by rw [program, hcode [] rfl, List.nil_append]
  have hplaced : Placed (program expr) block 0 := by
    apply @Placed.left _ _ [.match]
    intro i inst hi
    rwa [← hprogram, ← Nat.zero_add i] at hi
  have hend : (program expr)[0 + block.length]? = some .match := by simp [hprogram]
  have := hrun _ hplaced s hs (fun t => [t]) fun t _ => .match hend
  simpa using this

/-! ## Threads that go on alike -/

/-- What a trace makes of a key. -/
def Trace.kind : Trace → Fin 3
  | .plain => 0
  | .captures _ => 1
  | .opaqueTrace => 2

@[simp] theorem Trace.kind_open (trace : Trace) (index pos : Nat) :
    (trace.open index pos).kind = trace.kind := by
  cases trace <;> rfl

@[simp] theorem Trace.kind_close (trace : Trace) (index pos : Nat) :
    (trace.close index pos).kind = trace.kind := by
  cases trace <;> rfl

/-- At the same instruction and offset, with keys of the same kind. -/
structure Alongside (s t : Thread) : Prop where
  pc : s.pc = t.pc
  pos : s.state.pos = t.state.pos
  kind : s.trace.kind = t.trace.kind

theorem advance_alongside {s t : Thread} (h : Alongside s t) {as bs : List State}
    (has : List.Forall₂ (fun a b : State => a.pos = b.pos) as bs) :
    List.Forall₂ Alongside (advance s as) (advance t bs) := by
  rw [advance, advance, List.forall₂_map_left_iff, List.forall₂_map_right_iff]
  exact has.imp fun a b hab => ⟨congrArg (· + 1) h.pc, hab, h.kind⟩

theorem next_alongside {code : List Inst} (hcode : BackrefFree code) {s t : Thread}
    {ss ts : List Thread} (h : Alongside s t) (hs : (unlimited context code).next s = .ok ss)
    (ht : (unlimited context code).next t = .ok ts) : List.Forall₂ Alongside ss ts := by
  have hchar : ∀ accepts, List.Forall₂ (fun a b : State => a.pos = b.pos)
      (Backtrack.matchChar context accepts s.state) (Backtrack.matchChar context accepts t.state) :=
    fun accepts => matchChar_related pos_respected h.pos
  have hnext := congrArg (· + 1) h.pc
  simp only [unlimited, nextThreads, h.pc] at hs ht
  cases hinst : code[t.pc]? with
  | none =>
    simp only [hinst] at hs ht
    cases hs
    cases ht
    exact .nil
  | some inst =>
    simp only [hinst] at hs ht
    cases inst with
    | char =>
      cases hs
      cases ht
      exact advance_alongside h (hchar _)
    | any =>
      cases hs
      cases ht
      exact advance_alongside h (hchar _)
    | «class» =>
      cases hs
      cases ht
      exact advance_alongside h (hchar _)
    | saveStart index =>
      cases hs
      cases ht
      exact .cons ⟨rfl, h.pos, by simp [h.kind]⟩ .nil
    | saveEnd index =>
      cases hs
      cases ht
      exact .cons ⟨rfl, by simp [closeCapture_pos, h.pos], by simp [h.kind]⟩ .nil
    | setStart =>
      cases hs
      cases ht
      exact .cons ⟨rfl, h.pos, h.kind⟩ .nil
    | setEnd =>
      cases hs
      cases ht
      exact .cons ⟨rfl, h.pos, h.kind⟩ .nil
    | split first second =>
      cases hs
      cases ht
      exact .cons ⟨rfl, h.pos, h.kind⟩ (.cons ⟨rfl, h.pos, h.kind⟩ .nil)
    | jump target =>
      cases hs
      cases ht
      exact .cons ⟨rfl, h.pos, h.kind⟩ .nil
    | fallback expr =>
      cases hs
      cases ht
      have hback := hcode expr (List.mem_of_getElem? hinst)
      rw [List.forall₂_map_left_iff, List.forall₂_map_right_iff]
      refine (results_samePos hback h.pos).imp fun a b hab => ⟨rfl, hab, ?_⟩
      dsimp only
      split
      · exact h.kind
      · rfl
    | «match» =>
      cases hs
      cases ht
      exact .nil

/-- Threads alongside each other lead to threads that are. -/
def sameness {code : List Inst} (hcode : BackrefFree code) :
    OrderedSearch.Sameness (unlimited context code) where
  Same := Alongside
  refl _ := ⟨rfl, rfl, rfl⟩
  trans h h' := ⟨h.pc.trans h'.pc, h.pos.trans h'.pos, h.kind.trans h'.kind⟩
  of_key := by
    intro s t k hs ht
    simp only [unlimited, Trace.key] at hs ht
    split at hs
    · next hplain =>
      cases hs
      split at ht
      · next hplain' =>
        simp only [Option.some_inj, VisitKey.plain.injEq] at ht
        exact ⟨ht.1.symm, ht.2.symm, by rw [hplain, hplain']⟩
      · cases ht
      · cases ht
    · next hcaptures =>
      cases hs
      split at ht
      · cases ht
      · next hcaptures' =>
        simp only [Option.some_inj, VisitKey.captures.injEq] at ht
        exact ⟨ht.1.symm, ht.2.1.symm, by rw [hcaptures, hcaptures']; rfl⟩
      · cases ht
    · cases hs
  goal_eq h := by simp only [unlimited, isMatch, h.pc]
  next_same := next_alongside hcode

/-! ## Searching -/

/-- A thread is within the text. -/
def Within (context : Context) (thread : Thread) : Prop := thread.state.pos ≤ context.text.length

theorem advance_within {s : Thread} {states : List State}
    (h : ∀ t ∈ states, t.pos ≤ context.text.length) : ∀ t ∈ advance s states, Within context t := by
  intro t ht
  obtain ⟨state, hstate, rfl⟩ := List.mem_map.mp ht
  exact h state hstate

theorem matchAt_eq {expr : Expr} {s : State} {states : List State} (hs : s.pos ≤ context.text.length)
    (h : Backtrack.matchAt context expr s = .ok states) : states = results context expr s := by
  rw [Backtrack.matchAt] at h
  cases hrun : (Backtrack.matchExpr context expr 0 s).run 0 with
  | error e =>
    rw [hrun] at h
    cases h
  | ok p =>
    rw [hrun] at h
    cases h
    exact Backtrack.matchExpr_gives context expr 0 hs 0 p.1 p.2 hrun

/-- The engine within its limits runs the threads that there are without. -/
theorem next_unlimited {code : List Inst} {s : Thread} {ss : List Thread} (hs : Within context s)
    (h : (threads context code).next s = .ok ss) :
    (unlimited context code).next s = .ok ss ∧ ∀ t ∈ ss, Within context t := by
  have hchar : ∀ accepts, ∀ t ∈ advance s (Backtrack.matchChar context accepts s.state),
      Within context t := fun accepts => advance_within fun t ht => (matchChar_bounds ht).2
  simp only [threads, unlimited, nextThreads] at h ⊢
  cases hinst : code[s.pc]? with
  | none =>
    simp only [hinst] at h
    cases h
    exact ⟨rfl, by simp⟩
  | some inst =>
    simp only [hinst] at h
    cases inst with
    | char =>
      cases h
      exact ⟨rfl, hchar _⟩
    | any =>
      cases h
      exact ⟨rfl, hchar _⟩
    | «class» =>
      cases h
      exact ⟨rfl, hchar _⟩
    | saveStart index =>
      cases h
      exact ⟨rfl, List.forall_mem_singleton.mpr hs⟩
    | saveEnd index =>
      cases h
      exact ⟨rfl, by simpa [Within, closeCapture_pos] using hs⟩
    | setStart =>
      cases h
      exact ⟨rfl, List.forall_mem_singleton.mpr hs⟩
    | setEnd =>
      cases h
      exact ⟨rfl, List.forall_mem_singleton.mpr hs⟩
    | split first second =>
      cases h
      exact ⟨rfl, by simpa [Within] using hs⟩
    | jump target =>
      cases h
      exact ⟨rfl, List.forall_mem_singleton.mpr hs⟩
    | fallback expr =>
      cases hmatch : Backtrack.matchAt context expr s.state with
      | error e =>
        simp only [hmatch] at h
        cases h
      | ok states =>
        simp only [hmatch] at h
        obtain rfl := matchAt_eq hs hmatch
        cases h
        refine ⟨rfl, fun t ht => ?_⟩
        obtain ⟨state, hstate, rfl⟩ := List.mem_map.mp ht
        exact (results_bounded context expr s.state hs state hstate).2
    | «match» =>
      cases h
      exact ⟨rfl, by simp⟩

section Search

variable {expr : Expr}

/-- From a candidate the engine finds what the pattern leads to first. -/
theorem runCandidate_first (hregular : regular expr = true) (hback : hasBackref expr = false)
    (htrace : context.prog.hasBackref = false) {candidate left left' : Nat} {found : Option State}
    (hcandidate : candidate ≤ context.text.length)
    (h : runCandidate context (program expr) candidate left = .ok (found, left')) :
    found.map clean
      = (results context expr (State.new candidate context.prog.captureCount)).head?.map clean := by
  let initial := State.new candidate context.prog.captureCount
  have hpos : initial.pos ≤ context.text.length := hcandidate
  have hwithin : Within context ⟨0, initial, .plain⟩ := hcandidate
  have hbalanced : Balanced initial := (List.length_replicate ..).trans (List.length_replicate ..).symm
  simp only [runCandidate, htrace, Bool.false_eq_true, if_false] at h
  cases hsearch : (threads context (program expr)).search .stepLimit left ∅ [⟨0, initial, .plain⟩] with
  | error e =>
    rw [hsearch] at h
    cases h
  | ok p =>
    obtain ⟨thread, left''⟩ := p
    rw [hsearch] at h
    cases h
    have hunlimited := OrderedSearch.Graph.search_agree (G := threads context (program expr))
      (H := unlimited context (program expr)) (P := Within context) (fun _ => rfl) (fun _ => rfl)
      (fun s ss hs hss => next_unlimited hs hss) (List.forall_mem_singleton.mpr hwithin) hsearch
    have hfirst := (program_unfolds hregular hpos .plain trivial).search_first
      (sameness (program_backrefFree hback)) hunlimited
    have halike := ((compiled_simulates expr hregular).alike initial hpos hbalanced).head?_eq
    rw [List.head?_map, List.head?_map] at halike
    rw [hfirst]
    exact halike

theorem clean_setSearchStart (s : State) (pos : Nat) :
    clean (s.setSearchStart pos) = (clean s).setSearchStart pos := by
  have hoverride : (clean s).startOverride = s.startOverride := rfl
  rw [State.setSearchStart, State.setSearchStart, hoverride]
  split <;> rfl

/-- The candidates are searched as without a program. -/
theorem searchFrom_first (hregular : regular context.prog.expr = true)
    (hback : hasBackref context.prog.expr = false) (htrace : context.prog.hasBackref = false)
    {candidates : List Nat} (hcandidates : ∀ c ∈ candidates, c ≤ context.text.length) {left : Nat}
    {found : Option State}
    (h : searchFrom context (program context.prog.expr) (leadingAnchor context.prog.expr) candidates left
      = .ok found) :
    found.map clean = (firstFrom context candidates).map clean := by
  induction candidates generalizing left with
  | nil =>
    cases h
    rfl
  | cons candidate candidates ih =>
    obtain ⟨hcandidate, hrest⟩ := List.forall_mem_cons.mp hcandidates
    rw [searchFrom] at h
    rw [firstFrom]
    split at h
    · next hruled =>
      have hnone : resultsAt context candidate = [] :=
        results_of_not_allowed (by simpa [State.new] using hruled)
      rw [hnone]
      exact ih hrest h
    · split at h
      · cases h
      · next state left' hrun =>
        cases h
        have hfirst := runCandidate_first hregular hback htrace hcandidate hrun
        rw [← resultsAt] at hfirst
        cases hresults : resultsAt context candidate with
        | nil =>
          rw [hresults] at hfirst
          cases hfirst
        | cons first others =>
          rw [hresults] at hfirst
          have hclean : clean state = clean first := Option.some_inj.mp hfirst
          exact congrArg some (by rw [clean_setSearchStart, clean_setSearchStart, hclean])
      · next left' hrun =>
        have hfirst := runCandidate_first hregular hback htrace hcandidate hrun
        rw [← resultsAt] at hfirst
        cases hresults : resultsAt context candidate with
        | nil => exact ih hrest h
        | cons first others =>
          rw [hresults] at hfirst
          cases hfirst

/-- Within its limits the engine finds what the backtracking engine finds. -/
theorem search_first (hregular : regular context.prog.expr = true)
    (hback : hasBackref context.prog.expr = false) (htrace : context.prog.hasBackref = false)
    {start : Nat} {found : Option State} (h : search context start = .ok found) :
    found.map clean = (firstMatch context start).map clean :=
  searchFrom_first hregular hback htrace (fun _ hc => mem_candidateOffsets_le hc) h

end Search

end Oxvim.Regex.Nfa
