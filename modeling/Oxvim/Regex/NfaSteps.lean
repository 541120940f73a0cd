import Oxvim.Regex.NfaSearch
import Oxvim.Regex.Limits

/-!
# Steps of the NFA engine

A thread is at one of the instructions and at one of the offsets, and no two threads go on from the same.
So where a program leaves nothing but anchors to the backtracking engine, a search takes a number of
steps that is at most proportional to candidates, instructions and offsets.
-/

namespace Oxvim.Regex.Nfa

open Lib

variable {context : Context}

/-! ## Targets -/

/-- The splits and jumps of a program stay within it, or go to its end. -/
def Inst.Targets (length : Nat) : Inst → Prop
  | .split first second => first ≤ length ∧ second ≤ length
  | .jump target => target ≤ length
  | _ => True

def TargetsWithin (code : List Inst) : Prop := ∀ inst ∈ code, inst.Targets code.length

/-- What is compiled does not take away, and its targets are within the program. -/
structure Grows (compile : List Inst → List Inst) : Prop where
  length : ∀ code, code.length ≤ (compile code).length
  targets : ∀ code, TargetsWithin code → TargetsWithin (compile code)

theorem Inst.Targets.mono {inst : Inst} {length length' : Nat} (h : inst.Targets length)
    (hle : length ≤ length') : inst.Targets length' := by
  cases inst with
  | split => exact ⟨h.1.trans hle, h.2.trans hle⟩
  | jump => exact Nat.le_trans h hle
  | _ => trivial

section Grows

variable {compile compile' : List Inst → List Inst} {code : List Inst}

theorem TargetsWithin.concat (h : TargetsWithin code) (last : Inst)
    (hlast : last.Targets (code.length + 1)) : TargetsWithin (code ++ [last]) := by
  have hlength : (code ++ [last]).length = code.length + 1 := by simp
  rw [TargetsWithin, hlength]
  exact mem_concat_all (fun inst hmem => (h inst hmem).mono (Nat.le_succ _)) hlast

theorem TargetsWithin.set {i : Nat} {patch : Inst} (h : TargetsWithin code)
    (hpatch : patch.Targets code.length) : TargetsWithin (code.set i patch) := by
  rw [TargetsWithin, List.length_set]
  exact mem_set_all h hpatch

namespace Grows

theorem nil : Grows fun code => code := ⟨fun _ => le_rfl, fun _ h => h⟩

theorem seq (h : Grows compile) (h' : Grows compile') : Grows fun code => compile' (compile code) :=
  ⟨fun code => (h.length code).trans (h'.length _), fun code hcode => h'.targets _ (h.targets code hcode)⟩

theorem concat {last : Inst} (h : ∀ length, last.Targets length) : Grows fun code => code ++ [last] :=
  ⟨fun code => by simp, fun code hcode => hcode.concat last (h _)⟩

theorem iterate (h : Grows compile) (count : Nat) : Grows compile^[count] := by
  induction count with
  | zero => exact nil
  | succ count ih => exact h.seq ih

theorem compileSeq {parts : List (List Inst → List Inst)} (h : ∀ part ∈ parts, Grows part) :
    Grows (compileSeq parts) := by
  induction parts with
  | nil => exact nil
  | cons part parts ih =>
    obtain ⟨hpart, hparts⟩ := List.forall_mem_cons.mp h
    exact hpart.seq (ih hparts)

theorem ofInst (inst : Inst) (h : ∀ code, compile code = code ++ [inst])
    (hinst : ∀ length, inst.Targets length) : Grows compile := by
  have hcompile : compile = fun code => code ++ [inst] := funext h
  rw [hcompile]
  exact concat hinst

theorem afterInst (h : Grows compile) (inst : Inst) (code : List Inst) :
    code.length + 1 ≤ (compile (code ++ [inst])).length := by
  have hlength := h.length (code ++ [inst])
  rwa [List.length_append] at hlength

theorem optional (h : Grows compile) (greedy : Bool) : Grows (compileOptional compile greedy) := by
  have hlength := h.afterInst (.split 0 0)
  constructor
  · intro code
    rw [compileOptional, List.length_set]
    exact (Nat.le_succ _).trans (hlength code)
  · intro code hcode
    have hbody := h.targets _ (hcode.concat (.split 0 0) ⟨Nat.zero_le _, Nat.zero_le _⟩)
    rw [compileOptional]
    apply hbody.set
    cases greedy with
    | true => exact ⟨hlength code, le_rfl⟩
    | false => exact ⟨le_rfl, hlength code⟩

theorem star (h : Grows compile) (greedy : Bool) : Grows (compileStar compile greedy) := by
  have hlength := h.afterInst (.split 0 0)
  have hlonger : ∀ code : List Inst, code.length + 1
      ≤ (compile (code ++ [.split 0 0]) ++ [Inst.jump code.length]).length := by
    intro code
    rw [List.length_append]
    exact (hlength code).trans (Nat.le_add_right _ _)
  constructor
  · intro code
    rw [compileStar, List.length_set]
    exact (Nat.le_succ _).trans (hlonger code)
  · intro code hcode
    have hbody := h.targets _ (hcode.concat (.split 0 0) ⟨Nat.zero_le _, Nat.zero_le _⟩)
    rw [compileStar]
    apply (hbody.concat (.jump code.length) ?_).set
    · cases greedy with
      | true => exact ⟨hlonger code, le_rfl⟩
      | false => exact ⟨le_rfl, hlonger code⟩
    · have := hlength code
      show code.length ≤ _
      omega

theorem «repeat» (h : Grows compile) (min : Nat) (max : Option Nat) (greedy : Bool) :
    Grows (compileRepeat compile min max greedy) := by
  cases max with
  | none => exact (h.iterate min).seq (h.star greedy)
  | some max => exact (h.iterate min).seq ((h.optional greedy).iterate (max - min))

theorem patchJumps (jumps : List Nat) : Grows (patchJumps jumps) := by
  constructor
  · intro code
    rw [patchJumps_eq, setJumps_length]
  · intro code hcode
    have hpatch : ∀ (jumps : List Nat) (target : Nat) (code : List Inst), target ≤ code.length →
        TargetsWithin code → TargetsWithin (setJumps jumps target code) := by
      intro jumps target
      induction jumps with
      | nil => exact fun code _ hcode => hcode
      | cons jump jumps ih =>
        intro code htarget hcode
        exact ih _ (htarget.trans_eq (List.length_set ..).symm) (hcode.set htarget)
    rw [patchJumps_eq]
    exact hpatch jumps code.length code le_rfl hcode

theorem patchSecond (split : Nat) : Grows (patchSecond split) := by
  constructor
  · intro code
    rw [Nfa.patchSecond]
    split
    · rw [List.length_set]
    · exact le_rfl
  · intro code hcode
    rw [Nfa.patchSecond]
    split
    · next first second hsplit =>
      exact hcode.set ⟨(hcode _ (List.mem_of_getElem? hsplit)).1, le_rfl⟩
    · exact hcode

theorem branches {branches : List (List Inst → List Inst)} (h : ∀ branch ∈ branches, Grows branch)
    (jumps : List Nat) : Grows (compileBranches branches jumps) := by
  induction branches generalizing jumps with
  | nil => exact patchJumps jumps
  | cons branch branches ih =>
    obtain ⟨hbranch, hbranches⟩ := List.forall_mem_cons.mp h
    cases branches with
    | nil => exact hbranch.seq (patchJumps jumps)
    | cons branch' branches =>
      have hjump : Grows fun code => code ++ [.jump 0] := concat fun length => Nat.zero_le length
      constructor
      · intro code
        rw [compileBranches]
        · have hcode := hbranch.afterInst (.split (code.length + 1) 0) code
          have hrest := (hjump.seq (patchSecond code.length)).length
            (branch (code ++ [.split (code.length + 1) 0]))
          have hlast := (ih hbranches (jumps ++ [(branch (code ++
            [.split (code.length + 1) 0])).length])).length
            (Nfa.patchSecond code.length (branch (code ++ [.split (code.length + 1) 0]) ++ [.jump 0]))
          omega
        · simp
      · intro code hcode
        rw [compileBranches]
        · apply (ih hbranches _).targets
          apply (hjump.seq (patchSecond code.length)).targets
          apply hbranch.targets
          exact hcode.concat _ ⟨le_rfl, Nat.zero_le _⟩
        · simp

end Grows

mutual

theorem compileExpr_grows : (expr : Expr) → Grows (compileExpr expr)
  | .empty => by
    have hcompile : compileExpr .empty = fun code => code := by
      funext code
      rw [compileExpr]
    rw [hcompile]
    exact .nil
  | .literal c => .ofInst (.char c) (fun code => by rw [compileExpr]) fun _ => trivial
  | .any newline => .ofInst (.any newline) (fun code => by rw [compileExpr]) fun _ => trivial
  | .class charClass =>
    .ofInst (.class charClass) (fun code => by rw [compileExpr]) fun _ => trivial
  | .setStart => .ofInst .setStart (fun code => by rw [compileExpr]) fun _ => trivial
  | .setEnd => .ofInst .setEnd (fun code => by rw [compileExpr]) fun _ => trivial
  | .and parts =>
    .ofInst (.fallback (.and parts)) (fun code => by rw [compileExpr]) fun _ => trivial
  | .anchor anchor =>
    .ofInst (.fallback (.anchor anchor)) (fun code => by rw [compileExpr]) fun _ => trivial
  | .look expr kind limit =>
    .ofInst (.fallback (.look expr kind limit)) (fun code => by rw [compileExpr])
      fun _ => trivial
  | .backref index =>
    .ofInst (.fallback (.backref index)) (fun code => by rw [compileExpr]) fun _ => trivial
  | .concat parts => by
    have hcompile : compileExpr (.concat parts) = compileSeq (compileAll parts) := by
      funext code
      rw [compileExpr]
    rw [hcompile]
    exact .compileSeq (compileAll_grows parts)
  | .alt branches => by
    have hcompile : compileExpr (.alt branches) = compileBranches (compileAll branches) [] := by
      funext code
      rw [compileExpr, compileAlt]
    rw [hcompile]
    exact .branches (compileAll_grows branches) []
  | .repeat expr min max greedy => by
    by_cases hlarge : isLargeRepeat min max = true
    · exact .ofInst (.fallback (.repeat expr min max greedy))
        (fun code => by rw [compileExpr, if_pos hlarge]) fun _ => trivial
    · have hcompile : compileExpr (.repeat expr min max greedy)
          = compileRepeat (compileExpr expr) min max greedy := by
        funext code
        rw [compileExpr, if_neg hlarge]
      rw [hcompile]
      exact (compileExpr_grows expr).repeat min max greedy
  | .group none expr => by
    have hcompile : compileExpr (.group none expr) = compileExpr expr := by
      funext code
      rw [compileExpr]
    rw [hcompile]
    exact compileExpr_grows expr
  | .group (some index) expr => by
    have hcompile : compileExpr (.group (some index) expr)
        = fun code => compileExpr expr (code ++ [.saveStart index]) ++ [.saveEnd index] := by
      funext code
      rw [compileExpr]
    rw [hcompile]
    have hstart : Grows fun code => code ++ [.saveStart index] := .concat fun _ => trivial
    have hend : Grows fun code => code ++ [.saveEnd index] := .concat fun _ => trivial
    exact (hstart.seq (compileExpr_grows expr)).seq hend
  | .optionalSeq parts => by
    have hcompile : compileExpr (.optionalSeq parts)
        = compileBranches ((compileAll parts).inits.reverse.map compileSeq) [] := by
      funext code
      rw [compileExpr, compileAlt]
    rw [hcompile]
    refine .branches (fun part hpart => ?_) []
    obtain ⟨level, hlevel, rfl⟩ := List.mem_map.mp hpart
    have hinit := (List.mem_inits _ _).mp (List.mem_reverse.mp hlevel)
    exact .compileSeq fun part hpart => compileAll_grows parts part (hinit.subset hpart)

theorem compileAll_grows : (exprs : List Expr) → ∀ part ∈ compileAll exprs, Grows part
  | [] => by simp [compileAll]
  | expr :: exprs => by
    rw [compileAll, List.forall_mem_cons]
    exact ⟨compileExpr_grows expr, compileAll_grows exprs⟩

end

theorem program_targets (expr : Expr) : TargetsWithin (program expr) := by
  have hempty : TargetsWithin [] := by simp [TargetsWithin]
  exact ((compileExpr_grows expr).targets [] hempty).concat _ trivial

end Grows

/-! ## Keys -/

/-- All places that a thread can be at. -/
def places (context : Context) (code : List Inst) : Finset VisitKey :=
  (Finset.range (code.length + 1) ×ˢ Finset.range (context.text.length + 1)).image
    fun place => .plain place.1 place.2

variable (context) in
theorem card_places_le (code : List Inst) :
    (places context code).card ≤ (code.length + 1) * (context.text.length + 1) := by
  refine Finset.card_image_le.trans_eq ?_
  rw [Finset.card_product, Finset.card_range, Finset.card_range]

/-! ## Searching -/

/-- Only anchors are left to the backtracking engine. -/
def AnchorsOnly (expr : Expr) : Prop := ∀ part ∈ fallbacks expr, ∃ anchor, part = .anchor anchor

section Search

variable {expr : Expr}

theorem matchAt_anchor {anchor : Anchor} (hlimit : 0 < context.prog.stepLimit) (s : State) :
    Backtrack.matchAt context (.anchor anchor) s = .ok (results context (.anchor anchor) s) := by
  have hsteps : ¬ context.prog.stepLimit < 0 + 1 := by omega
  have hdepth : ¬ context.prog.depthLimit < 0 := Nat.not_lt_zero _
  have henter : Backtrack.enter context 0 0 = .ok ((), 1) := by
    rw [Backtrack.enter_run, if_neg hsteps, if_neg hdepth]
  have hrun : Backtrack.matchExpr context (.anchor anchor) 0 s 0
      = .ok (results context (.anchor anchor) s, 1) := by
    rw [Backtrack.matchExpr, results, run_bind henter]
    rfl
  exact congrArg (Except.map Prod.fst) hrun

theorem atPlace_iff {code : List Inst} {s : Thread} :
    (∃ k ∈ places context code, (threads context code).key s = some k) ↔
      s.trace = .plain ∧ s.pc ≤ code.length ∧ s.state.pos ≤ context.text.length := by
  have hkey : (threads context code).key s = s.trace.key s.pc s.state.pos := rfl
  rw [hkey]
  cases htrace : s.trace with
  | plain => simp [Trace.key, places]
  | captures trace => simp [Trace.key, places]
  | opaqueTrace => simp [Trace.key]

theorem matchChar_length (accepts : Char → Bool) (s : State) :
    (Backtrack.matchChar context accepts s).length ≤ 1 := by
  rw [Backtrack.matchChar]
  split
  · split
    · exact le_rfl
    · exact Nat.zero_le _
  · exact Nat.zero_le _

/-- A thread at one of the places goes on to at most two others. -/
theorem next_places (hanchors : AnchorsOnly expr) (hlimit : 0 < context.prog.stepLimit) {s : Thread}
    (hs : ∃ k ∈ places context (program expr), (threads context (program expr)).key s = some k) :
    ∃ ss, (threads context (program expr)).next s = .ok ss ∧ ss.length ≤ 2 ∧
      ∀ t ∈ ss, ∃ k ∈ places context (program expr), (threads context (program expr)).key t = some k := by
  simp only [atPlace_iff] at hs ⊢
  obtain ⟨htrace, hpc, hpos⟩ := hs
  have hstep : ∀ {states : List State}, s.pc < (program expr).length →
      (∀ t ∈ states, t.pos ≤ context.text.length) → ∀ t ∈ advance s states,
        t.trace = .plain ∧ t.pc ≤ (program expr).length ∧ t.state.pos ≤ context.text.length := by
    intro states hlt hstates t ht
    obtain ⟨state, hstate, rfl⟩ := List.mem_map.mp ht
    exact ⟨htrace, hlt, hstates state hstate⟩
  cases hinst : (program expr)[s.pc]? with
  | none => exact ⟨[], by simp [threads, nextThreads, hinst], by simp, by simp⟩
  | some inst =>
    have hlt : s.pc < (program expr).length := (List.getElem?_eq_some_iff.mp hinst).1
    have hmem : inst ∈ program expr := List.mem_of_getElem? hinst
    have htargets := program_targets expr inst hmem
    have hchar : ∀ accepts, (advance s (Backtrack.matchChar context accepts s.state)).length ≤ 2 ∧
        ∀ t ∈ advance s (Backtrack.matchChar context accepts s.state), t.trace = .plain ∧
          t.pc ≤ (program expr).length ∧ t.state.pos ≤ context.text.length := by
      intro accepts
      refine ⟨?_, hstep hlt fun t ht => (matchChar_bounds ht).2⟩
      rw [advance, List.length_map]
      exact (matchChar_length accepts s.state).trans (Nat.le_succ 1)
    simp only [threads, nextThreads, hinst]
    cases inst with
    | char => exact ⟨_, rfl, hchar _⟩
    | any => exact ⟨_, rfl, hchar _⟩
    | «class» => exact ⟨_, rfl, hchar _⟩
    | saveStart index =>
      exact ⟨_, rfl, Nat.le_succ 1, List.forall_mem_singleton.mpr ⟨by rw [htrace]; rfl, hlt, hpos⟩⟩
    | saveEnd index =>
      refine ⟨_, rfl, Nat.le_succ 1, List.forall_mem_singleton.mpr ⟨by rw [htrace]; rfl, hlt, ?_⟩⟩
      rw [closeCapture_pos]
      exact hpos
    | setStart => exact ⟨_, rfl, Nat.le_succ 1, List.forall_mem_singleton.mpr ⟨htrace, hlt, hpos⟩⟩
    | setEnd => exact ⟨_, rfl, Nat.le_succ 1, List.forall_mem_singleton.mpr ⟨htrace, hlt, hpos⟩⟩
    | split first second =>
      refine ⟨_, rfl, le_rfl, List.forall_mem_cons.mpr ⟨⟨htrace, htargets.1, hpos⟩, ?_⟩⟩
      exact List.forall_mem_singleton.mpr ⟨htrace, htargets.2, hpos⟩
    | jump target =>
      exact ⟨_, rfl, Nat.le_succ 1, List.forall_mem_singleton.mpr ⟨htrace, htargets, hpos⟩⟩
    | fallback part =>
      obtain ⟨anchor, rfl⟩ := hanchors part (fallback_mem hmem)
      simp only [matchAt_anchor hlimit]
      refine ⟨_, rfl, ?_, fun t ht => ?_⟩
      · rw [List.length_map, results]
        split
        · exact Nat.le_succ 1
        · exact Nat.zero_le 2
      · obtain ⟨state, hstate, rfl⟩ := List.mem_map.mp ht
        exact ⟨htrace, hlt, (results_bounded context _ s.state hpos state hstate).2⟩
    | «match» => exact ⟨[], rfl, by simp, by simp⟩

/-- The steps that a candidate can take. -/
def candidateSteps (context : Context) (expr : Expr) : Nat :=
  1 + 2 * (((program expr).length + 1) * (context.text.length + 1))

theorem runCandidate_ok (hanchors : AnchorsOnly expr) (hlimit : 0 < context.prog.stepLimit)
    (htrace : context.prog.hasBackref = false) {candidate left : Nat}
    (hcandidate : candidate ≤ context.text.length) (hleft : candidateSteps context expr ≤ left) :
    ∃ found left', runCandidate context (program expr) candidate left = .ok (found, left') ∧
      left ≤ left' + candidateSteps context expr := by
  let initial : Thread := ⟨0, State.new candidate context.prog.captureCount, .plain⟩
  have hinitial : ∃ k ∈ places context (program expr),
      (threads context (program expr)).key initial = some k :=
    atPlace_iff.mpr ⟨rfl, Nat.zero_le _, hcandidate⟩
  have hcost : 1 + 2 * ((places context (program expr)).card - (∅ : Finset VisitKey).card)
      ≤ candidateSteps context expr := by
    have := card_places_le context (program expr)
    rw [candidateSteps, Finset.card_empty]
    omega
  obtain ⟨r, left', hsearch, hused⟩ := OrderedSearch.Graph.search_ok ExecError.stepLimit
    (fun s => next_places hanchors hlimit) (List.forall_mem_singleton.mpr hinitial)
    (Finset.empty_subset _) (hcost.trans hleft)
  refine ⟨r.map (·.state), left', ?_, ?_⟩
  · simp only [runCandidate, htrace, Bool.false_eq_true, if_false]
    rw [hsearch]
    rfl
  · rw [List.length_singleton] at hused
    omega

theorem searchFrom_ok (hanchors : AnchorsOnly expr) (hlimit : 0 < context.prog.stepLimit)
    (htrace : context.prog.hasBackref = false) {anchored : Option Anchor} {candidates : List Nat}
    (hcandidates : ∀ c ∈ candidates, c ≤ context.text.length) {left : Nat}
    (hleft : candidates.length * candidateSteps context expr ≤ left) :
    ∃ found, searchFrom context (program expr) anchored candidates left = .ok found := by
  induction candidates generalizing left with
  | nil => exact ⟨none, rfl⟩
  | cons candidate candidates ih =>
    obtain ⟨hcandidate, hrest⟩ := List.forall_mem_cons.mp hcandidates
    rw [List.length_cons, Nat.succ_mul] at hleft
    rw [searchFrom]
    split
    · exact ih hrest (by omega)
    · obtain ⟨found, left', hrun, hused⟩ := runCandidate_ok hanchors hlimit htrace hcandidate
        (by omega : candidateSteps context expr ≤ left)
      rw [hrun]
      cases found with
      | some state => exact ⟨_, rfl⟩
      | none => exact ih hrest (by omega)

end Search

end Oxvim.Regex.Nfa
