import Oxvim.Regex.Leftmost
import Oxvim.Regex.Nfa
import Oxvim.Lib.FirstFound

/-!
# What a program unfolds to

A block of a program runs a body where a thread at its beginning unfolds to the threads at its end, one
for each state that the body leads to, in order. Blocks are put together as the compiler does it.

Here the engine for what has no instructions has no limits.
-/

namespace Oxvim.Regex.Nfa

open Lib Lib.Repetition

/-- No captures are traced: so it is in programs without references back. -/
def Trace.Simple : Trace → Prop
  | .captures _ => False
  | _ => True

variable (context : Context) (code : List Inst)

/-- The threads of a program, without limits. -/
def unlimited : OrderedSearch.Graph Thread VisitKey ExecError where
  next := nextThreads context (fun expr state => .ok (results context expr state)) code
  goal := isMatch code
  key thread := thread.trace.key thread.pc thread.state.pos

/-- The thread unfolds to goals with these states, in order. -/
def UnfoldsFrom (pc : Nat) (state : State) (out : List State) : Prop :=
  ∀ trace : Trace, trace.Simple →
    (unlimited context code).UnfoldsTo Thread.state ⟨pc, state, trace⟩ out

/-- What the instruction does to a state, where it only goes on to the next one. -/
def effect : Inst → Option (State → List State)
  | .char expected => some (Backtrack.matchChar context
      (charsEqual context.tables expected · context.prog.ignoreCase))
  | .any newline => some (Backtrack.matchChar context (fun actual => newline || actual != '\n'))
  | .class charClass => some (Backtrack.matchChar context
      (classMatches context.tables charClass · context.prog.ignoreCase))
  | .saveStart index => some fun state => [state.openCapture index]
  | .saveEnd index => some fun state => [state.closeCapture index]
  | .setStart => some fun state => [state.setMatchStart]
  | .setEnd => some fun state => [state.setMatchEnd]
  | .fallback expr => some (results context expr)
  | .split .. | .jump _ | .match => none

/-- Between the two places the program runs the body. -/
def Runs (start stop : Nat) (body : State → List State) : Prop :=
  ∀ state : State, state.pos ≤ context.text.length → ∀ k : State → List State,
    (∀ t ∈ body state, UnfoldsFrom context code stop t (k t)) →
    UnfoldsFrom context code start state ((body state).flatMap k)

section Rules

variable {context code} {pc : Nat} {state : State}

theorem UnfoldsFrom.step {nexts : List (Nat × State)} {outs : List (List State)}
    (hmatch : code[pc]? ≠ some .match)
    (hnext : ∀ trace : Trace, trace.Simple → ∃ trace' : Trace, trace'.Simple ∧
      (unlimited context code).next ⟨pc, state, trace⟩
        = .ok (nexts.map fun next => ⟨next.1, next.2, trace'⟩))
    (h : List.Forall₂ (fun next => UnfoldsFrom context code next.1 next.2) nexts outs) :
    UnfoldsFrom context code pc state outs.flatten := by
  intro trace htrace
  obtain ⟨trace', htrace', hnext⟩ := hnext trace htrace
  have hgoal : (unlimited context code).goal ⟨pc, state, trace⟩ = false := by
    simp only [unlimited, isMatch]
  refine OrderedSearch.Graph.UnfoldsTo.node hgoal hnext ?_
  rw [List.forall₂_map_left_iff]
  exact h.imp fun next out hout => hout trace' htrace'

/-- At the end of the program a thread is a goal. -/
theorem UnfoldsFrom.match (h : code[pc]? = some .match) : UnfoldsFrom context code pc state [state] := by
  intro trace _
  apply @OrderedSearch.Graph.UnfoldsTo.goal _ _ _ _ _ _ Thread.state
  simp only [unlimited, isMatch, h]

theorem UnfoldsFrom.jump {target : Nat} {out : List State} (h : code[pc]? = some (.jump target))
    (htarget : UnfoldsFrom context code target state out) : UnfoldsFrom context code pc state out := by
  have hnext : ∀ trace : Trace, trace.Simple → ∃ trace' : Trace, trace'.Simple ∧
      (unlimited context code).next ⟨pc, state, trace⟩
        = .ok ([(target, state)].map fun next => ⟨next.1, next.2, trace'⟩) := by
    intro trace htrace
    exact ⟨trace, htrace, by simp only [unlimited, nextThreads, h, List.map_cons, List.map_nil]⟩
  have hstep := UnfoldsFrom.step (by simp [h]) hnext (.cons htarget .nil)
  simpa using hstep

theorem UnfoldsFrom.split {first second : Nat} {out out' : List State}
    (h : code[pc]? = some (.split first second)) (hfirst : UnfoldsFrom context code first state out)
    (hsecond : UnfoldsFrom context code second state out') :
    UnfoldsFrom context code pc state (out ++ out') := by
  have hnext : ∀ trace : Trace, trace.Simple → ∃ trace' : Trace, trace'.Simple ∧
      (unlimited context code).next ⟨pc, state, trace⟩
        = .ok ([(first, state), (second, state)].map fun next => ⟨next.1, next.2, trace'⟩) := by
    intro trace htrace
    exact ⟨trace, htrace, by simp only [unlimited, nextThreads, h, List.map_cons, List.map_nil]⟩
  have hstep := UnfoldsFrom.step (by simp [h]) hnext (.cons hfirst (.cons hsecond .nil))
  simpa using hstep

theorem Trace.simple_open {trace : Trace} (h : trace.Simple) (index pos : Nat) :
    (trace.open index pos).Simple := by
  cases trace with
  | captures => cases h
  | _ => trivial

theorem Trace.simple_close {trace : Trace} (h : trace.Simple) (index pos : Nat) :
    (trace.close index pos).Simple := by
  cases trace with
  | captures => cases h
  | _ => trivial

variable (state) in
/-- An instruction that goes on to the next one does so with all that it leads to. -/
theorem next_of_effect {inst : Inst} {body : State → List State} (h : code[pc]? = some inst)
    (heffect : effect context inst = some body) (trace : Trace) :
    ∃ trace' : Trace, (trace.Simple → trace'.Simple) ∧
      (unlimited context code).next ⟨pc, state, trace⟩
        = .ok ((body state).map fun t => ⟨pc + 1, t, trace'⟩) := by
  simp only [unlimited, nextThreads, h]
  cases inst with
  | char =>
    cases heffect
    exact ⟨trace, id, rfl⟩
  | any =>
    cases heffect
    exact ⟨trace, id, rfl⟩
  | «class» =>
    cases heffect
    exact ⟨trace, id, rfl⟩
  | saveStart index =>
    cases heffect
    exact ⟨_, fun htrace => Trace.simple_open htrace index state.pos, rfl⟩
  | saveEnd index =>
    cases heffect
    exact ⟨_, fun htrace => Trace.simple_close htrace index state.pos, rfl⟩
  | setStart =>
    cases heffect
    exact ⟨trace, id, rfl⟩
  | setEnd =>
    cases heffect
    exact ⟨trace, id, rfl⟩
  | fallback expr =>
    cases heffect
    refine ⟨if fallbackPreservesCaptures expr then trace else .opaqueTrace, fun htrace => ?_, rfl⟩
    split
    · exact htrace
    · trivial
  | split => cases heffect
  | jump => cases heffect
  | «match» => cases heffect

/-! ## Running blocks -/

namespace Runs

variable {start middle stop : Nat} {body body' : State → List State}

theorem congr (h : Runs context code start stop body)
    (heq : ∀ s : State, s.pos ≤ context.text.length → body' s = body s) :
    Runs context code start stop body' := by
  intro s hs k hk
  rw [heq s hs] at hk ⊢
  exact h s hs k hk

theorem nil (pc : Nat) : Runs context code pc pc fun s => [s] := by
  intro s _ k hk
  rw [List.flatMap_singleton]
  exact hk s (List.mem_singleton_self s)

theorem seq (hbounded : Bounded body State.pos context.text.length)
    (h : Runs context code start middle body) (h' : Runs context code middle stop body') :
    Runs context code start stop fun s => (body s).flatMap body' := by
  intro s hs k hk
  rw [List.flatMap_assoc]
  refine h s hs _ fun t ht => h' t (hbounded s hs t ht).2 k fun r hr => ?_
  exact hk r (List.mem_flatMap.mpr ⟨t, ht, hr⟩)

theorem jump {target : Nat} (h : Runs context code start stop body)
    (hstop : code[stop]? = some (.jump target)) : Runs context code start target body :=
  fun s hs k hk => h s hs k fun t ht => .jump hstop (hk t ht)

theorem split {first second : Nat} (hpc : code[pc]? = some (.split first second))
    (h : Runs context code first stop body) (h' : Runs context code second stop body') :
    Runs context code pc stop fun s => body s ++ body' s := by
  intro s hs k hk
  obtain ⟨hk, hk'⟩ := List.forall_mem_append.mp hk
  rw [List.flatMap_append]
  exact .split hpc (h s hs k hk) (h' s hs k hk')

theorem effect {inst : Inst} (hpc : code[pc]? = some inst)
    (heffect : effect context inst = some body) : Runs context code pc (pc + 1) body := by
  intro s _ k hk
  have hmatch : code[pc]? ≠ some .match := by
    rw [hpc]
    rintro ⟨⟩
    cases heffect
  have hnext : ∀ trace : Trace, trace.Simple → ∃ trace' : Trace, trace'.Simple ∧
      (unlimited context code).next ⟨pc, s, trace⟩
        = .ok (((body s).map fun t => (pc + 1, t)).map fun next => ⟨next.1, next.2, trace'⟩) := by
    intro trace htrace
    obtain ⟨trace', hsimple, hnext⟩ := next_of_effect s hpc heffect trace
    exact ⟨trace', hsimple htrace, by rw [hnext, List.map_map]; rfl⟩
  have hstep : UnfoldsFrom context code pc s ((body s).map k).flatten := .step hmatch hnext
    (by simpa [List.forall₂_map_left_iff, List.forall₂_map_right_iff, List.forall₂_same] using hk)
  rwa [← List.flatMap_def] at hstep

theorem option {first second : Nat} {greedy : Bool} (hpc : code[pc]? = some (.split first second))
    (h : Runs context code (if greedy then first else second) stop body)
    (h' : Runs context code (if greedy then second else first) stop fun s => [s]) :
    Runs context code pc stop (optional body greedy) := by
  cases greedy with
  | true => exact split hpc h h'
  | false => exact split hpc h' h

/-- A loop goes round while the body moves on: the text left before it decreases. -/
theorem loop {first second back : Nat} {greedy : Bool}
    (hpc : code[pc]? = some (.split first second)) (hback : code[back]? = some (.jump pc))
    (hbounded : Bounded body State.pos context.text.length)
    (hmoves : Moves body State.pos context.text.length)
    (h : Runs context code (if greedy then first else second) back body)
    (h' : Runs context code (if greedy then second else first) stop fun s => [s]) :
    Runs context code pc stop (star body State.pos context.text.length greedy) := by
  intro s hs k hk
  induction hleft : context.text.length - s.pos using Nat.strongRecOn generalizing s with
  | ind left ih =>
    rw [star_eq hbounded hmoves hs] at hk ⊢
    have hmore : UnfoldsFrom context code (if greedy then first else second) s
        (((body s).flatMap (star body State.pos context.text.length greedy)).flatMap k) := by
      rw [List.flatMap_assoc]
      refine h s hs _ fun t ht => .jump hback ?_
      have hbound := hbounded s hs t ht
      have hne := hmoves s hs t ht
      refine ih (context.text.length - t.pos) (by omega) t hbound.2 (fun r hr => ?_) rfl
      exact hk r (mem_arrange.mpr (.inr (List.mem_flatMap.mpr ⟨t, ht, hr⟩)))
    have hdone : UnfoldsFrom context code (if greedy then second else first) s (k s) := by
      have := h' s hs k fun t ht => by
        rw [List.mem_singleton.mp ht]
        exact hk s (mem_arrange.mpr (.inl (List.mem_singleton_self s)))
      rwa [List.flatMap_singleton] at this
    cases greedy with
    | true =>
      rw [arrange, if_pos rfl, List.flatMap_append, List.flatMap_singleton]
      exact .split hpc hmore hdone
    | false =>
      rw [arrange, if_neg Bool.false_ne_true, List.flatMap_append, List.flatMap_singleton]
      exact .split hpc hdone hmore

end Runs

end Rules

/-! ## Compiling blocks -/

/-- The block stands in the program at the place. -/
def Placed (block : List Inst) (start : Nat) : Prop :=
  ∀ i inst, block[i]? = some inst → code[start + i]? = some inst

/-- The compiler appends a block that runs the body, wherever it stands. -/
structure Compiles (compile : List Inst → List Inst) (body : State → List State) : Prop where
  bounded : Bounded body State.pos context.text.length
  block : ∀ start, ∃ block, (∀ code, code.length = start → compile code = code ++ block) ∧
    ∀ code, Placed code block start → Runs context code start (start + block.length) body

section Compiling

variable {context code} {block block' : List Inst} {start : Nat}

theorem Placed.left (h : Placed code (block ++ block') start) : Placed code block start := by
  intro i inst hi
  obtain ⟨hlt, -⟩ := List.getElem?_eq_some_iff.mp hi
  exact h i inst (by rwa [List.getElem?_append_left hlt])

theorem Placed.right (h : Placed code (block ++ block') start) :
    Placed code block' (start + block.length) := by
  intro i inst hi
  rw [Nat.add_assoc]
  exact h (block.length + i) inst (by rwa [List.getElem?_append_right (by omega), Nat.add_sub_cancel_left])

theorem Placed.head {inst : Inst} (h : Placed code (inst :: block) start) :
    code[start]? = some inst := h 0 inst rfl

theorem Placed.tail {inst : Inst} (h : Placed code (inst :: block) start) :
    Placed code block (start + 1) := @Placed.right _ [inst] _ _ h

namespace Compiles

variable {compile compile' : List Inst → List Inst} {body body' : State → List State}

theorem congr (h : Compiles context compile body) (heq : ∀ code, compile' code = compile code) :
    Compiles context compile' body := by
  refine ⟨h.bounded, fun start => ?_⟩
  obtain ⟨block, hcode, hrun⟩ := h.block start
  exact ⟨block, fun code hlen => (heq code).trans (hcode code hlen), hrun⟩

theorem nil : Compiles context (fun code => code) fun s => [s] := by
  refine ⟨fun s hs t ht => ?_, fun start => ⟨[], fun code _ => (List.append_nil code).symm, ?_⟩⟩
  · rw [List.mem_singleton.mp ht]
    exact ⟨le_rfl, hs⟩
  · intro code _
    exact Runs.nil start

theorem effect {inst : Inst} (heffect : effect context inst = some body)
    (hbounded : Bounded body State.pos context.text.length) :
    Compiles context (fun code => code ++ [inst]) body := by
  refine ⟨hbounded, fun start => ⟨[inst], fun code _ => rfl, fun code hplaced => ?_⟩⟩
  exact Runs.effect hplaced.head heffect

theorem seq (h : Compiles context compile body) (h' : Compiles context compile' body') :
    Compiles context (fun code => compile' (compile code)) fun s => (body s).flatMap body' := by
  constructor
  · intro s hs t ht
    obtain ⟨r, hr, ht⟩ := List.mem_flatMap.mp ht
    have hfirst := h.bounded s hs r hr
    have hsecond := h'.bounded r hfirst.2 t ht
    omega
  · intro start
    obtain ⟨block, hcode, hrun⟩ := h.block start
    obtain ⟨block', hcode', hrun'⟩ := h'.block (start + block.length)
    refine ⟨block ++ block', fun code hlen => ?_, fun code hplaced => ?_⟩
    · rw [hcode code hlen, hcode' _ (by rw [List.length_append, hlen]), List.append_assoc]
    · rw [List.length_append, ← Nat.add_assoc]
      exact Runs.seq h.bounded (hrun code hplaced.left) (hrun' code hplaced.right)

theorem compileSeq {parts : List (List Inst → List Inst)} {bodies : List (State → List State)}
    (h : List.Forall₂ (Compiles context) parts bodies) :
    Compiles context (compileSeq parts) (inSequence bodies) := by
  induction h with
  | nil => exact nil
  | cons hpart _ ih => exact hpart.seq ih

theorem iterate (h : Compiles context compile body) (count : Nat) :
    Compiles context compile^[count] (inSequence (List.replicate count body)) := by
  induction count with
  | zero => exact nil
  | succ count ih => exact h.seq ih

theorem optional (h : Compiles context compile body) (greedy : Bool) :
    Compiles context (compileOptional compile greedy) (optional body greedy) := by
  refine ⟨optional_bounded h.bounded, ?_⟩
  intro start
  obtain ⟨block, hcode, hrun⟩ := h.block (start + 1)
  have hend : start + (block.length + 1) = start + 1 + block.length := by omega
  refine ⟨(if greedy then .split (start + 1) (start + 1 + block.length)
    else .split (start + 1 + block.length) (start + 1)) :: block, ?_, ?_⟩
  · rintro code rfl
    rw [compileOptional, hcode _ (by simp)]
    simp [hend]
  · intro code hplaced
    rw [List.length_cons, hend]
    cases greedy with
    | true => exact Runs.option hplaced.head (hrun code hplaced.tail) (Runs.nil _)
    | false => exact Runs.option hplaced.head (hrun code hplaced.tail) (Runs.nil _)

theorem star (h : Compiles context compile body) (hmoves : Moves body State.pos context.text.length)
    (greedy : Bool) :
    Compiles context (compileStar compile greedy) (star body State.pos context.text.length greedy) := by
  refine ⟨star_bounded h.bounded, ?_⟩
  intro start
  obtain ⟨block, hcode, hrun⟩ := h.block (start + 1)
  have hend : start + (block.length + 1 + 1) = start + 1 + block.length + 1 := by omega
  refine ⟨(if greedy then .split (start + 1) (start + 1 + block.length + 1)
    else .split (start + 1 + block.length + 1) (start + 1)) :: (block ++ [.jump start]), ?_, ?_⟩
  · rintro code rfl
    rw [compileStar, hcode _ (by simp)]
    simp [hend]
  · intro code hplaced
    have hback : code[start + 1 + block.length]? = some (.jump start) := hplaced.tail.right.head
    rw [List.length_cons, List.length_append, List.length_singleton, hend]
    cases greedy with
    | true =>
      exact Runs.loop hplaced.head hback h.bounded hmoves (hrun code hplaced.tail.left) (Runs.nil _)
    | false =>
      exact Runs.loop hplaced.head hback h.bounded hmoves (hrun code hplaced.tail.left) (Runs.nil _)

end Compiles

/-! ### Branches -/

/-- Point the jumps to the target. -/
def setJumps (jumps : List Nat) (target : Nat) (code : List Inst) : List Inst :=
  jumps.foldl (fun patched jump => patched.set jump (.jump target)) code

theorem patchJumps_eq (jumps : List Nat) (code : List Inst) :
    patchJumps jumps code = setJumps jumps code.length code := rfl

theorem setJumps_append {jumps : List Nat} {target : Nat}
    (h : ∀ jump ∈ jumps, jump < code.length) :
    setJumps jumps target (code ++ block) = setJumps jumps target code ++ block := by
  induction jumps generalizing code with
  | nil => rfl
  | cons jump jumps ih =>
    obtain ⟨hjump, hjumps⟩ := List.forall_mem_cons.mp h
    have hrest : ∀ j ∈ jumps, j < (code.set jump (.jump target)).length := by simpa using hjumps
    rw [setJumps, setJumps, List.foldl_cons, List.foldl_cons, List.set_append_left _ _ hjump]
    exact ih hrest

theorem setJumps_length {jumps : List Nat} {target : Nat} :
    (setJumps jumps target code).length = code.length := by
  induction jumps generalizing code with
  | nil => rfl
  | cons jump jumps ih =>
    rw [setJumps, List.foldl_cons]
    exact ih.trans (List.length_set ..)

theorem setJumps_concat {jumps : List Nat} {jump target : Nat} :
    setJumps (jumps ++ [jump]) target code = (setJumps jumps target code).set jump (.jump target) := by
  rw [setJumps, List.foldl_append]
  rfl

theorem patchSecond_eq {first second : Nat} :
    patchSecond code.length (code ++ .split first second :: block)
      = code ++ .split first (code.length + 1 + block.length) :: block := by
  rw [patchSecond]
  simp [Nat.add_comm, Nat.add_left_comm]

theorem set_behind {inst last patched : Inst} {jump : Nat}
    (h : jump = code.length + 1 + block.length) :
    (code ++ inst :: (block ++ [last])).set jump patched = code ++ inst :: (block ++ [patched]) := by
  have hjump : jump - code.length = block.length + 1 := by omega
  rw [List.set_append_right _ _ (by omega), hjump, List.set_cons_succ,
    List.set_append_right _ _ le_rfl, Nat.sub_self, List.set_cons_zero]

theorem compileBranches_cons {branch branch' : List Inst → List Inst}
    {branches : List (List Inst → List Inst)} {jumps : List Nat}
    (hbranch : branch (code ++ [.split (code.length + 1) 0])
      = code ++ [.split (code.length + 1) 0] ++ block) :
    compileBranches (branch :: branch' :: branches) jumps code
      = compileBranches (branch' :: branches) (jumps ++ [code.length + 1 + block.length])
          (code ++ .split (code.length + 1) (code.length + 1 + block.length + 1)
            :: (block ++ [.jump 0])) := by
  have hjump : (code ++ [Inst.split (code.length + 1) 0] ++ block).length
      = code.length + 1 + block.length := by
    simp
    omega
  have hsplit : code ++ [Inst.split (code.length + 1) 0] ++ block ++ [.jump 0]
      = code ++ .split (code.length + 1) 0 :: (block ++ [.jump 0]) := by simp
  rw [compileBranches]
  · simp only [hbranch]
    rw [hjump, hsplit, patchSecond_eq, List.length_append, List.length_singleton]
    rfl
  · simp

/-- What branches lead to, one after another. -/
def inTurn (bodies : List (State → List State)) (state : State) : List State :=
  bodies.flatMap fun body => body state

/-- The branches, with jumps waiting for their end. -/
theorem compileBranches_block {branches : List (List Inst → List Inst)}
    {bodies : List (State → List State)} (h : List.Forall₂ (Compiles context) branches bodies)
    (hne : branches ≠ []) (start : Nat) :
    ∃ block, (∀ code jumps, code.length = start → (∀ jump ∈ jumps, jump < start) →
        compileBranches branches jumps code = setJumps jumps (start + block.length) code ++ block) ∧
      ∀ code, Placed code block start →
        Runs context code start (start + block.length) (inTurn bodies) := by
  induction h generalizing start with
  | nil => contradiction
  | @cons branch body branches bodies hbranch hbranches ih =>
    cases hbranches with
    | nil =>
      obtain ⟨block, hcode, hrun⟩ := hbranch.block start
      refine ⟨block, fun code jumps hlen hjumps => ?_, fun code hplaced => ?_⟩
      · subst hlen
        rw [compileBranches, patchJumps_eq, hcode code rfl, List.length_append, setJumps_append hjumps]
      · exact (hrun code hplaced).congr fun s _ => by simp [inTurn]
    | @cons branch' body' branches bodies hbranch' hbranches =>
      obtain ⟨block, hcode, hrun⟩ := hbranch.block (start + 1)
      obtain ⟨block', hcode', hrun'⟩ := ih (by simp) (start + 1 + block.length + 1)
      refine ⟨.split (start + 1) (start + 1 + block.length + 1) ::
        (block ++ .jump (start + 1 + block.length + 1 + block'.length) :: block'), ?_, ?_⟩
      · intro code jumps hlen hjumps
        subst hlen
        have hbody : branch (code ++ [.split (code.length + 1) 0])
            = code ++ [.split (code.length + 1) 0] ++ block := hcode _ (by simp)
        have hlength : (code ++ Inst.split (code.length + 1) (code.length + 1 + block.length + 1)
            :: (block ++ [.jump 0])).length = code.length + 1 + block.length + 1 := by
          simp
          omega
        have hpending : ∀ jump ∈ jumps ++ [code.length + 1 + block.length],
            jump < code.length + 1 + block.length + 1 := by
          intro jump hmem
          rcases List.mem_append.mp hmem with hmem | hmem
          · have := hjumps jump hmem
            omega
          · rw [List.mem_singleton.mp hmem]
            omega
        have hend : code.length + (block.length + (block'.length + 1) + 1)
            = code.length + 1 + block.length + 1 + block'.length := by omega
        rw [compileBranches_cons hbody, hcode' _ _ hlength hpending, setJumps_concat,
          setJumps_append hjumps, List.length_cons, List.length_append, List.length_cons, hend,
          set_behind (by rw [setJumps_length]), List.append_assoc, List.cons_append,
          List.append_assoc]
        rfl
      · intro code hplaced
        have hend : start + (block.length + (block'.length + 1) + 1)
            = start + 1 + block.length + 1 + block'.length := by omega
        rw [List.length_cons, List.length_append, List.length_cons, hend]
        have hjump := hplaced.tail.right.head
        have hrest := hrun' code hplaced.tail.right.tail
        exact (Runs.split hplaced.head ((hrun code hplaced.tail.left).jump hjump) hrest).congr
          fun s _ => by simp [inTurn]

theorem Compiles.alt {branches : List (List Inst → List Inst)} {bodies : List (State → List State)}
    (h : List.Forall₂ (Compiles context) branches bodies) (hne : branches ≠ []) :
    Compiles context (compileAlt branches) (inTurn bodies) := by
  constructor
  · intro s hs t ht
    obtain ⟨body, hbody, ht⟩ := List.mem_flatMap.mp ht
    obtain ⟨branch, -, hbranch⟩ := OrderedSearch.Graph.exists_of_forall₂ h hbody
    exact hbranch.bounded s hs t ht
  · intro start
    obtain ⟨block, hcode, hrun⟩ := compileBranches_block h hne start
    exact ⟨block, fun code hlen => hcode code [] hlen (by simp), hrun⟩

end Compiling

end Oxvim.Regex.Nfa
