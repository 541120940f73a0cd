import Mathlib

/-!
# Running programs with state and errors

A method that takes `&mut self` and returns a `Result` is a program in `EStateM ε σ`: it ends with a
value or an error, and in both cases with a state, so that what a failing call has already changed
stays visible. The lemmas here run such a program on a concrete state one step at a time.

`Preserves` says that a program keeps a property of the state, with a value and with an error.
`zoom` runs a program on one component of a larger state. A `collect` into a `Result` is a `mapM` in
`Except`.
-/

namespace Lib.EState

universe u

variable {ε ε' σ τ α β γ : Type u}

@[simp] theorem pure_run (a : α) (s : σ) : (pure a : EStateM ε σ α) s = .ok a s := rfl

@[simp] theorem get_run (s : σ) : (get : EStateM ε σ σ) s = .ok s s := rfl

@[simp] theorem set_run (t s : σ) : (set t : EStateM ε σ PUnit) s = .ok ⟨⟩ t := rfl

@[simp] theorem modify_run (f : σ → σ) (s : σ) :
    (modify f : EStateM ε σ PUnit) s = .ok ⟨⟩ (f s) := rfl

@[simp] theorem throw_run (e : ε) (s : σ) : (throw e : EStateM ε σ α) s = .error e s := rfl

theorem bind_run (x : EStateM ε σ α) (f : α → EStateM ε σ β) (s : σ) :
    (x >>= f) s = match x s with
      | .ok a t => f a t
      | .error e t => .error e t := rfl

theorem bind_ok {x : EStateM ε σ α} {f : α → EStateM ε σ β} {s t : σ} {a : α}
    (h : x s = .ok a t) : (x >>= f) s = f a t := by
  rw [bind_run, h]

theorem bind_error {x : EStateM ε σ α} {f : α → EStateM ε σ β} {s t : σ} {e : ε}
    (h : x s = .error e t) : (x >>= f) s = .error e t := by
  rw [bind_run, h]

theorem map_run (f : α → β) (x : EStateM ε σ α) (s : σ) :
    (f <$> x) s = match x s with
      | .ok a t => .ok (f a) t
      | .error e t => .error e t := rfl

@[simp] theorem ofExcept_ok_run (a : α) (s : σ) :
    (MonadExcept.ofExcept (.ok a : Except ε α) : EStateM ε σ α) s = .ok a s := rfl

@[simp] theorem ofExcept_error_run (e : ε) (s : σ) :
    (MonadExcept.ofExcept (.error e : Except ε α) : EStateM ε σ α) s = .error e s := rfl

/-- A successful sequence of lookups splits into two. -/
theorem of_except_bind {x : Except ε α} {f : α → Except ε β} {b : β} (h : (x >>= f) = .ok b) :
    ∃ a, x = .ok a ∧ f a = .ok b := by
  cases x with
  | error e => cases h
  | ok a => exact ⟨a, rfl, h⟩

theorem except_map_eq_ok {x : Except ε α} {f : α → β} {b : β} :
    x.map f = .ok b ↔ ∃ a, x = .ok a ∧ f a = b := by
  cases x with
  | error e => simp [Except.map]
  | ok a => simp [Except.map]

theorem except_bind_eq_ok {x : Except ε α} {f : α → Except ε β} {b : β} :
    x.bind f = .ok b ↔ ∃ a, x = .ok a ∧ f a = .ok b := by
  cases x with
  | error e => simp [Except.bind]
  | ok a => simp [Except.bind]

/-- The state a program ends in, with a value or with an error. -/
def final : EStateM.Result ε σ α → σ
  | .ok _ s => s
  | .error _ s => s

@[simp] theorem final_ok (a : α) (s : σ) : final (.ok a s : EStateM.Result ε σ α) = s := rfl

@[simp] theorem final_error (e : ε) (s : σ) : final (.error e s : EStateM.Result ε σ α) = s := rfl

/-- Returning a value changes nothing. -/
theorem final_return (x : EStateM ε σ α) (b : β) (s : σ) :
    final ((x >>= fun _ => (pure b : EStateM ε σ β)) s) = final (x s) := by
  rw [bind_run]
  cases x s with
  | ok a t => rfl
  | error e t => rfl

theorem final_bind_return (x : EStateM ε σ α) (y : EStateM ε σ β) (c : γ) (s : σ) :
    final ((x >>= fun _ => y >>= fun _ => (pure c : EStateM ε σ γ)) s)
      = final ((x >>= fun _ => y) s) := by
  rw [← bind_assoc]
  exact final_return _ c s

/-- The program keeps `P`, whether it returns or fails. -/
def Preserves (P : σ → Prop) (x : EStateM ε σ α) : Prop := ∀ s, P s → P (final (x s))

section Preserves

variable {P : σ → Prop} {x : EStateM ε σ α} {f : α → EStateM ε σ β}

theorem preserves_pure (a : α) : Preserves P (pure a : EStateM ε σ α) := fun _ h => h

theorem preserves_throw (e : ε) : Preserves P (throw e : EStateM ε σ α) := fun _ h => h

theorem preserves_ofExcept (r : Except ε α) :
    Preserves P (MonadExcept.ofExcept r : EStateM ε σ α) := by
  intro s h
  cases r with
  | error e => exact h
  | ok a => exact h

theorem preserves_set {t : σ} (h : P t) : Preserves P (set t : EStateM ε σ PUnit) := fun _ _ => h

theorem preserves_modify {f : σ → σ} (h : ∀ s, P s → P (f s)) :
    Preserves P (modify f : EStateM ε σ PUnit) := h

theorem Preserves.bind (hx : Preserves P x) (hf : ∀ a, Preserves P (f a)) :
    Preserves P (x >>= f) := by
  intro s h
  have hs := hx s h
  rw [bind_run]
  cases hrun : x s with
  | ok a t =>
    rw [hrun] at hs
    exact hf a t hs
  | error e t =>
    rw [hrun] at hs
    exact hs

/-- What is read is the state, so that `P` holds of it. -/
theorem preserves_get_bind {g : σ → EStateM ε σ β} (h : ∀ s, P s → Preserves P (g s)) :
    Preserves P (get >>= g) :=
  fun s hs => h s hs s hs

end Preserves

/-- Runs an update that can fail, in which case the state stays. -/
def attempt (f : σ → Except ε σ) : EStateM ε σ PUnit :=
  fun s => match f s with
    | .ok t => .ok ⟨⟩ t
    | .error e => .error e s

theorem attempt_ok {f : σ → Except ε σ} {s t : σ} (h : f s = .ok t) :
    attempt f s = .ok ⟨⟩ t := by
  simp only [attempt, h]

theorem attempt_error {f : σ → Except ε σ} {s : σ} {e : ε} (h : f s = .error e) :
    attempt f s = .error e s := by
  simp only [attempt, h]

/-- Updates one after another are a fold. -/
theorem forM_attempt_ok {f : σ → α → Except ε σ} {as : List α} {s t : σ}
    (h : as.foldlM f s = .ok t) : (as.forM fun a => attempt fun s => f s a) s = .ok ⟨⟩ t := by
  induction as generalizing s with
  | nil => exact congrArg _ (Except.ok.inj h)
  | cons a as ih =>
    rw [List.foldlM_cons] at h
    obtain ⟨next, hnext, hrest⟩ := of_except_bind h
    rw [List.forM, bind_ok (attempt_ok hnext)]
    exact ih hrest

/-- Runs a program on the component that `view` reads and `update` writes. -/
def zoom (view : τ → σ) (update : σ → τ → τ) (lift : ε → ε') (x : EStateM ε σ α) :
    EStateM ε' τ α :=
  fun t => match x (view t) with
    | .ok a s => .ok a (update s t)
    | .error e s => .error (lift e) (update s t)

theorem zoom_ok {v : τ → σ} {update : σ → τ → τ} {lift : ε → ε'} {x : EStateM ε σ α} {t : τ}
    {a : α} {s : σ} (h : x (v t) = .ok a s) :
    zoom v update lift x t = .ok a (update s t) := by
  simp only [zoom, h]

theorem zoom_error {v : τ → σ} {update : σ → τ → τ} {lift : ε → ε'} {x : EStateM ε σ α} {t : τ}
    {e : ε} {s : σ} (h : x (v t) = .error e s) :
    zoom v update lift x t = .error (lift e) (update s t) := by
  simp only [zoom, h]

/-- Collecting succeeds when every element does, in order. -/
theorem mapM_ok_iff {f : α → Except ε β} {as : List α} {bs : List β} :
    as.mapM f = .ok bs ↔ List.Forall₂ (fun a b => f a = .ok b) as bs := by
  induction as generalizing bs with
  | nil =>
    rw [List.mapM_nil, List.forall₂_nil_left_iff]
    exact ⟨fun h => (Except.ok.inj h).symm, fun h => h ▸ rfl⟩
  | cons a as ih =>
    rw [List.mapM_cons]
    constructor
    · intro h
      cases hb : f a with
      | error e =>
        rw [hb] at h
        cases h
      | ok b =>
        cases hbs : as.mapM f with
        | error e =>
          rw [hb, hbs] at h
          cases h
        | ok bs' =>
          rw [hb, hbs] at h
          cases h
          exact .cons hb (ih.mp hbs)
    · rintro (_ | ⟨hb, hbs⟩)
      rw [hb, ih.mpr hbs]
      rfl

end Lib.EState
