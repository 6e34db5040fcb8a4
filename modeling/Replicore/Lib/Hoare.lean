import Mathlib.Data.Nat.Notation
import Mathlib.Logic.Basic

/-!
# Programs with a state and errors

Rules of pre- and postconditions for `EStateM ε σ`: a computation that may fail and keeps what it
did to the state before it failed.  `Triple P m Q E` says that `m`, started where `P` holds, ends
with a value in `Q` or with an error in `E`.

Beside the rules of the monad there are those of the three ways in which a program looks at the
outcome of a part of it: as a value (`attempt`), for its error (`mapError`), and to clean up
(`onError`).  A loop is `iterate`, whose rule takes an invariant and a measure (`Triple.iterate`).
`Keeps I m` says that `m` keeps an assertion whatever comes of it, and `EndsAs m x` that it ends as
`x` whatever the state.
-/

namespace Hoare

universe u

variable {ε ε' σ α β : Type u}

/-- Started in `P`, the computation ends well in `Q` or fails in `E`. -/
def Triple (P : σ → Prop) (m : EStateM ε σ α) (Q : α → σ → Prop) (E : ε → σ → Prop) : Prop :=
  ∀ s, P s →
    match m s with
    | .ok a s' => Q a s'
    | .error e s' => E e s'

/-- How a run ended, without the state. -/
def outcome : EStateM.Result ε σ α → Except ε α
  | .ok a _ => .ok a
  | .error e _ => .error e

/-- The state a run ended in. -/
def final : EStateM.Result ε σ α → σ
  | .ok _ s => s
  | .error _ s => s

/-- The outcome as a value. -/
def attempt (m : EStateM ε σ α) : EStateM ε' σ (Except ε α) := fun s =>
  match m s with
  | .ok a s' => .ok (.ok a) s'
  | .error e s' => .ok (.error e) s'

/-- The errors translated. -/
def mapError (f : ε → ε') (m : EStateM ε σ α) : EStateM ε' σ α := fun s =>
  match m s with
  | .ok a s' => .ok a s'
  | .error e s' => .error (f e) s'

/-- Clean up after an error, whatever comes of that. -/
def onError {ε₂ : Type u} (m : EStateM ε σ α) (cleanup : EStateM ε₂ σ PUnit) : EStateM ε σ α :=
  fun s =>
    match m s with
    | .ok a s' => .ok a s'
    | .error e s' =>
      match cleanup s' with
      | .ok _ s'' => .error e s''
      | .error _ s'' => .error e s''

/-- A loop with a bound on its rounds: in each of them the body goes on with a new loop state or
ends the loop.  `out` is the error of a loop that has used up its rounds. -/
def iterate (out : ε) (body : α → EStateM ε σ (α ⊕ β)) : ℕ → α → EStateM ε σ β
  | 0, _ => throw out
  | k + 1, a => body a >>= fun r =>
    match r with
    | .inl a' => iterate out body k a'
    | .inr b => pure b

namespace Triple

variable {P P' : σ → Prop} {Q Q' : α → σ → Prop} {E E' : ε → σ → Prop} {m : EStateM ε σ α}

theorem conseq (h : Triple P m Q E) (hP : ∀ s, P' s → P s) (hQ : ∀ a s, Q a s → Q' a s)
    (hE : ∀ e s, E e s → E' e s) : Triple P' m Q' E' := by
  intro s hs
  have hrun := h s (hP s hs)
  cases hm : m s with
  | ok a s' => rw [hm] at hrun; exact hQ a s' hrun
  | error e s' => rw [hm] at hrun; exact hE e s' hrun

theorem pre (h : Triple P m Q E) (hP : ∀ s, P' s → P s) : Triple P' m Q E :=
  h.conseq hP (fun _ _ hq => hq) fun _ _ he => he

theorem post (h : Triple P m Q E) (hQ : ∀ a s, Q a s → Q' a s) : Triple P m Q' E :=
  h.conseq (fun _ hp => hp) hQ fun _ _ he => he

theorem pure {a : α} : Triple (Q a) (Pure.pure a) Q E := fun _ hs => hs

theorem throw {e : ε} : Triple (E e) (MonadExcept.throw e : EStateM ε σ α) Q E := fun _ hs => hs

theorem bind {R : β → σ → Prop} {f : α → EStateM ε σ β} (h : Triple P m Q E)
    (hf : ∀ a, Triple (Q a) (f a) R E) : Triple P (m >>= f) R E := by
  intro s hs
  have hrun := h s hs
  change match EStateM.bind m f s with
    | .ok b s' => R b s'
    | .error e s' => E e s'
  unfold EStateM.bind
  cases hm : m s with
  | ok a s' => rw [hm] at hrun; exact hf a s' hrun
  | error e s' => rw [hm] at hrun; exact hrun

theorem ofExcept {x : Except ε α} :
    Triple P (MonadExcept.ofExcept x : EStateM ε σ α) (fun a s => x = .ok a ∧ P s) fun _ => P := by
  intro s hs
  cases x with
  | ok a => exact ⟨rfl, hs⟩
  | error e => exact hs

/-- A loop over a list, by what holds of what has been seen so far. -/
theorem foldlM {f : β → α → EStateM ε σ β} {I : List α → β → σ → Prop} {xs : List α} {b : β}
    (hstep : ∀ seen x rest b, seen ++ x :: rest = xs →
      Triple (I seen b) (f b x) (fun b' s => I (seen ++ [x]) b' s) E) :
    Triple (I [] b) (xs.foldlM f b) (fun b' s => I xs b' s) E := by
  have hloop : ∀ (rest seen : List α) (b : β), seen ++ rest = xs →
      Triple (I seen b) (rest.foldlM f b) (fun b' s => I xs b' s) E := by
    intro rest
    induction rest with
    | nil =>
      intro seen b hxs
      rw [List.append_nil] at hxs
      subst hxs
      exact pure
    | cons x rest ih =>
      intro seen b hxs
      rw [List.foldlM_cons]
      refine bind (hstep seen x rest b hxs) fun b' => ih (seen ++ [x]) b' ?_
      rw [List.append_assoc, List.singleton_append, hxs]
  exact hloop xs [] b rfl

/-- A loop that goes on only with a smaller measure ends before its rounds are used up. -/
theorem iterate {out : ε} {body : α → EStateM ε σ (α ⊕ β)} {I : α → σ → Prop} {R : β → σ → Prop}
    (μ : α → ℕ)
    (hbody : ∀ a, Triple (I a) (body a) (fun r s =>
      match r with
      | .inl a' => μ a' < μ a ∧ I a' s
      | .inr b => R b s) E)
    {k : ℕ} {a : α} (hk : μ a < k) : Triple (I a) (Hoare.iterate out body k a) R E := by
  induction k generalizing a with
  | zero => exact absurd hk (Nat.not_lt_zero _)
  | succ k ih =>
    refine bind (hbody a) fun r => ?_
    cases r with
    | inl a' =>
      intro s hs
      exact ih (Nat.lt_of_lt_of_le hs.1 (Nat.le_of_lt_succ hk)) s hs.2
    | inr b => exact pure

/-- What holds of no state in particular may be used on the way. -/
theorem of_pre {p : Prop} (h : p → Triple P m Q E) : Triple (fun s => p ∧ P s) m Q E :=
  fun s hs => h hs.1 s hs.2

theorem exists_pre {ι : Type*} {P : ι → σ → Prop} (h : ∀ i, Triple (P i) m Q E) :
    Triple (fun s => ∃ i, P i s) m Q E :=
  fun s ⟨i, hi⟩ => h i s hi

theorem attempt {E' : ε' → σ → Prop} (h : Triple P m Q E) :
    Triple P (Hoare.attempt m : EStateM ε' σ (Except ε α)) (fun r s =>
      match r with
      | .ok a => Q a s
      | .error e => E e s) E' := by
  intro s hs
  have hrun := h s hs
  unfold Hoare.attempt
  cases hm : m s with
  | ok a s' => rw [hm] at hrun; exact hrun
  | error e s' => rw [hm] at hrun; exact hrun

theorem mapError {f : ε → ε'} {E' : ε' → σ → Prop} (h : Triple P m Q E)
    (hE : ∀ e s, E e s → E' (f e) s) : Triple P (Hoare.mapError f m) Q E' := by
  intro s hs
  have hrun := h s hs
  unfold Hoare.mapError
  cases hm : m s with
  | ok a s' => rw [hm] at hrun; exact hrun
  | error e s' => rw [hm] at hrun; exact hE e s' hrun

theorem onError {ε₂ : Type u} {cleanup : EStateM ε₂ σ PUnit} {E₁ : ε → σ → Prop}
    (h : Triple P m Q E₁)
    (hc : ∀ e, Triple (E₁ e) cleanup (fun _ => E e) fun _ => E e) :
    Triple P (Hoare.onError m cleanup) Q E := by
  intro s hs
  have hrun := h s hs
  unfold Hoare.onError
  cases hm : m s with
  | ok a s' => rw [hm] at hrun; exact hrun
  | error e s' =>
    rw [hm] at hrun
    have hclean := hc e s' hrun
    dsimp only
    cases hcl : cleanup s' with
    | ok _ s'' => rw [hcl] at hclean; exact hclean
    | error _ s'' => rw [hcl] at hclean; exact hclean

end Triple

/-! ### Outcomes that do not depend on the state -/

/-- Whatever the state, the computation ends as `x`. -/
def EndsAs (m : EStateM ε σ α) (x : Except ε α) : Prop := ∀ s, outcome (m s) = x

namespace EndsAs

theorem pure {a : α} : EndsAs (Pure.pure a : EStateM ε σ α) (.ok a) := fun _ => rfl

theorem ofExcept {x : Except ε α} : EndsAs (MonadExcept.ofExcept x : EStateM ε σ α) x := by
  intro s
  cases x with
  | ok a => rfl
  | error e => rfl

theorem bind {m : EStateM ε σ α} {f : α → EStateM ε σ β} {x : Except ε α} {g : α → Except ε β}
    (h : EndsAs m x) (hf : ∀ a, EndsAs (f a) (g a)) : EndsAs (m >>= f) (x >>= g) := by
  intro s
  have hm := h s
  change outcome (EStateM.bind m f s) = _
  unfold EStateM.bind
  cases hrun : m s with
  | ok a s' =>
    rw [hrun] at hm
    rw [← hm]
    exact hf a s'
  | error e s' =>
    rw [hrun] at hm
    rw [← hm]
    rfl

theorem foldlM {f : β → α → EStateM ε σ β} {g : β → α → Except ε β}
    (h : ∀ b x, EndsAs (f b x) (g b x)) (xs : List α) (b : β) :
    EndsAs (xs.foldlM f b) (xs.foldlM g b) := by
  induction xs generalizing b with
  | nil => exact pure
  | cons x xs ih =>
    rw [List.foldlM_cons, List.foldlM_cons]
    exact bind (h b x) fun b' => ih b'

end EndsAs

/-! ### Invariants -/

/-- The computation keeps an assertion about the state, whether it fails or not. -/
def Keeps (I : σ → Prop) (m : EStateM ε σ α) : Prop := Triple I m (fun _ => I) fun _ => I

namespace Keeps

variable {I : σ → Prop} {m : EStateM ε σ α}

theorem pure {a : α} : Keeps I (Pure.pure a : EStateM ε σ α) :=
  Triple.pure (Q := fun _ => I)

theorem throw {e : ε} : Keeps I (MonadExcept.throw e : EStateM ε σ α) :=
  Triple.throw (E := fun _ => I)

theorem bind {f : α → EStateM ε σ β} (h : Keeps I m) (hf : ∀ a, Keeps I (f a)) :
    Keeps I (m >>= f) :=
  Triple.bind h hf

theorem attempt (h : Keeps I m) : Keeps I (Hoare.attempt m : EStateM ε' σ (Except ε α)) :=
  (Triple.attempt h).post fun r _ hs => by
    cases r with
    | ok a => exact hs
    | error e => exact hs

theorem mapError {f : ε → ε'} (h : Keeps I m) : Keeps I (Hoare.mapError f m) :=
  Triple.mapError h fun _ _ hs => hs

end Keeps

end Hoare
