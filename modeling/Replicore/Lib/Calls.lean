import Replicore.Lib.Hoare

/-!
# Programs that call the world

A program with data of its own that calls functions of the world around it, each of which may fail.
The state notes whether a call has failed so far.  A `Prog` never takes that note back, so a run
that ends without it is a run in which every call has succeeded, whatever the program does about
failures.

* `Prog.call` : a call of the world, which can not see or change the data;
* `Prog.optional` : a call that may fail without harm;
* `Prog.noting` : a part of the program whose failure counts as the failure of a call;
* `Prog.own` : a step on the data alone.

`Clean P m Q E` says what `m` does in a run without failed calls.
-/

namespace Calls

open Hoare

universe u

/-- The data of the program, the world, and whether a call has failed. -/
structure Sys (τ σ : Type u) where
  data : τ
  world : σ
  failed : Bool := false

/-- A program that does not forget that a call has failed. -/
structure Prog (ε τ σ α : Type u) where
  run : EStateM ε (Sys τ σ) α
  keeps : Keeps (fun s => s.failed = true) run

namespace Prog

variable {ε τ σ α β : Type u}

instance : Monad (Prog ε τ σ) where
  pure a := ⟨Pure.pure a, Keeps.pure⟩
  bind m f := ⟨m.run >>= fun a => (f a).run, Keeps.bind m.keeps fun a => (f a).keeps⟩

/-- End with an error. -/
def throw (e : ε) : Prog ε τ σ α := ⟨MonadExcept.throw e, Keeps.throw⟩

/-- Run a part only under a condition. -/
def when (c : Prop) [Decidable c] (m : Prog ε τ σ PUnit) : Prog ε τ σ PUnit :=
  if c then m else Pure.pure ⟨⟩

/-- The outcome of a part as a value. -/
def attempt (m : Prog ε τ σ α) : Prog ε τ σ (Except ε α) := ⟨Hoare.attempt m.run, Keeps.attempt m.keeps⟩

/-- A call of the world. -/
def call (c : EStateM ε σ α) : Prog ε τ σ α where
  run s :=
    match c s.world with
    | .ok a w => .ok a { s with world := w }
    | .error e w => .error e { s with world := w, failed := true }
  keeps s hs := by
    dsimp only
    cases c s.world with
    | ok a w => exact hs
    | error e w => rfl

/-- A call of the world that the program does not depend on: a failure is no failure of the run. -/
def optional (c : EStateM ε σ α) : Prog ε τ σ PUnit where
  run s :=
    match c s.world with
    | .ok _ w => .ok ⟨⟩ { s with world := w }
    | .error _ w => .ok ⟨⟩ { s with world := w }
  keeps s hs := by
    dsimp only
    cases c s.world with
    | ok a w => exact hs
    | error e w => exact hs

/-- A part of the program that counts as one call. -/
def noting (m : Prog ε τ σ α) : Prog ε τ σ α where
  run s :=
    match m.run s with
    | .ok a s' => .ok a s'
    | .error e s' => .error e { s' with failed := true }
  keeps s hs := by
    have hrun := m.keeps s hs
    dsimp only
    cases hm : m.run s with
    | ok a s' => rw [hm] at hrun; exact hrun
    | error e s' => rfl

/-- A step on the data, which leaves them as they were if it fails. -/
def own (f : τ → Except ε (α × τ)) : Prog ε τ σ α where
  run s :=
    match f s.data with
    | .ok (a, d) => .ok a { s with data := d }
    | .error e => .error e s
  keeps s hs := by
    dsimp only
    cases f s.data with
    | ok p => exact hs
    | error e => exact hs

/-- Something read off the data. -/
def reading (f : τ → α) : Prog ε τ σ α := own fun d => .ok (f d, d)

/-- The state at the end of a run. -/
def final (m : Prog ε τ σ α) (s : Sys τ σ) : Sys τ σ :=
  match m.run s with
  | .ok _ s' => s'
  | .error _ s' => s'

end Prog

/-! ### Runs without failed calls -/

section

variable {ε τ σ α β : Type u}

/-- What is left of a claim about the data at the end of a run: it holds unless a call has
failed. -/
def Unless (P : τ → Prop) (s : Sys τ σ) : Prop := s.failed = true ∨ P s.data

/-- In a run without failed calls, `m` leads from `P` to `Q`, or to `E` with an error. -/
def Clean (P : τ → Prop) (m : Prog ε τ σ α) (Q : α → τ → Prop) (E : ε → τ → Prop) : Prop :=
  Triple (fun s => P s.data) m.run (fun a => Unless (Q a)) fun e => Unless (E e)

namespace Clean

variable {P P' : τ → Prop} {Q Q' : α → τ → Prop} {E E' : ε → τ → Prop} {m : Prog ε τ σ α}

theorem pre (h : Clean P m Q E) (hP : ∀ d, P' d → P d) : Clean P' m Q E :=
  Triple.pre h fun s hs => hP s.data hs

theorem post (h : Clean P m Q E) (hQ : ∀ a d, Q a d → Q' a d) : Clean P m Q' E :=
  Triple.post h fun a s hs => hs.imp_right (hQ a s.data)

theorem error (h : Clean P m Q E) (hE : ∀ e d, E e d → E' e d) : Clean P m Q E' :=
  h.conseq (fun _ hs => hs) (fun _ _ hq => hq) fun e s hs => hs.imp_right (hE e s.data)

/-- What holds of no state in particular may be used on the way. -/
theorem of_pre {p : Prop} (h : p → Clean P m Q E) : Clean (fun d => p ∧ P d) m Q E :=
  Triple.of_pre h

theorem pure {a : α} (h : ∀ d, P d → Q a d) : Clean P (Pure.pure a : Prog ε τ σ α) Q E :=
  fun s hs => .inr (h s.data hs)

theorem throw {e : ε} (h : ∀ d, P d → E e d) : Clean P (Prog.throw e : Prog ε τ σ α) Q E :=
  fun s hs => .inr (h s.data hs)

theorem bind {R : β → τ → Prop} {f : α → Prog ε τ σ β} (h : Clean P m Q E)
    (hf : ∀ a, Clean (Q a) (f a) R E) : Clean P (m >>= f) R E := by
  refine Triple.bind h fun a s hs => ?_
  rcases hs with hs | hs
  · -- after a failed call, nothing but the note is claimed
    have hkeep := (f a).keeps s hs
    cases hm : (f a).run s with
    | ok b s' => rw [hm] at hkeep; exact .inl hkeep
    | error e s' => rw [hm] at hkeep; exact .inl hkeep
  · exact hf a s hs

theorem when {c : Prop} [Decidable c] {m : Prog ε τ σ PUnit} {Q : PUnit → τ → Prop}
    (h : c → Clean P m Q E) (hnot : ¬ c → ∀ d, P d → Q ⟨⟩ d) : Clean P (Prog.when c m) Q E := by
  unfold Prog.when
  split
  · exact h ‹c›
  · exact pure (hnot ‹¬ c›)

/-- A call of the world leaves the data alone. -/
theorem call {c : EStateM ε σ α} : Clean P (Prog.call c) (fun _ => P) E := by
  intro s hs
  unfold Prog.call
  dsimp only
  cases c s.world with
  | ok a w => exact .inr hs
  | error e w => exact .inl rfl

theorem optional {c : EStateM ε σ α} : Clean P (Prog.optional c) (fun _ => P) E := by
  intro s hs
  unfold Prog.optional
  dsimp only
  cases c s.world with
  | ok a w => exact .inr hs
  | error e w => exact .inr hs

/-- Where a failure counts as the failure of a call, nothing is left to say about it. -/
theorem noting (h : Clean P m Q E') : Clean P m.noting Q E := by
  intro s hs
  have hrun := h s hs
  unfold Prog.noting
  dsimp only
  cases hm : m.run s with
  | ok a s' => rw [hm] at hrun; exact hrun
  | error e s' => exact .inl rfl

theorem own {f : τ → Except ε (α × τ)}
    (hok : ∀ d a d', P d → f d = .ok (a, d') → Q a d')
    (herr : ∀ d e, P d → f d = .error e → E e d) : Clean P (Prog.own f : Prog ε τ σ α) Q E := by
  intro s hs
  unfold Prog.own
  dsimp only
  cases hf : f s.data with
  | ok p => exact .inr (hok s.data p.1 p.2 hs hf)
  | error e => exact .inr (herr s.data e hs hf)

theorem reading {f : τ → α} :
    Clean P (Prog.reading f : Prog ε τ σ α) (fun a d => a = f d ∧ P d) E :=
  fun _ hs => .inr ⟨rfl, hs⟩

theorem attempt (h : Clean P m Q E) :
    Clean P m.attempt (fun r d =>
      match r with
      | .ok a => Q a d
      | .error e => E e d) E' :=
  (Triple.attempt h).post fun r s hs => by
    cases r with
    | ok a => exact hs
    | error e => exact hs

/-- The end of a run without failed calls. -/
theorem final {R : τ → Prop} (h : Clean P m (fun _ => R) fun _ => R) {s : Sys τ σ} (hs : P s.data)
    (hclean : (m.final s).failed = false) : R (m.final s).data := by
  have hrun := h s hs
  unfold Prog.final at hclean ⊢
  cases hm : m.run s with
  | ok a s' =>
    rw [hm] at hrun hclean
    exact hrun.resolve_left (by simp [hclean])
  | error e s' =>
    rw [hm] at hrun hclean
    exact hrun.resolve_left (by simp [hclean])

end Clean

end

end Calls
