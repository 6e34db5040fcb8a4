import Mathlib.Data.List.Basic
import Replicore.Lib.Result

/-!
# Running a list of steps again

A list of steps is run from its beginning whenever a run of it was broken off, as at every start of
a program.  `Redo` is what makes this safe: the steps lead from every state to a goal, and whichever
of them is carried out, the goal stays the same.

* `Redo.rerun` : a run after any number of broken-off ones ends in the goal of the first state;
* `Redo.again` : a run after a complete one changes nothing.
-/

namespace Rerun

universe u v

variable {S T : Type u} {ε : Type v}

/-- The steps in order, until one fails. -/
def runAll (exec : T → S → Except ε S) (steps : List T) (s : S) : Except ε S :=
  steps.foldlM (fun s t => exec t s) s

/-- What is left by runs of which each was broken off after some step. -/
inductive Interrupted (exec : T → S → Except ε S) (steps : List T) (s : S) : S → Prop
  | none : Interrupted exec steps s s
  | again {s₁ s₂ : S} {done : List T} (h : Interrupted exec steps s s₁) (hpre : done <+: steps)
      (hrun : runAll exec done s₁ = .ok s₂) : Interrupted exec steps s s₂

variable {exec : T → S → Except ε S} {steps done : List T} {s s₁ : S}

@[simp] theorem runAll_nil (exec : T → S → Except ε S) (s : S) : runAll exec [] s = .ok s := rfl

theorem runAll_cons_of_ok {t : T} (h : exec t s = .ok s₁) (steps : List T) :
    runAll exec (t :: steps) s = runAll exec steps s₁ := by
  rw [runAll, List.foldlM_cons, h]
  rfl

theorem runAll_append_of_ok (h : runAll exec steps s = .ok s₁) (rest : List T) :
    runAll exec (steps ++ rest) s = runAll exec rest s₁ := by
  unfold runAll at h ⊢
  rw [List.foldlM_append, h]
  rfl

/-- The steps lead to a goal, and each of them keeps it. -/
structure Redo (exec : T → S → Except ε S) (steps : List T) (goal : S → S) : Prop where
  reaches : ∀ s, runAll exec steps s = .ok (goal s)
  keeps : ∀ t ∈ steps, ∀ s s', exec t s = .ok s' → goal s' = goal s

namespace Redo

variable {goal : S → S}

/-- A run of some of the steps keeps the goal. -/
theorem keeps_runAll (h : Redo exec steps goal) (hdone : done ⊆ steps)
    (hrun : runAll exec done s = .ok s₁) : goal s₁ = goal s := by
  refine Result.foldlM_invariant hrun (I := fun _ s₂ => goal s₂ = goal s) rfl ?_
  intro seen t s₂ s₃ ht hsame hexec
  exact (h.keeps t (hdone ht) s₂ s₃ hexec).trans hsame

/-- A run after any number of broken-off ones ends in the goal of the first state. -/
theorem rerun (h : Redo exec steps goal) (hs : Interrupted exec steps s s₁) :
    runAll exec steps s₁ = .ok (goal s) := by
  have hsame : goal s₁ = goal s := by
    induction hs with
    | none => rfl
    | again _ hpre hrun ih => exact (h.keeps_runAll hpre.subset hrun).trans ih
  rw [h.reaches, hsame]

/-- A run after a complete one changes nothing. -/
theorem again (h : Redo exec steps goal) (s : S) : runAll exec steps (goal s) = .ok (goal s) := by
  rw [h.reaches, h.keeps_runAll (List.Subset.refl steps) (h.reaches s)]

end Redo

end Rerun
