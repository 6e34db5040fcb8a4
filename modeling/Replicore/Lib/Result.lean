import Mathlib.Data.List.Basic

/-!
# Computations that may fail

A computation in `Except` that ends well, taken apart: a sequence into its steps
(`Result.exists_of_bind_eq_ok`), and a loop over a list by an invariant of what has been seen so far
(`Result.foldlM_invariant`); and a map over a list that ends well everywhere (`Result.mapM_ok`).
-/

namespace Result

universe u v

variable {ε : Type v} {α β : Type u}

/-- A sequence that ends well, step by step. -/
theorem exists_of_bind_eq_ok {x : Except ε α} {f : α → Except ε β} {b : β}
    (h : x >>= f = .ok b) : ∃ a, x = .ok a ∧ f a = .ok b := by
  cases x with
  | error e => cases h
  | ok a => exact ⟨a, rfl, h⟩

/-- A loop that ends well: what each round keeps holds at the end. -/
theorem foldlM_invariant {f : β → α → Except ε β} {xs : List α} {b b' : β}
    (h : xs.foldlM f b = .ok b') {I : List α → β → Prop} (h₀ : I [] b)
    (hstep : ∀ seen x b b', x ∈ xs → I seen b → f b x = .ok b' → I (seen ++ [x]) b') :
    I xs b' := by
  have hloop : ∀ (rest seen : List α) (b : β), (∀ x ∈ rest, x ∈ xs) → I seen b →
      rest.foldlM f b = .ok b' → I (seen ++ rest) b' := by
    intro rest
    induction rest with
    | nil =>
      intro seen b _ hI hrun
      cases hrun
      simpa using hI
    | cons x rest ih =>
      intro seen b hmem hI hrun
      rw [List.foldlM_cons] at hrun
      obtain ⟨b₁, hx, hrun⟩ := exists_of_bind_eq_ok hrun
      have hnext := ih (seen ++ [x]) b₁ (fun y hy => hmem y (List.mem_cons_of_mem _ hy))
        (hstep seen x b b₁ (hmem x List.mem_cons_self) hI hx) hrun
      simpa using hnext
  simpa using hloop xs [] b (fun _ hx => hx) h₀ h

/-- A map over a list that fails nowhere. -/
theorem mapM_ok {f : α → Except ε β} {g : α → β} {xs : List α}
    (h : ∀ x ∈ xs, f x = .ok (g x)) : xs.mapM f = .ok (xs.map g) := by
  induction xs with
  | nil => rfl
  | cons x xs ih =>
    rw [List.mapM_cons, h x List.mem_cons_self, ih fun y hy => h y (List.mem_cons_of_mem _ hy)]
    rfl

end Result
