import Mathlib.Data.List.Basic
import Mathlib.Tactic.SplitIfs

/-!
# Splitting at the last occurrence

`Text.rsplitOnce c s` splits `s` at its last `c`, as Rust's `rsplit_once` does (and as `rfind`
followed by slicing does).  The two halves determine the string and the split
(`rsplitOnce_eq_some`).  Splitting at every `c` is `List.splitOn`, whose parts are free of `c`
(`not_mem_of_mem_splitOn`).
-/

namespace Text

variable {α : Type*} [DecidableEq α]

/-- The parts of `s` before and after its last `c`. -/
def rsplitOnce (c : α) : List α → Option (List α × List α)
  | [] => none
  | x :: xs =>
    match rsplitOnce c xs with
    | some (a, b) => some (x :: a, b)
    | none => if x = c then some ([], xs) else none

theorem rsplitOnce_eq_none {c : α} {s : List α} : rsplitOnce c s = none ↔ c ∉ s := by
  induction s with
  | nil => simp [rsplitOnce]
  | cons x xs ih =>
    simp only [rsplitOnce, List.mem_cons, not_or]
    cases h : rsplitOnce c xs with
    | some p =>
      have : c ∈ xs := by
        by_contra hc
        rw [ih.2 hc] at h
        cases h
      simp [this]
    | none =>
      have : c ∉ xs := ih.1 h
      by_cases hx : x = c
      · simp [hx]
      · simp [hx, this, Ne.symm hx]

theorem rsplitOnce_append {c : α} {a b : List α} (h : c ∉ b) :
    rsplitOnce c (a ++ c :: b) = some (a, b) := by
  induction a with
  | nil => simp [rsplitOnce, rsplitOnce_eq_none.2 h]
  | cons x a ih => simp [rsplitOnce, ih]

theorem rsplitOnce_eq_some {c : α} {s a b : List α} :
    rsplitOnce c s = some (a, b) ↔ s = a ++ c :: b ∧ c ∉ b := by
  constructor
  · intro h
    induction s generalizing a b with
    | nil => cases h
    | cons x xs ih =>
      simp only [rsplitOnce] at h
      cases hx : rsplitOnce c xs with
      | some p =>
        obtain ⟨a', b'⟩ := p
        rw [hx] at h
        cases h
        obtain ⟨rfl, hb⟩ := ih hx
        exact ⟨rfl, hb⟩
      | none =>
        rw [hx] at h
        simp only at h
        split_ifs at h with hc
        cases h
        exact ⟨by rw [hc]; rfl, rsplitOnce_eq_none.1 hx⟩
  · rintro ⟨rfl, hb⟩
    exact rsplitOnce_append hb

theorem not_mem_of_mem_splitOn {c : α} {s part : List α} (h : part ∈ s.splitOn c) : c ∉ part := by
  induction s generalizing part with
  | nil =>
    obtain rfl : part = [] := by simpa using h
    exact List.not_mem_nil
  | cons x s ih =>
    rw [List.splitOn_cons_eq_if_modifyHead] at h
    split_ifs at h with hx
    · obtain rfl | h := List.mem_cons.1 h
      · exact List.not_mem_nil
      · exact ih h
    · cases hs : s.splitOn c with
      | nil => exact absurd hs (List.splitOn_ne_nil c s)
      | cons first rest =>
        rw [hs, List.modifyHead_cons] at h
        obtain rfl | h := List.mem_cons.1 h
        · have hne : c ≠ x := fun heq => hx (by simp [heq])
          have hfirst : c ∉ first := ih (by rw [hs]; exact List.mem_cons_self)
          simp [hne, hfirst]
        · exact ih (by rw [hs]; exact List.mem_cons_of_mem _ h)

end Text
