import Mathlib.Data.List.Basic
import Mathlib.Order.Lattice
import Mathlib.Algebra.Order.Ring.Int

/-!
# Consecutive integers

`Consecutive.after a n` lists the `n` integers that follow `a`.  A list of records numbered that
way can be paged: what comes after a number is a suffix (`filter_eq_drop`), and a page of it is
again numbered consecutively.
-/

namespace Consecutive

/-- The `n` integers after `a`, ascending. -/
def after : ℤ → ℕ → List ℤ
  | _, 0 => []
  | a, n + 1 => (a + 1) :: after (a + 1) n

@[simp] theorem length_after (a : ℤ) (n : ℕ) : (after a n).length = n := by
  induction n generalizing a with
  | zero => rfl
  | succ n ih => simp [after, ih]

theorem after_append_one (a : ℤ) (n : ℕ) : after a n ++ [a + n + 1] = after a (n + 1) := by
  induction n generalizing a with
  | zero => simp [after]
  | succ n ih =>
    have hlast : a + ((n + 1 : ℕ) : ℤ) + 1 = a + 1 + n + 1 := by omega
    rw [after, List.cons_append, hlast, ih, ← after]

theorem mem_after {a x : ℤ} {n : ℕ} : x ∈ after a n ↔ a < x ∧ x ≤ a + n := by
  induction n generalizing a with
  | zero => simp only [after, List.not_mem_nil, false_iff]; omega
  | succ n ih =>
    rw [after, List.mem_cons, ih]
    omega

theorem drop_after (a : ℤ) (n k : ℕ) : (after a n).drop k = after (a + k) (n - k) := by
  induction k generalizing a n with
  | zero => simp
  | succ k ih =>
    cases n with
    | zero => simp [after]
    | succ n =>
      have hk : a + ((k + 1 : ℕ) : ℤ) = a + 1 + k := by omega
      rw [after, List.drop_succ_cons, ih, Nat.add_sub_add_right, hk]

theorem take_after (a : ℤ) (n k : ℕ) : (after a n).take k = after a (min k n) := by
  induction k generalizing a n with
  | zero => simp [after]
  | succ k ih =>
    cases n with
    | zero => simp [after]
    | succ n => rw [after, List.take_succ_cons, ih, ← after, ← Nat.succ_min_succ]

theorem pairwise_after (a : ℤ) (n : ℕ) : (after a n).Pairwise (· < ·) := by
  induction n generalizing a with
  | zero => exact List.Pairwise.nil
  | succ n ih =>
    rw [after, List.pairwise_cons]
    exact ⟨fun x hx => (mem_after.1 hx).1, ih (a + 1)⟩

/-- The largest number of a numbering that starts at 1 is its length. -/
theorem max?_after (n : ℕ) : (after 0 n).max?.getD 0 = n := by
  cases n with
  | zero => rfl
  | succ n =>
    have hmax : (after 0 (n + 1)).max? = some ((n : ℤ) + 1) := by
      rw [List.max?_eq_some_iff]
      refine ⟨mem_after.2 (by omega), fun b hb => ?_⟩
      have := (mem_after.1 hb).2
      omega
    rw [hmax, Option.getD_some]
    omega

variable {α : Type*} {f : α → ℤ} {l : List α} {a b : ℤ} {n : ℕ}

/-- In a consecutive numbering, the records after a number are a suffix. -/
theorem filter_eq_drop (h : l.map f = after b n) :
    l.filter (fun x => a < f x) = l.drop (a - b).toNat := by
  induction l generalizing b n with
  | nil => simp
  | cons x l ih =>
    cases n with
    | zero => simp [after] at h
    | succ n =>
      rw [after, List.map_cons, List.cons.injEq] at h
      obtain ⟨hx, hl⟩ := h
      by_cases hab : a < b + 1
      · -- nothing is dropped: the head and all that follows are above `a`
        have hall : ∀ y ∈ x :: l, a < f y := by
          intro y hy
          rcases List.mem_cons.1 hy with rfl | hy
          · omega
          · have hmem : f y ∈ after (b + 1) n := hl ▸ List.mem_map_of_mem (f := f) hy
            have := (mem_after.1 hmem).1
            omega
        have hzero : (a - b).toNat = 0 := by omega
        rw [hzero, List.drop_zero, List.filter_eq_self]
        simpa using hall
      · have hsucc : (a - b).toNat = (a - (b + 1)).toNat + 1 := by omega
        rw [hsucc, List.drop_succ_cons, List.filter_cons_of_neg (by simp; omega), ih hl]

/-- A page of a consecutive numbering: the records after `a`, at most `k` of them. -/
theorem map_take_drop (h : l.map f = after 0 n) (d k : ℕ) :
    ((l.drop d).take k).map f = after d (min k (n - d)) := by
  rw [List.map_take, List.map_drop, h, drop_after, take_after, zero_add]

/-- A record whose number is within `k` of `a` is on the page of length `k` after `a`. -/
theorem mem_take_drop (h : l.map f = after 0 n) {x : α} (hx : x ∈ l) {d k : ℕ}
    (hd : (d : ℤ) < f x) (hk : f x ≤ d + k) : x ∈ (l.drop d).take k := by
  have hdrop : x ∈ l.drop d := by
    have hfilter := filter_eq_drop (a := d) h
    rw [Int.sub_zero, Int.toNat_natCast] at hfilter
    rw [← hfilter]
    simp [hx, hd]
  rw [← List.take_append_drop k (l.drop d), List.mem_append] at hdrop
  refine hdrop.resolve_right fun hlate => ?_
  -- beyond the page the numbers are too large
  have hmem : f x ∈ (((l.drop d).drop k).map f) := List.mem_map_of_mem hlate
  rw [List.drop_drop, List.map_drop, h, drop_after] at hmem
  have := (mem_after.1 hmem).1
  omega

end Consecutive
