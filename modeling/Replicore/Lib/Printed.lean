import Mathlib.Algebra.Order.Ring.Nat
import Mathlib.Data.List.Basic

/-!
# What a printed text determines

Texts are put together from numbers, literals and lists with separators.  A text determines the
number at its beginning if what follows does not begin with a digit (`toDigits_append_inj`), and a
list printed with a separator if no item has the separator in it (`intercalate_inj`).  The digits
of a number, `k` of them in base `b`, determine the number (`eq_of_digits`).
-/

namespace Printed

variable {α : Type*}

/-- A run of items of one kind, before one that is not of that kind, is determined by the text that
it begins. -/
theorem append_inj_of_run {p : α → Prop} {x y s t : List α} {a b : α} (hx : ∀ c ∈ x, p c)
    (hy : ∀ c ∈ y, p c) (ha : ¬ p a) (hb : ¬ p b) (h : x ++ a :: s = y ++ b :: t) :
    x = y ∧ a :: s = b :: t := by
  induction x generalizing y with
  | nil =>
    cases y with
    | nil => exact ⟨rfl, h⟩
    | cons c y =>
      obtain ⟨rfl, -⟩ := List.cons.inj h
      exact absurd (hy a List.mem_cons_self) ha
  | cons c x ih =>
    cases y with
    | nil =>
      obtain ⟨rfl, -⟩ := List.cons.inj h
      exact absurd (hx c List.mem_cons_self) hb
    | cons c' y =>
      obtain ⟨rfl, htail⟩ := List.cons.inj h
      obtain ⟨rfl, hrest⟩ := ih (fun d hd => hx d (List.mem_cons_of_mem _ hd))
        (fun d hd => hy d (List.mem_cons_of_mem _ hd)) htail
      exact ⟨rfl, hrest⟩

/-- Lists without the separator in any item are determined by their text. -/
theorem intercalate_inj [DecidableEq α] {c : α} {xs ys : List (List α)} (hx : ∀ l ∈ xs, c ∉ l)
    (hy : ∀ l ∈ ys, c ∉ l) (hxs : xs ≠ []) (hys : ys ≠ [])
    (h : [c].intercalate xs = [c].intercalate ys) : xs = ys := by
  rw [← List.splitOn_intercalate c hx hxs, h, List.splitOn_intercalate c hy hys]

/-- Only the empty list has no text, if no item is empty. -/
theorem intercalate_ne_nil {sep : List α} {xs : List (List α)} (hx : ∀ l ∈ xs, l ≠ [])
    (hxs : xs ≠ []) : sep.intercalate xs ≠ [] := by
  cases xs with
  | nil => exact absurd rfl hxs
  | cons l xs =>
    have hl : l ≠ [] := hx l List.mem_cons_self
    cases xs with
    | nil => rwa [List.intercalate_singleton]
    | cons l' xs =>
      rw [List.intercalate_cons_cons, List.append_assoc]
      exact List.append_ne_nil_of_left_ne_nil hl _

theorem intercalate_append {sep : List α} {xs ys : List (List α)} (hxs : xs ≠ []) (hys : ys ≠ []) :
    sep.intercalate (xs ++ ys) = sep.intercalate xs ++ sep ++ sep.intercalate ys := by
  induction xs with
  | nil => exact absurd rfl hxs
  | cons l xs ih =>
    cases xs with
    | nil => rw [List.singleton_append, List.intercalate_cons_of_ne_nil hys,
        List.intercalate_singleton]
    | cons l' xs =>
      have hne : l' :: xs ++ ys ≠ [] := List.cons_ne_nil _ _
      rw [List.cons_append, List.intercalate_cons_of_ne_nil hne, ih (List.cons_ne_nil _ _),
        List.intercalate_cons_cons]
      simp only [List.append_assoc]

/-- What is in a list with separators. -/
theorem mem_of_mem_intercalate {sep : List α} {xs : List (List α)} {c : α}
    (h : c ∈ sep.intercalate xs) : c ∈ sep ∨ ∃ l ∈ xs, c ∈ l := by
  induction xs with
  | nil => cases h
  | cons l xs ih =>
    cases xs with
    | nil =>
      rw [List.intercalate_singleton] at h
      exact .inr ⟨l, List.mem_cons_self, h⟩
    | cons l' xs =>
      rw [List.intercalate_cons_cons, List.mem_append, List.mem_append] at h
      obtain (h | h) | h := h
      · exact .inr ⟨l, List.mem_cons_self, h⟩
      · exact .inl h
      · exact (ih h).imp_right fun ⟨m, hm, hc⟩ => ⟨m, List.mem_cons_of_mem _ hm, hc⟩

/-! ### Numbers -/

/-- The digits, in any base up to 16. -/
def digitChars : List Char := "0123456789abcdef".toList

variable {b m n : ℕ} {s t : List Char}

theorem digitChar_mem (h : n < 16) : n.digitChar ∈ digitChars := by
  have hall : ∀ i : Fin 16, i.val.digitChar ∈ digitChars := by decide
  exact hall ⟨n, h⟩

theorem digitChar_inj (hm : m < 16) (hn : n < 16) (h : m.digitChar = n.digitChar) : m = n := by
  have hall : ∀ i j : Fin 16, i.val.digitChar = j.val.digitChar → i = j := by decide
  exact Fin.mk.inj (hall ⟨m, hm⟩ ⟨n, hn⟩ h)

theorem mem_digitChars_of_mem_toDigits (hb : 1 < b) (hb' : b ≤ 16) {c : Char}
    (h : c ∈ Nat.toDigits b n) : c ∈ digitChars := by
  induction n using Nat.strong_induction_on with
  | h n ih =>
    by_cases hn : n < b
    · rw [Nat.toDigits_of_lt_base hn, List.mem_singleton] at h
      exact h ▸ digitChar_mem (hn.trans_le hb')
    · rw [Nat.toDigits_of_base_le hb (not_lt.1 hn), List.mem_append, List.mem_singleton] at h
      obtain h | rfl := h
      · exact ih _ (Nat.div_lt_self (by omega) hb) h
      · exact digitChar_mem ((Nat.mod_lt n (by omega)).trans_le hb')

theorem toDigits_injective (hb : 1 < b) (hb' : b ≤ 16) : Function.Injective (Nat.toDigits b) := by
  intro m
  induction m using Nat.strong_induction_on with
  | h m ih =>
    intro n h
    rw [Nat.toDigits_eq_if hb, Nat.toDigits_eq_if hb (n := n)] at h
    split_ifs at h with hm hn hn
    · exact digitChar_inj (hm.trans_le hb') (hn.trans_le hb') (List.singleton_inj.1 h)
    · have hone : [] ++ [m.digitChar] = Nat.toDigits b (n / b) ++ [(n % b).digitChar] := h
      exact absurd (List.append_inj' hone rfl).1.symm Nat.toDigits_ne_nil
    · have hone : Nat.toDigits b (m / b) ++ [(m % b).digitChar] = [] ++ [n.digitChar] := h
      exact absurd (List.append_inj' hone rfl).1 Nat.toDigits_ne_nil
    · obtain ⟨hdiv, hmod⟩ := List.append_inj' h rfl
      have hquot : m / b = n / b := ih _ (Nat.div_lt_self (by omega) hb) hdiv
      have hrem : m % b = n % b := digitChar_inj ((Nat.mod_lt m (by omega)).trans_le hb')
        ((Nat.mod_lt n (by omega)).trans_le hb') (List.singleton_inj.1 hmod)
      rw [← Nat.div_add_mod m b, ← Nat.div_add_mod n b, hquot, hrem]

/-- A number is determined by a text that it begins, if no digit follows. -/
theorem toDigits_append_inj (hb : 1 < b) (hb' : b ≤ 16) {c d : Char} (hc : c ∉ digitChars)
    (hd : d ∉ digitChars) (h : Nat.toDigits b m ++ c :: s = Nat.toDigits b n ++ d :: t) :
    m = n ∧ c :: s = d :: t := by
  obtain ⟨hdigits, hrest⟩ := append_inj_of_run
    (fun _ => mem_digitChars_of_mem_toDigits hb hb')
    (fun _ => mem_digitChars_of_mem_toDigits hb hb') hc hd h
  exact ⟨toDigits_injective hb hb' hdigits, hrest⟩

/-- The last `k` digits of two numbers of at most `k` digits. -/
theorem eq_of_digits (k : ℕ) (hm : m < b ^ k) (hn : n < b ^ k)
    (h : ∀ i < k, m / b ^ i % b = n / b ^ i % b) : m = n := by
  induction k generalizing m n with
  | zero =>
    rw [pow_zero, Nat.lt_one_iff] at hm hn
    rw [hm, hn]
  | succ k ih =>
    have hquot : m / b = n / b := by
      refine ih (Nat.div_lt_of_lt_mul (by rwa [pow_succ, mul_comm] at hm))
        (Nat.div_lt_of_lt_mul (by rwa [pow_succ, mul_comm] at hn)) fun i hi => ?_
      have hdigit := h (i + 1) (by omega)
      rwa [pow_succ, mul_comm, ← Nat.div_div_eq_div_mul, ← Nat.div_div_eq_div_mul] at hdigit
    have hrem : m % b = n % b := by simpa using h 0 (by omega)
    rw [← Nat.div_add_mod m b, ← Nat.div_add_mod n b, hquot, hrem]

end Printed
