import Mathlib.Data.List.Lex
import Mathlib.Order.Lattice
import Replicore.Lib.Text

/-!
# Hierarchical names

Strings whose components are separated by `sep`, such as paths.  `Hier.split` cuts off the last
component and `Hier.join` puts it back; they are inverse to each other on the strings all of whose
components are non-empty (`Hier.Proper`).  The empty string stands for the root.

`Hier.Under sep d p` says that `p` is strictly below `d`: seen from `p`, that is the parent or
above it (`Hier.under_sub`), and seen from `d` there is a first component on the way down
(`Hier.Under.exists_child`).
-/

namespace Hier

variable {α : Type*} {sep : α}

/-- The component `n` in `d`. -/
def join (sep : α) (d n : List α) : List α := if d = [] then n else d ++ sep :: n

/-- One component. -/
def IsName (sep : α) (n : List α) : Prop := n ≠ [] ∧ sep ∉ n

/-- All components are non-empty. -/
inductive Proper (sep : α) : List α → Prop
  | name {n : List α} (hn : IsName sep n) : Proper sep n
  | sub {d n : List α} (hd : Proper sep d) (hn : IsName sep n) : Proper sep (d ++ sep :: n)

/-- A directory: the root, or a proper string. -/
def ProperDir (sep : α) (d : List α) : Prop := d = [] ∨ Proper sep d

/-- Strictly below `d`. -/
def Under (sep : α) (d p : List α) : Prop := d = [] ∨ ∃ rest, p = d ++ sep :: rest

theorem Proper.ne_nil {p : List α} (h : Proper sep p) : p ≠ [] := by
  cases h with
  | name hn => exact hn.1
  | sub hd hn => simp

theorem ProperDir.join {d n : List α} (hd : ProperDir sep d) (hn : IsName sep n) :
    Proper sep (join sep d n) := by
  unfold Hier.join
  split_ifs with h
  · exact .name hn
  · exact .sub (hd.resolve_left h) hn

/-- What is above a component of a proper string. -/
theorem under_sub {a d n : List α} (hn : IsName sep n) (ha : a ≠ []) :
    Under sep a (d ++ sep :: n) ↔ a = d ∨ Under sep a d := by
  constructor
  · rintro (rfl | ⟨rest, heq⟩)
    · exact absurd rfl ha
    · rcases List.append_eq_append_iff.1 heq with ⟨l, rfl, hl⟩ | ⟨l, rfl, hl⟩
      · -- a longer `a` would put a separator into the last component
        cases l with
        | nil => exact .inl (by simp)
        | cons x l =>
          simp only [List.cons_append, List.cons.injEq] at hl
          exact absurd (hl.2 ▸ by simp) hn.2
      · cases l with
        | nil => exact .inl (by simp)
        | cons x l =>
          simp only [List.cons_append, List.cons.injEq] at hl
          obtain ⟨rfl, rfl⟩ := hl
          exact .inr (.inr ⟨l, rfl⟩)
  · rintro (rfl | rfl | ⟨rest, rfl⟩)
    · exact .inr ⟨n, rfl⟩
    · exact absurd rfl ha
    · exact .inr ⟨rest ++ sep :: n, by simp⟩

theorem not_under_name {a n : List α} (hn : IsName sep n) (ha : a ≠ []) : ¬ Under sep a n := by
  rintro (rfl | ⟨rest, rfl⟩)
  · exact ha rfl
  · exact hn.2 (by simp)

/-- A directory above a proper string is proper. -/
theorem Under.proper {a p : List α} (h : Under sep a p) (hp : Proper sep p) (ha : a ≠ []) :
    Proper sep a := by
  induction hp with
  | name hn => exact absurd h (not_under_name hn ha)
  | sub hd hn ih =>
    rcases (under_sub hn ha).1 h with rfl | h
    · exact hd
    · exact ih h

theorem Under.trans {a b c : List α} (h : Under sep a b) (h' : Under sep b c) : Under sep a c := by
  rcases h with rfl | ⟨rest, rfl⟩
  · exact .inl rfl
  · rcases h' with h' | ⟨rest', rfl⟩
    · simp at h'
    · exact .inr ⟨rest ++ sep :: rest', by simp⟩

theorem under_join {d n : List α} : Under sep d (join sep d n) := by
  by_cases hd : d = []
  · exact .inl hd
  · exact .inr ⟨n, if_neg hd⟩

theorem Under.length_lt {a p : List α} (h : Under sep a p) (hp : p ≠ []) :
    a.length < p.length := by
  rcases h with rfl | ⟨rest, rfl⟩
  · exact List.length_pos_iff.2 hp
  · simp

/-- On the way down from `d` to `p` there is a first component. -/
theorem Under.exists_child {d p : List α} (h : Under sep d p) (hp : Proper sep p) :
    ∃ n, IsName sep n ∧ (p = Hier.join sep d n ∨ Under sep (Hier.join sep d n) p) := by
  induction hp with
  | name hn =>
    by_cases hd : d = []
    · exact ⟨_, hn, .inl (by simp [join, hd])⟩
    · exact absurd h (not_under_name hn hd)
  | @sub d' n hd' hn ih =>
    have hdown : Under sep d d' → ∃ m, IsName sep m ∧
        (d' ++ sep :: n = Hier.join sep d m ∨ Under sep (Hier.join sep d m) (d' ++ sep :: n)) := by
      intro hu
      obtain ⟨m, hm, hor⟩ := ih hu
      have hne : Hier.join sep d m ≠ [] := by
        unfold Hier.join
        split_ifs
        · exact hm.1
        · simp
      exact ⟨m, hm, .inr ((under_sub hn hne).2 (hor.imp Eq.symm id))⟩
    by_cases hd : d = []
    · exact hdown (.inl hd)
    · rcases (under_sub hn hd).1 h with rfl | hu
      · exact ⟨n, hn, .inl (by simp [Hier.join, hd])⟩
      · exact hdown hu

/-- A directory comes before what is below it. -/
theorem Under.lt {β : Type*} [LinearOrder β] {s : β} {a p : List β} (h : Under s a p)
    (hp : p ≠ []) : a < p := by
  have happend : ∀ (a : List β) (x : β) (rest : List β), a < a ++ x :: rest := by
    intro a x rest
    induction a with
    | nil => exact List.nil_lt_cons x rest
    | cons y a ih => exact List.cons_lt_cons_self.2 ih
  rcases h with rfl | ⟨rest, rfl⟩
  · cases p with
    | nil => exact absurd rfl hp
    | cons x p => exact List.nil_lt_cons x p
  · exact happend a s rest

/-! ### Splitting -/

variable [DecidableEq α]

instance decidableUnder (d p : List α) : Decidable (Under sep d p) :=
  decidable_of_iff (d = [] ∨ d ++ [sep] <+: p) <| or_congr_right <| exists_congr fun rest => by
    rw [List.append_assoc, List.singleton_append, eq_comm]

/-- The parent and the last component. -/
def split (sep : α) (p : List α) : List α × List α := (Text.rsplitOnce sep p).getD ([], p)

@[simp] theorem split_name {n : List α} (hn : IsName sep n) : split sep n = ([], n) := by
  rw [split, Text.rsplitOnce_eq_none.2 hn.2]
  rfl

@[simp] theorem split_sub {d n : List α} (hn : IsName sep n) :
    split sep (d ++ sep :: n) = (d, n) := by
  rw [split, Text.rsplitOnce_append hn.2]
  rfl

theorem split_join {d n : List α} (hn : IsName sep n) : split sep (join sep d n) = (d, n) := by
  unfold join
  split_ifs with hd
  · rw [split_name hn, hd]
  · exact split_sub hn

/-- A proper string is its last component in its parent. -/
theorem Proper.split_spec {p : List α} (h : Proper sep p) :
    ProperDir sep (split sep p).1 ∧ IsName sep (split sep p).2 ∧
      join sep (split sep p).1 (split sep p).2 = p := by
  cases h with
  | name hn => rw [split_name hn]; exact ⟨.inl rfl, hn, rfl⟩
  | sub hd hn =>
    rw [split_sub hn]
    exact ⟨.inr hd, hn, if_neg hd.ne_nil⟩

theorem Proper.eq_of_split {p q : List α} (hp : Proper sep p) (hq : Proper sep q)
    (h : split sep p = split sep q) : p = q := by
  rw [← hp.split_spec.2.2, ← hq.split_spec.2.2, h]

/-- The parent is above. -/
theorem Proper.under_split {p : List α} (h : Proper sep p) : Under sep (split sep p).1 p := by
  have hu := @under_join α sep (split sep p).1 (split sep p).2
  rwa [h.split_spec.2.2] at hu

end Hier
