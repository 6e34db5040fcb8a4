import Replicore.Lib.OrdMap

/-!
# Debouncing

A map from keys to a value and a deadline, as a component keeps it that waits for a key to come to
rest: every touch of a key moves its deadline to `q` behind the touch, and a key is due once its
deadline has passed.

What the component owes is a function of the history alone: a key is owed since its last touch, if
nothing has been done about it after that (`owed`).  The map is `Exact` if it holds what is owed and
nothing else, so what is due in it is at rest (`Exact.owed_of_get?`).  A history is `Rested` if
every key in it was fired at rest, and then no more often than it was touched
(`Rested.count_fired_le`).
-/

namespace Debounce

variable {K V : Type*}

/-- What has happened to a key, and when. -/
inductive Mark (K V : Type*)
  | touched (k : K) (v : V) (t : ℕ)
  | fired (k : K) (v : V) (t : ℕ)
  | cancelled (k : K) (t : ℕ)
  deriving DecidableEq

section

variable [LinearOrder K]

/-- The last touch of the key with nothing done about it since; the newest mark comes first. -/
def owed (k : K) : List (Mark K V) → Option (V × ℕ)
  | [] => none
  | .touched k' v t :: log => if k' = k then some (v, t) else owed k log
  | .fired k' _ _ :: log | .cancelled k' _ :: log => if k' = k then none else owed k log

/-- Every key was fired at rest, with the value of its last touch. -/
def Rested (q : ℕ) : List (Mark K V) → Prop
  | [] => True
  | .fired k v t :: log => (∃ t₀, owed k log = some (v, t₀) ∧ t₀ + q ≤ t) ∧ Rested q log
  | .touched _ _ _ :: log | .cancelled _ _ :: log => Rested q log

/-- How often the key was fired. -/
def countFired (k : K) : List (Mark K V) → ℕ
  | [] => 0
  | .fired k' _ _ :: log => (if k' = k then 1 else 0) + countFired k log
  | .touched _ _ _ :: log | .cancelled _ _ :: log => countFired k log

/-- How often the key was touched. -/
def countTouched (k : K) : List (Mark K V) → ℕ
  | [] => 0
  | .touched k' _ _ :: log => (if k' = k then 1 else 0) + countTouched k log
  | .fired _ _ _ :: log | .cancelled _ _ :: log => countTouched k log

variable {q : ℕ} {log : List (Mark K V)}

/-- A fire takes a touch with it. -/
theorem Rested.count_fired_le (h : Rested q log) (k : K) :
    countFired k log + (if (owed k log).isSome then 1 else 0) ≤ countTouched k log := by
  induction log with
  | nil => simp [countFired, countTouched, owed]
  | cons n log ih =>
    cases n with
    | touched k' v t =>
      have ih := ih h
      by_cases hk : k' = k
      · simp only [countFired, countTouched, owed, hk, if_true, Option.isSome_some]
        omega
      · simpa only [countFired, countTouched, owed, hk, if_false, Nat.zero_add] using ih
    | fired k' v t =>
      obtain ⟨⟨t₀, howed, -⟩, hrest⟩ := h
      have ih := ih hrest
      by_cases hk : k' = k
      · subst hk
        simp only [howed, Option.isSome_some, if_true] at ih
        simp only [countFired, countTouched, owed, if_true, Option.isSome_none,
          Bool.false_eq_true, if_false]
        omega
      · simpa only [countFired, countTouched, owed, hk, if_false, Nat.zero_add] using ih
    | cancelled k' t =>
      have ih := ih h
      by_cases hk : k' = k
      · subst hk
        simp only [countFired, countTouched, owed, if_true, Option.isSome_none,
          Bool.false_eq_true, if_false]
        omega
      · simpa only [countFired, countTouched, owed, hk, if_false] using ih

/-- A touch is owed for, unless something was done about the key since. -/
theorem owed_or_settled (k : K) (v : V) (t : ℕ) (post pre : List (Mark K V)) :
    (owed k (post ++ .touched k v t :: pre)).isSome ∨
      ∃ n ∈ post, (∃ v' t', n = .fired k v' t') ∨ ∃ t', n = .cancelled k t' := by
  induction post with
  | nil => simp [owed]
  | cons n post ih =>
    by_cases hset : (∃ v' t', n = .fired k v' t') ∨ ∃ t', n = .cancelled k t'
    · exact .inr ⟨n, List.mem_cons_self, hset⟩
    · have hstep : (owed k (n :: (post ++ .touched k v t :: pre))).isSome ∨
          owed k (n :: (post ++ .touched k v t :: pre)) =
            owed k (post ++ .touched k v t :: pre) := by
        cases n with
        | touched k' v' t' =>
          by_cases hk : k' = k
          · simp [owed, hk]
          · exact .inr (by simp [owed, hk])
        | fired k' v' t' =>
          have hk : k' ≠ k := fun hk => hset (.inl ⟨v', t', by rw [hk]⟩)
          exact .inr (by simp [owed, hk])
        | cancelled k' t' =>
          have hk : k' ≠ k := fun hk => hset (.inr ⟨t', by rw [hk]⟩)
          exact .inr (by simp [owed, hk])
      obtain hsome | heq := hstep
      · exact .inl hsome
      · rw [List.cons_append, heq]
        exact ih.imp_right fun ⟨n', hn', h⟩ => ⟨n', List.mem_cons_of_mem _ hn', h⟩

end

/-! ### The map -/

section

variable [LinearOrder K] {q : ℕ} {m : OrdMap K (V × ℕ)} {log : List (Mark K V)}

/-- The entries whose deadline has passed. -/
def due (m : OrdMap K (V × ℕ)) (now : ℕ) : List (K × V) :=
  (m.entries.filter fun e => e.2.2 ≤ now).map fun e => (e.1, e.2.1)

theorem mem_due {now : ℕ} {k : K} {v : V} :
    (k, v) ∈ due m now ↔ ∃ d, m.get? k = some (v, d) ∧ d ≤ now := by
  simp only [due, List.mem_map, List.mem_filter, decide_eq_true_eq, Prod.mk.injEq]
  constructor
  · rintro ⟨⟨k', v', d⟩, ⟨hmem, hd⟩, rfl, rfl⟩
    exact ⟨d, OrdMap.mem_entries.1 hmem, hd⟩
  · rintro ⟨d, hget, hd⟩
    exact ⟨(k, v, d), ⟨OrdMap.mem_entries.2 hget, hd⟩, rfl, rfl⟩

theorem nodup_due (m : OrdMap K (V × ℕ)) (now : ℕ) : ((due m now).map Prod.fst).Nodup := by
  have hkeys : (m.entries.map Prod.fst).Nodup :=
    List.pairwise_map.2 (m.sorted.imp fun hlt => hlt.ne)
  have hmap : (due m now).map Prod.fst = (m.entries.filter fun e => e.2.2 ≤ now).map Prod.fst := by
    rw [due, List.map_map]
    rfl
  rw [hmap]
  exact hkeys.sublist (List.filter_sublist.map _)

/-- The map holds what is owed: the value of the last touch, and a deadline `q` behind it. -/
def Exact (q : ℕ) (m : OrdMap K (V × ℕ)) (log : List (Mark K V)) : Prop :=
  ∀ k, m.get? k = (owed k log).map fun x => (x.1, x.2 + q)

theorem exact_empty : Exact q (.empty : OrdMap K (V × ℕ)) [] := fun _ => rfl

theorem Exact.touch (h : Exact q m log) (k : K) (v : V) (t : ℕ) :
    Exact q (m.insert k (v, t + q)) (.touched k v t :: log) := by
  intro k'
  rw [OrdMap.get?_insert, owed]
  split_ifs
  · rfl
  · exact h k'

theorem Exact.fire (h : Exact q m log) (k : K) (v : V) (t : ℕ) :
    Exact q (m.erase k) (.fired k v t :: log) := by
  intro k'
  rw [OrdMap.get?_erase, owed]
  split_ifs
  · rfl
  · exact h k'

theorem Exact.cancel (h : Exact q m log) (k : K) (t : ℕ) :
    Exact q (m.erase k) (.cancelled k t :: log) := by
  intro k'
  rw [OrdMap.get?_erase, owed]
  split_ifs
  · rfl
  · exact h k'

/-- What is in the map is owed, since `q` before its deadline. -/
theorem Exact.owed_of_get? (h : Exact q m log) {k : K} {v : V} {d : ℕ}
    (hk : m.get? k = some (v, d)) : ∃ t, owed k log = some (v, t) ∧ t + q = d := by
  rw [h k, Option.map_eq_some_iff] at hk
  obtain ⟨⟨v', t⟩, howed, heq⟩ := hk
  obtain ⟨rfl, rfl⟩ := Prod.mk.inj heq
  exact ⟨t, howed, rfl⟩

theorem Exact.get?_of_owed (h : Exact q m log) {k : K} {v : V} {t : ℕ}
    (hk : owed k log = some (v, t)) : m.get? k = some (v, t + q) := by
  rw [h k, hk]
  rfl

/-- An empty map owes nothing. -/
theorem Exact.owed_eq_none (h : Exact q (.empty : OrdMap K (V × ℕ)) log) (k : K) :
    owed k log = none := by
  have hk := h k
  rw [OrdMap.get?_empty] at hk
  exact Option.map_eq_none_iff.1 hk.symm

end

end Debounce
