import Mathlib.Data.List.Dedup
import Mathlib.Order.Bounds.Basic
import Replicore.Vv.Basic

/-!
# The semilattice of version vectors

`merge` is a join: as maps of counters, without regard to zero counters, it is commutative,
associative and idempotent, and it is the least upper bound of its arguments in the causal order
(`VersionVector.isLUB_merge`).  `from_iter` joins its pairs, so the vector depends on the set of the
pairs alone (`VersionVector.fromIter_congr`).
-/

namespace Replicore

/-- The answer with the arguments swapped. -/
def Ord3.swap : Ord3 → Ord3
  | .dominates => .dominated
  | .dominated => .dominates
  | .equal => .equal
  | .concurrent => .concurrent

/-- The answers that say at most. -/
def Ord3.isLe : Ord3 → Bool
  | .equal | .dominated => true
  | .dominates | .concurrent => false

namespace VersionVector

/-! ### `compare` -/

theorem compare_swap (a b : VersionVector) : b.compare a = (a.compare b).swap := by
  cases h : a.compare b with
  | equal => exact compare_eq_equal.2 (compare_eq_equal.1 h).symm
  | dominates => exact compare_eq_dominated.2 (compare_eq_dominates.1 h)
  | dominated => exact compare_eq_dominates.2 (compare_eq_dominated.1 h)
  | concurrent => exact compare_eq_concurrent.2 (compare_eq_concurrent.1 h).symm

theorem le_iff_compare {a b : VersionVector} : a ≤ b ↔ (a.compare b).isLe = true := by
  have hle : a ≤ b ↔ a.compare b = .equal ∨ a.compare b = .dominated := by
    rw [compare_eq_equal, compare_eq_dominated, lt_iff_le_not_ge]
    tauto
  rw [hle]
  cases a.compare b <;> simp [Ord3.isLe]

theorem equal_iff_get {a b : VersionVector} : a.compare b = .equal ↔ ∀ n, a.get n = b.get n := by
  rw [compare_eq_equal, le_def, le_def, ← forall_and]
  exact forall_congr' fun n => antisymm_iff

theorem concurrent_iff_get {a b : VersionVector} :
    a.compare b = .concurrent ↔ (∃ n, b.get n < a.get n) ∧ ∃ n, a.get n < b.get n := by
  rw [compare_eq_concurrent, le_def, le_def]
  push Not
  rfl

/-! ### `merge` -/

/-- A merge keeps the keys of both, with the larger counter. -/
theorem get?_merge_eq (v w : VersionVector) (n : NodeId) :
    (v.merge w).map.get? n = Option.merge max (v.map.get? n) (w.map.get? n) := by
  rw [get?_merge, get, get, OrdMap.getD, OrdMap.getD]
  cases v.map.get? n <;> cases w.map.get? n <;> simp

theorem ext_get? {v w : VersionVector} (h : ∀ n, v.map.get? n = w.map.get? n) : v = w :=
  congrArg VersionVector.mk (OrdMap.ext_get? h)

theorem merge_comm (v w : VersionVector) : v.merge w = w.merge v := by
  refine ext_get? fun n => ?_
  rw [get?_merge_eq, get?_merge_eq]
  exact Std.Commutative.comm _ _

theorem merge_assoc (u v w : VersionVector) : (u.merge v).merge w = u.merge (v.merge w) := by
  refine ext_get? fun n => ?_
  simp only [get?_merge_eq]
  exact Std.Associative.assoc _ _ _

theorem merge_self (v : VersionVector) : v.merge v = v := by
  refine ext_get? fun n => ?_
  rw [get?_merge_eq]
  exact Std.IdempotentOp.idempotent _

theorem isLUB_merge (v w : VersionVector) : IsLUB {v, w} (v.merge w) := by
  constructor
  · rintro u (rfl | rfl)
    · exact le_merge_left u w
    · exact le_merge_right v u
  · intro u hu
    exact merge_le (hu (.inl rfl)) (hu (.inr rfl))

/-! ### `from_iter` -/

theorem fromIterEntry_le {v u : VersionVector} {e : NodeId × ℕ} :
    v.fromIterEntry e ≤ u ↔ v ≤ u ∧ e.2 ≤ u.get e.1 := by
  unfold fromIterEntry
  split_ifs with hpos
  · simp only [le_def, get_mergeEntry]
    constructor
    · intro h
      refine ⟨fun n => ?_, ?_⟩
      · have hn := h n
        split_ifs at hn
        · exact (le_max_left _ _).trans hn
        · exact hn
      · have hself := h e.1
        rw [if_pos rfl] at hself
        exact (le_max_right _ _).trans hself
    · rintro ⟨hv, he⟩ n
      split_ifs with hn
      · exact max_le (hv n) (hn ▸ he)
      · exact hv n
  · simp [Nat.eq_zero_of_not_pos hpos]

/-- `from_iter` is the least vector that has every pair. -/
theorem fromIter_le {es : List (NodeId × ℕ)} {u : VersionVector} :
    fromIter es ≤ u ↔ ∀ e ∈ es, e.2 ≤ u.get e.1 := by
  have hfold : ∀ v : VersionVector, es.foldl fromIterEntry v ≤ u ↔
      v ≤ u ∧ ∀ e ∈ es, e.2 ≤ u.get e.1 := by
    induction es with
    | nil => simp
    | cons e es ih =>
      intro v
      rw [List.foldl_cons, ih, fromIterEntry_le, List.forall_mem_cons, and_assoc]
  rw [fromIter, hfold]
  exact and_iff_right (new_le u)

theorem fromIter_congr {es es' : List (NodeId × ℕ)} (h : ∀ e, e ∈ es ↔ e ∈ es') :
    fromIter es = fromIter es' := by
  refine (normal_fromIter es).ext (normal_fromIter es') ?_ ?_
  · exact fromIter_le.2 fun e he => fromIter_le.1 le_rfl e ((h e).1 he)
  · exact fromIter_le.2 fun e he => fromIter_le.1 le_rfl e ((h e).2 he)

/-! ### What joins keep -/

/-- What the empty vector, the vectors of copies and merges keep. -/
structure JoinClosed (P : VersionVector → Prop) : Prop where
  new : P new
  single : ∀ n, P (fromIter [(n, 1)])
  merge : ∀ {v w}, P v → P w → P (v.merge w)

theorem joinClosed_normal : JoinClosed Normal where
  new := normal_new
  single _ := normal_fromIter _
  merge hv hw := hv.merge hw

/-- **Version vectors are a join semilattice, and `compare` decides its order.**  The four answers
of `compare` are the four cases of the pointwise order, absent being zero; swapping the arguments
swaps the answer, and the order is transitive; `merge` is the least upper bound, and commutative,
associative and idempotent; `from_iter` depends on the set of its pairs alone. -/
theorem compare_merge_semilattice (a b c : VersionVector) {es es' : List (NodeId × ℕ)}
    (hes : ∀ e, e ∈ es ↔ e ∈ es') :
    ((a.compare b = .equal ↔ ∀ n, a.get n = b.get n) ∧
      (a.compare b = .dominates ↔ (∀ n, b.get n ≤ a.get n) ∧ ∃ n, b.get n < a.get n) ∧
      (a.compare b = .dominated ↔ (∀ n, a.get n ≤ b.get n) ∧ ∃ n, a.get n < b.get n) ∧
      (a.compare b = .concurrent ↔ (∃ n, b.get n < a.get n) ∧ ∃ n, a.get n < b.get n)) ∧
    (b.compare a = (a.compare b).swap ∧ ((a.compare b).isLe = true ↔ a ≤ b) ∧
      ((a.compare b).isLe = true → (b.compare c).isLe = true → (a.compare c).isLe = true) ∧
      (a.dominates b = true → b.dominates c = true → a.dominates c = true)) ∧
    (IsLUB {a, b} (a.merge b) ∧ a.merge b = b.merge a ∧
      (a.merge b).merge c = a.merge (b.merge c) ∧ a.merge a = a) ∧
    fromIter es = fromIter es' := by
  refine ⟨⟨equal_iff_get, compare_eq_dominates.trans lt_def, compare_eq_dominated.trans lt_def,
    concurrent_iff_get⟩, ⟨compare_swap a b, le_iff_compare.symm, fun hab hbc => ?_,
    fun hab hbc => ?_⟩, ⟨isLUB_merge a b, merge_comm a b, merge_assoc a b c, merge_self a⟩,
    fromIter_congr hes⟩
  · exact le_iff_compare.1 ((le_iff_compare.2 hab).trans (le_iff_compare.2 hbc))
  · rw [dominates, beq_iff_eq, compare_eq_dominates] at *
    exact hbc.trans hab

/-- Two vectors that share a key, and a list with a zero and a duplicate in two orders. -/
theorem compare_merge_semilattice_shared :
    (fromIter [(1, 2), (2, 1)]).compare (fromIter [(1, 1), (3, 1)]) = .concurrent ∧
      fromIter [(1, 0), (1, 2), (2, 1), (1, 2)] = fromIter [(2, 1), (1, 2), (1, 0)] := by
  have hsame : ∀ e : NodeId × ℕ,
      e ∈ [(1, 0), (1, 2), (2, 1), (1, 2)] ↔ e ∈ [(2, 1), (1, 2), (1, 0)] := by
    intro e
    simp only [List.mem_cons, List.not_mem_nil, or_false]
    tauto
  have h := compare_merge_semilattice (fromIter [(1, 2), (2, 1)]) (fromIter [(1, 1), (3, 1)]) new
    hsame
  exact ⟨h.1.2.2.2.2 ⟨⟨1, by decide⟩, 3, by decide⟩, h.2.2.2⟩

end VersionVector

end Replicore
