import Mathlib.Algebra.GroupWithZero.Nat
import Mathlib.Order.Fin.Basic
import Mathlib.Tactic.Push
import Mathlib.Tactic.Tauto
import Replicore.Lib.OrdMap

/-!
# Version vectors

The per-file version vectors of `vv.rs`: a map from node id to the number of local writes seen
from that node.  Absent and zero are the same causal state, so the causal order is the pointwise
order of `VersionVector.get`; it is the preorder `≤` on vectors here, and `compare` decides it
(`compare_eq_equal`, `compare_eq_dominates`, `compare_eq_dominated`, `compare_eq_concurrent`).

The map itself can hold a zero counter (a decoded vector may).  `VersionVector.Normal` says that
it does not; between normal vectors equality and causal equality coincide (`Normal.ext`).
-/

namespace Replicore

/-- Stable node identity: 16 bytes, read as a big-endian number. -/
abbrev NodeId := Fin (2 ^ 128)

instance neZero_nodeId : NeZero (2 ^ 128) := ⟨by decide⟩

/-- Counters are unsigned 64-bit: `increment` wraps at this bound. -/
def u64Bound : ℕ := 2 ^ 64

/-- A per-file version vector. -/
structure VersionVector where
  /-- The counters, by node id. -/
  map : OrdMap NodeId ℕ
  deriving DecidableEq

/-- Outcome of comparing two version vectors. -/
inductive Ord3
  | dominates
  | dominated
  | equal
  | concurrent
  deriving DecidableEq, Repr

namespace VersionVector

/-- The empty vector. -/
def new : VersionVector := ⟨OrdMap.empty⟩

instance : Inhabited VersionVector := ⟨new⟩

/-- Component for `node`; absent components are causally zero. -/
def get (v : VersionVector) (node : NodeId) : ℕ := v.map.getD node 0

/-- Record one more local write by `node`. -/
def increment (v : VersionVector) (node : NodeId) : VersionVector :=
  ⟨v.map.insert node ((v.get node + 1) % u64Bound)⟩

/-- One entry of `other` taken into the vector: `or_insert(0)`, then the larger count. -/
def mergeEntry (v : VersionVector) (e : NodeId × ℕ) : VersionVector :=
  ⟨v.map.insert e.1 (if v.get e.1 < e.2 then e.2 else v.get e.1)⟩

/-- Componentwise max. -/
def merge (v other : VersionVector) : VersionVector := other.map.entries.foldl mergeEntry v

/-- The loop of `compare` over the remaining keys, with its two flags and its early exit. -/
def compareLoop (a b : VersionVector) : Bool → Bool → List NodeId → Ord3
  | true, true, [] => .concurrent
  | true, false, [] => .dominates
  | false, true, [] => .dominated
  | false, false, [] => .equal
  | selfGt, otherGt, node :: rest =>
    let selfGt' := if b.get node < a.get node then true else selfGt
    let otherGt' := if b.get node < a.get node then otherGt
      else if a.get node < b.get node then true else otherGt
    if selfGt' && otherGt' then .concurrent else compareLoop a b selfGt' otherGt' rest

/-- Compare over the union of components (absent is zero). -/
def compare (a b : VersionVector) : Ord3 :=
  compareLoop a b false false (a.map.keys ++ b.map.keys)

/-- The first vector strictly dominates the second. -/
def dominates (a b : VersionVector) : Bool := a.compare b == .dominates

/-- One pair taken into a vector by `from_iter`: zeros are dropped, duplicates keep the max. -/
def fromIterEntry (v : VersionVector) (e : NodeId × ℕ) : VersionVector :=
  if 0 < e.2 then v.mergeEntry e else v

/-- Build a normalized vector from pairs. -/
def fromIter (es : List (NodeId × ℕ)) : VersionVector := es.foldl fromIterEntry new

/-! ### Components -/

@[simp] theorem get_new (n : NodeId) : new.get n = 0 := rfl

theorem get_insert (m : OrdMap NodeId ℕ) (k n : NodeId) (c : ℕ) :
    (⟨m.insert k c⟩ : VersionVector).get n = if k = n then c else (⟨m⟩ : VersionVector).get n := by
  simp only [get, OrdMap.getD, OrdMap.get?_insert]
  split_ifs <;> rfl

theorem get_increment (v : VersionVector) (k n : NodeId) :
    (v.increment k).get n = if k = n then (v.get k + 1) % u64Bound else v.get n :=
  get_insert _ _ _ _

theorem get_mergeEntry (v : VersionVector) (e : NodeId × ℕ) (n : NodeId) :
    (v.mergeEntry e).get n = if e.1 = n then max (v.get n) e.2 else v.get n := by
  rw [mergeEntry, get_insert]
  split_ifs with h1 h2
  · subst h1; exact (max_eq_right h2.le).symm
  · subst h1; exact (max_eq_left (not_lt.1 h2)).symm
  · rfl

theorem get_eq_zero_of_notMem {v : VersionVector} {n : NodeId} (h : n ∉ v.map.keys) :
    v.get n = 0 := by
  rw [OrdMap.mem_keys] at h
  simp only [Bool.not_eq_true, Option.isSome_eq_false_iff, Option.isNone_iff_eq_none] at h
  simp [get, OrdMap.getD, h]

theorem get_foldl_mergeEntry (es : List (NodeId × ℕ)) (hd : es.Pairwise fun a b => a.1 < b.1)
    (v : VersionVector) (n : NodeId) :
    (es.foldl mergeEntry v).get n = max (v.get n) ((OrdMap.lookupL n es).getD 0) := by
  induction es generalizing v with
  | nil => simp [OrdMap.lookupL]
  | cons e es ih =>
    obtain ⟨he, hes⟩ := List.pairwise_cons.1 hd
    rw [List.foldl_cons, ih hes, get_mergeEntry, OrdMap.lookupL]
    split_ifs with h
    · subst h
      simp [OrdMap.lookupL_eq_none_of_lt he]
    · rfl

@[simp] theorem get_merge (v w : VersionVector) (n : NodeId) :
    (v.merge w).get n = max (v.get n) (w.get n) :=
  get_foldl_mergeEntry _ w.map.sorted v n

theorem get?_foldl_mergeEntry_of_none {n : NodeId} {es : List (NodeId × ℕ)} (v : VersionVector)
    (h : OrdMap.lookupL n es = none) : (es.foldl mergeEntry v).map.get? n = v.map.get? n := by
  induction es generalizing v with
  | nil => rfl
  | cons e es ih =>
    by_cases he : e.1 = n
    · simp [OrdMap.lookupL, he] at h
    · simp only [OrdMap.lookupL, he, if_false] at h
      rw [List.foldl_cons, ih _ h]
      exact OrdMap.get?_insert_of_ne _ _ he

theorem isSome_get?_foldl_mergeEntry {n : NodeId} {es : List (NodeId × ℕ)} (v : VersionVector)
    (h : (v.map.get? n).isSome ∨ (OrdMap.lookupL n es).isSome) :
    ((es.foldl mergeEntry v).map.get? n).isSome := by
  induction es generalizing v with
  | nil => simpa [OrdMap.lookupL] using h
  | cons e es ih =>
    rw [List.foldl_cons]
    refine ih _ ?_
    by_cases he : e.1 = n
    · exact .inl (by simp [mergeEntry, he])
    · simp only [OrdMap.lookupL, he, if_false] at h
      rwa [mergeEntry, OrdMap.get?_insert_of_ne _ _ he]

/-- The entries of a merge: those of either side, with the larger count. -/
theorem get?_merge (v w : VersionVector) (n : NodeId) : (v.merge w).map.get? n =
    if (w.map.get? n).isSome then some (max (v.get n) (w.get n)) else v.map.get? n := by
  split_ifs with hw
  · obtain ⟨c, hc⟩ := Option.isSome_iff_exists.1 (isSome_get?_foldl_mergeEntry v (.inr hw))
    have hget := get_merge v w n
    rw [get, OrdMap.getD, merge, hc, Option.getD_some] at hget
    rw [merge, hc, hget]
  · rw [Bool.not_eq_true, Option.isSome_eq_false_iff, Option.isNone_iff_eq_none] at hw
    exact get?_foldl_mergeEntry_of_none v hw

/-- The order in which vectors are merged in does not matter. -/
theorem merge_right_comm (v a b : VersionVector) : (v.merge a).merge b = (v.merge b).merge a := by
  have hzero : ∀ {w : VersionVector} {n : NodeId}, ¬ (w.map.get? n).isSome → w.get n = 0 := by
    intro w n hw
    rw [Bool.not_eq_true, Option.isSome_eq_false_iff, Option.isNone_iff_eq_none] at hw
    rw [get, OrdMap.getD, hw]
    rfl
  have hmap : ((v.merge a).merge b).map = ((v.merge b).merge a).map := by
    refine OrdMap.ext_get? fun n => ?_
    simp only [get?_merge, get_merge]
    split_ifs with hb ha ha
    · rw [max_assoc, max_comm (a.get n), ← max_assoc]
    · rw [hzero ha, Nat.max_zero]
    · rw [hzero hb, Nat.max_zero]
    · rfl
  exact congrArg VersionVector.mk hmap

/-! ### The causal order -/

/-- The causal order: every component is at most the other's. -/
instance : Preorder VersionVector := Preorder.lift get

theorem le_def {v w : VersionVector} : v ≤ w ↔ ∀ n, v.get n ≤ w.get n := Iff.rfl

theorem lt_def {v w : VersionVector} : v < w ↔ v ≤ w ∧ ∃ n, v.get n < w.get n := by
  rw [lt_iff_le_not_ge, le_def (v := w)]
  push Not
  rfl

theorem new_le (v : VersionVector) : new ≤ v := fun _ => Nat.zero_le _

theorem le_merge_left (v w : VersionVector) : v ≤ v.merge w := fun n => by simp

theorem le_merge_right (v w : VersionVector) : w ≤ v.merge w := fun n => by simp

theorem merge_le {v w u : VersionVector} (h : v ≤ u) (h' : w ≤ u) : v.merge w ≤ u := fun n => by
  simpa using ⟨h n, h' n⟩

/-- Below the wrap-around bound, an increment strictly dominates. -/
theorem lt_increment {v : VersionVector} {n : NodeId} (h : v.get n + 1 < u64Bound) :
    v < v.increment n := by
  refine lt_def.2 ⟨le_def.2 fun k => ?_, n, ?_⟩
  · rw [get_increment, Nat.mod_eq_of_lt h]
    split_ifs with hk
    · subst hk; omega
    · exact le_rfl
  · rw [get_increment, if_pos rfl, Nat.mod_eq_of_lt h]; omega

/-! ### `compare` decides the order -/

theorem compareLoop_eq (a b : VersionVector) (sg og : Bool) (ns : List NodeId)
    (h : (sg && og) = false) :
    compareLoop a b sg og ns =
      match sg || ns.any (fun n => b.get n < a.get n), og || ns.any (fun n => a.get n < b.get n) with
      | true, true => .concurrent
      | true, false => .dominates
      | false, true => .dominated
      | false, false => .equal := by
  induction ns generalizing sg og with
  | nil => cases sg <;> cases og <;> rfl
  | cons n ns ih =>
    simp only [compareLoop, List.any_cons]
    rcases lt_trichotomy (a.get n) (b.get n) with hlt | heq | hgt
    · have hng : ¬ b.get n < a.get n := not_lt.2 hlt.le
      simp only [hng, hlt, ↓reduceIte, decide_false, decide_true, Bool.false_or, Bool.true_or,
        Bool.or_true]
      cases sg
      · simpa using ih false true rfl
      · cases og
        · simp
        · simp at h
    · have h1 : ¬ b.get n < a.get n := by omega
      have h2 : ¬ a.get n < b.get n := by omega
      simp only [h1, h2, ↓reduceIte, decide_false, Bool.false_or, h, Bool.false_eq_true]
      exact ih sg og h
    · have hng : ¬ a.get n < b.get n := not_lt.2 hgt.le
      simp only [hng, hgt, ↓reduceIte, decide_false, decide_true, Bool.false_or, Bool.true_or,
        Bool.or_true]
      cases og
      · simpa using ih true false rfl
      · simp

theorem any_keys_lt (a b : VersionVector) :
    ((a.map.keys ++ b.map.keys).any fun n => a.get n < b.get n) = true ↔ ¬ b ≤ a := by
  simp only [List.any_eq_true, decide_eq_true_eq, le_def, not_forall, not_le]
  constructor
  · rintro ⟨n, -, h⟩; exact ⟨n, h⟩
  · rintro ⟨n, h⟩
    refine ⟨n, List.mem_append_right _ ?_, h⟩
    by_contra hn
    rw [get_eq_zero_of_notMem hn] at h
    omega

theorem any_keys_gt (a b : VersionVector) :
    ((a.map.keys ++ b.map.keys).any fun n => b.get n < a.get n) = true ↔ ¬ a ≤ b := by
  rw [← any_keys_lt b a]
  simp only [List.any_append, Bool.or_comm]

/-- `compare` returns one of four answers according to the two halves of the causal order. -/
theorem compare_eq (a b : VersionVector) [Decidable (a ≤ b)] [Decidable (b ≤ a)] :
    a.compare b =
      if a ≤ b then (if b ≤ a then .equal else .dominated)
      else (if b ≤ a then .dominates else .concurrent) := by
  rw [compare, compareLoop_eq _ _ _ _ _ rfl]
  have h1 := any_keys_gt a b
  have h2 := any_keys_lt a b
  simp only [Bool.false_or]
  split_ifs with hab hba hba
  · rw [Bool.eq_false_iff.2 (mt h1.1 (not_not.2 hab)), Bool.eq_false_iff.2 (mt h2.1 (not_not.2 hba))]
  · rw [Bool.eq_false_iff.2 (mt h1.1 (not_not.2 hab)), h2.2 hba]
  · rw [h1.2 hab, Bool.eq_false_iff.2 (mt h2.1 (not_not.2 hba))]
  · rw [h1.2 hab, h2.2 hba]

theorem compare_eq_equal {a b : VersionVector} : a.compare b = .equal ↔ a ≤ b ∧ b ≤ a := by
  classical
  rw [compare_eq]; split_ifs <;> simp_all

theorem compare_eq_dominates {a b : VersionVector} : a.compare b = .dominates ↔ b < a := by
  classical
  rw [compare_eq, lt_iff_le_not_ge]; split_ifs <;> simp_all

theorem compare_eq_dominated {a b : VersionVector} : a.compare b = .dominated ↔ a < b := by
  classical
  rw [compare_eq, lt_iff_le_not_ge]; split_ifs <;> simp_all

theorem compare_eq_concurrent {a b : VersionVector} :
    a.compare b = .concurrent ↔ ¬ a ≤ b ∧ ¬ b ≤ a := by
  classical
  rw [compare_eq]; split_ifs <;> simp_all

/-- The causal order is decided by `compare`. -/
instance : DecidableLE VersionVector := fun a b =>
  decidable_of_iff (a.compare b = .equal ∨ a.compare b = .dominated) <| by
    rw [compare_eq_equal, compare_eq_dominated, lt_iff_le_not_ge]
    tauto

instance : DecidableLT VersionVector := fun a b =>
  decidable_of_iff (a.compare b = .dominated) compare_eq_dominated

/-! ### Normal vectors -/

/-- No counter is stored as zero. -/
def Normal (v : VersionVector) : Prop := ∀ n c, v.map.get? n = some c → 0 < c

theorem normal_new : Normal new := fun _ _ h => by simp [new] at h

theorem Normal.get?_eq {v : VersionVector} (h : v.Normal) (n : NodeId) :
    v.map.get? n = if v.get n = 0 then none else some (v.get n) := by
  cases hv : v.map.get? n with
  | none => simp [get, OrdMap.getD, hv]
  | some c =>
    have := h n c hv
    simp [get, OrdMap.getD, hv, this.ne']

/-- Between normal vectors, causal equality is equality. -/
theorem Normal.ext {v w : VersionVector} (hv : v.Normal) (hw : w.Normal) (h : v ≤ w)
    (h' : w ≤ v) : v = w := by
  obtain ⟨m⟩ := v
  obtain ⟨m'⟩ := w
  refine congrArg VersionVector.mk (OrdMap.ext_get? fun n => ?_)
  have := le_antisymm (h n) (h' n)
  have h1 := hv.get?_eq n
  have h2 := hw.get?_eq n
  rw [this] at h1
  exact h1.trans h2.symm

theorem normal_insert {m : OrdMap NodeId ℕ} (h : Normal ⟨m⟩) {k : NodeId} {c : ℕ} (hc : 0 < c) :
    Normal ⟨m.insert k c⟩ := by
  intro n d hd
  simp only [OrdMap.get?_insert] at hd
  split_ifs at hd with hk
  · cases hd; exact hc
  · exact h n d hd

theorem Normal.mergeEntry {v : VersionVector} (h : v.Normal) {e : NodeId × ℕ} (he : 0 < e.2) :
    (v.mergeEntry e).Normal := by
  refine normal_insert h ?_
  split_ifs with hlt
  · exact he
  · omega

theorem Normal.foldl_mergeEntry {es : List (NodeId × ℕ)} {v : VersionVector} (h : v.Normal)
    (he : ∀ e ∈ es, 0 < e.2) : (es.foldl VersionVector.mergeEntry v).Normal := by
  induction es generalizing v with
  | nil => exact h
  | cons e es ih =>
    exact ih (h.mergeEntry (he e List.mem_cons_self)) fun x hx => he x (List.mem_cons_of_mem _ hx)

theorem Normal.merge {v w : VersionVector} (hv : v.Normal) (hw : w.Normal) :
    (v.merge w).Normal :=
  hv.foldl_mergeEntry fun e he => hw e.1 e.2 (OrdMap.mem_entries.1 he)

theorem Normal.increment {v : VersionVector} (hv : v.Normal) {n : NodeId}
    (h : v.get n + 1 < u64Bound) : (v.increment n).Normal := by
  refine normal_insert hv ?_
  rw [Nat.mod_eq_of_lt h]; omega

/-- Taking a dominating normal vector in gives that vector. -/
theorem Normal.merge_eq_right {v w : VersionVector} (hv : v.Normal) (hw : w.Normal) (h : v ≤ w) :
    v.merge w = w :=
  (hv.merge hw).ext hw (merge_le h le_rfl) (le_merge_right v w)

theorem normal_fromIter (es : List (NodeId × ℕ)) : (fromIter es).Normal := by
  have : ∀ (v : VersionVector), v.Normal → (es.foldl fromIterEntry v).Normal := by
    induction es with
    | nil => exact fun v hv => hv
    | cons e es ih =>
      intro v hv
      refine ih _ ?_
      unfold fromIterEntry
      split_ifs with h
      · exact hv.mergeEntry h
      · exact hv
  exact this new normal_new

end VersionVector

end Replicore
