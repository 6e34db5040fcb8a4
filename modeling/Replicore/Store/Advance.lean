import Replicore.Store.Effects

/-!
# Local ops advance the vector

A local op's vector is one increment above the rows it replaces, and `increment` is a wrapping
addition.  A counter can stand at `u64::MAX` without that many writes, for the vector of a remote
op is merged into a row as it came.  So `append_local` advances the row's vector exactly if the
node's own counter there is below `u64::MAX`, and `append_local_rename` exactly if it is at the
source and at the target (`Store.append_advances_iff`).
-/

namespace Replicore

namespace VersionVector

variable {v base : VersionVector} {n : NodeId}

theorem lt_increment_of_le (hle : v ≤ base) (h : base.get n + 1 < u64Bound) :
    v < base.increment n :=
  hle.trans_lt (lt_increment h)

/-- An increment that wraps loses the count. -/
theorem increment_lt_of_wrap (h : u64Bound ≤ base.get n + 1) :
    (base.increment n).get n < base.get n := by
  rw [get_increment, if_pos rfl]
  have hmod : (base.get n + 1) % u64Bound < u64Bound := Nat.mod_lt _ (by decide)
  by_cases heq : base.get n + 1 = u64Bound
  · rw [heq, Nat.mod_self]
    have hone : 1 < u64Bound := by decide
    omega
  · omega

end VersionVector

namespace Store

open VersionVector

section

variable [Blake3] {n : NodeId} {st st' : Store} {op : OpRecord}

theorem appendLocal_advances_iff {change : LocalChange}
    (h : st.appendLocal n change = .ok (some op, st')) :
    st.vvAt change.path < op.vv ↔ (st.vvAt change.path).get n + 1 < u64Bound := by
  obtain ⟨hnone, -, -⟩ | ⟨hop, -⟩ := appendLocal_cases h
  · cases hnone
  · obtain rfl := Option.some.inj hop
    rw [localOp_vv]
    constructor
    · intro hlt
      by_contra hwrap
      exact absurd (hlt.le n) (not_le_of_gt (increment_lt_of_wrap (not_lt.1 hwrap)))
    · exact lt_increment_of_le le_rfl

theorem appendLocalRename_advances_iff {old new : Path}
    (h : st.appendLocalRename n old new = (some op, st')) :
    (st.vvAt old < op.vv ∧ st.vvAt new < op.vv) ↔
      (st.vvAt old).get n + 1 < u64Bound ∧ (st.vvAt new).get n + 1 < u64Bound := by
  obtain hnone | ⟨src, hsrc, -, -, hsome⟩ := appendLocalRename_cases n st old new
  · rw [hnone] at h
    cases h
  · rw [hsome] at h
    obtain ⟨hop, -⟩ := Prod.mk.inj h
    obtain rfl := Option.some.inj hop
    refine ⟨?_, fun hbelow => vvAt_lt_renameOp hbelow.1 hbelow.2 hsrc⟩
    rw [renameOp_vv_eq n new hsrc]
    have hget := get_merge (st.vvAt old) (st.vvAt new) n
    rintro ⟨hold, hnew⟩
    by_contra hwrap
    have hmax : u64Bound ≤ ((st.vvAt old).merge (st.vvAt new)).get n + 1 := by omega
    have hlost := increment_lt_of_wrap hmax
    have hle := max_le (hold.le n) (hnew.le n)
    rw [← hget] at hle
    exact absurd hle (not_le_of_gt hlost)

/-- **A local op advances the vector exactly if the node's counter does not wrap.**  In every state
of the store, the vector minted by `append_local` strictly dominates that of the row it replaces if
and only if the node's own counter there is not `u64::MAX`; and the vector minted by
`append_local_rename` strictly dominates those of the source and of the replaced target if and only
if neither counter is. -/
theorem append_advances_iff (n : NodeId) (st : Store) :
    (∀ change op st', st.appendLocal n change = .ok (some op, st') →
      (op.vv.dominates (st.vvAt change.path) = true ↔
        (st.vvAt change.path).get n < u64Bound - 1)) ∧
      ∀ old new op st', st.appendLocalRename n old new = (some op, st') →
        ((op.vv.dominates (st.vvAt old) = true ∧ op.vv.dominates (st.vvAt new) = true) ↔
          (st.vvAt old).get n < u64Bound - 1 ∧ (st.vvAt new).get n < u64Bound - 1) := by
  simp only [dominates, beq_iff_eq, compare_eq_dominates, Nat.lt_sub_iff_add_lt]
  exact ⟨fun _ _ _ h => appendLocal_advances_iff h, fun _ _ _ _ h => appendLocalRename_advances_iff h⟩

end

section Example

attribute [local instance] Blake3.polynomial

/-- Node 2's op claims `u64::MAX` writes of node 1. -/
def foreignMax : OpRecord := { foreignF with vv := .fromIter [(1, u64Bound - 1)] }

/-- Node 1 after it has taken that op in. -/
def afterMax : Store := exec 1 {} (.applyRemote foreignMax .apply)

/-- **A counter from the wire wraps.**  Node 1's next write of the file, and its rename of it, mint
a zero counter, and their vectors dominate nothing. -/
theorem append_after_max_wraps :
    (∃ op st', afterMax.appendLocal 1 writeF = .ok (some op, st') ∧ op.vv.get 1 = 0 ∧
        op.vv.dominates (afterMax.vvAt ['f']) = false) ∧
      ∃ op st', afterMax.appendLocalRename 1 ['f'] ['g'] = (some op, st') ∧ op.vv.get 1 = 0 ∧
        op.vv.dominates (afterMax.vvAt ['f']) = false := by
  constructor
  · exact ⟨localOp 1 afterMax writeF, _, rfl, by decide +kernel, by decide +kernel⟩
  · exact ⟨_, _, rfl, by decide +kernel, by decide +kernel⟩

/-- A write over node 2's own, and a rename of it. -/
theorem append_advances_over_foreign :
    let st := exec 1 {} (.applyRemote foreignF .apply)
    (localOp 1 st writeF).vv.dominates (st.vvAt ['f']) = true ∧
      ∃ op st', st.appendLocalRename 1 ['f'] ['g'] = (some op, st') ∧
        op.vv.dominates (st.vvAt ['f']) = true := by
  intro st
  obtain ⟨hwrite, hrename⟩ := append_advances_iff 1 st
  refine ⟨(hwrite writeF _ _ rfl).2 (by decide +kernel), _, _, rfl, ?_⟩
  exact ((hrename ['f'] ['g'] _ _ rfl).2 ⟨by decide +kernel, by decide +kernel⟩).1

end Example

end Store

end Replicore
