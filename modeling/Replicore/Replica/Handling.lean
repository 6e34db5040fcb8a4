import Replicore.Replica.Receive

/-!
# Handling any op, store by store

What `Replica.receive` does to the store, renames included: the op may be resolved at its path
before it is recorded, and at its path or at its source afterwards (`Replica.receive_cases`).  A
well-formed op is always handled to its end (`Replica.receive_ok`), and a node never changes its
id.
-/

namespace Replicore

/-- A well-formed op can be recorded. -/
theorem Store.applyRemote_ok (st : Store) {op : OpRecord} (hwf : op.WellFormed) (d : Decision) :
    ∃ e st', st.applyRemote op d = .ok (e, st') := by
  by_cases hknown : op.opId ∈ st.applied
  · exact ⟨_, _, Store.applyRemote_of_applied hknown d⟩
  · obtain ⟨e, st', hrun, -⟩ := Store.applyRemote_files hwf hknown d
    exact ⟨e, st', hrun⟩

variable [Blake3]

theorem conflictOf_target (op : OpRecord) :
    conflictOf op false = some (op.path, opVersion op) := rfl

theorem conflictOf_source {op : OpRecord} {old : Path} (h : op.pathOld = some old) :
    conflictOf op true = some (old, renameSourceVersion op) := by
  simp [conflictOf, h]

/-- A resolution on behalf of an op is at a path it affects, under its vector. -/
theorem affects_of_conflictOf {op : OpRecord} {atSource : Bool} {path : Path} {remote : Version}
    (h : conflictOf op atSource = some (path, remote)) : op.Affects path ∧ remote.vv = op.vv := by
  cases atSource with
  | false =>
    cases h
    exact ⟨.inl rfl, rfl⟩
  | true =>
    obtain ⟨old, hold, hpair⟩ := Option.map_eq_some_iff.1 h
    cases hpair
    exact ⟨.inr hold, rfl⟩

namespace Store

/-- A resolution on behalf of `op` has run: nothing changed, or it was committed at a path that the
op affects. -/
def Settles (op : OpRecord) (st st' : Store) : Prop :=
  st' = st ∨ ∃ atSource path remote, conflictOf op atSource = some (path, remote) ∧
    Resolved st st' path remote

/-- A resolution is never refused with an error: a concurrent decision comes with a row. -/
theorem resolveRows_ok (st : Store) (path : Path) (remote : Version) (staged : List PlannedRow) :
    ∃ out st', st.resolveRows path remote staged = .ok (out, st') := by
  by_cases hd : Decision.decide (st.loadFile path) remote.vv = .concurrent
  · obtain ⟨r, hr, -⟩ := decide_eq_concurrent.1 hd
    have hloc : st.loadRow path = some { r with path } := loadRow_eq_some.2 ⟨hr, rfl⟩
    simp only [resolveRows, hd, ne_eq, not_true_eq_false, if_false, hloc]
    split
    · exact ⟨_, _, rfl⟩
    · split_ifs
      · exact ⟨_, _, rfl⟩
      · exact ⟨_, _, rfl⟩
  · exact ⟨.notConcurrent (Decision.decide (st.loadFile path) remote.vv), st, by
      simp [resolveRows, hd]⟩

/-- Nothing is left to resolve where the rows have taken the op in. -/
theorem Settles.eq_of_le {op : OpRecord} {st st' : Store} (h : Settles op st st')
    (hle : ∀ p, op.Affects p → op.vv ≤ st.vvAt p) : st' = st := by
  refine h.resolve_right ?_
  rintro ⟨atSource, path, remote, hc, hres⟩
  obtain ⟨loc, -, -, -, hloc, hnot, -⟩ := hres.spec
  obtain ⟨hpath, hvv⟩ := affects_of_conflictOf hc
  refine hnot ?_
  rw [hvv, ← vvAt_eq (loadRow_eq_some.1 hloc).1]
  exact hle path hpath

end Store

namespace Replica

theorem resolveRounds_cases {path : Path} {remote : Version} {k : ℕ} {st st' : Store}
    {plan : List PlannedRow} {b : Bool} (h : resolveRounds path remote k st plan = .ok (b, st')) :
    st' = st ∨ Store.Resolved st st' path remote := by
  induction k generalizing st plan with
  | zero =>
    cases h
    exact .inl rfl
  | succ k ih =>
    obtain ⟨out, st₁, hres⟩ := Store.resolveRows_ok st path remote plan
    simp only [resolveRounds, hres] at h
    rcases Store.resolveRows_cases hres with ⟨hout, rfl⟩ | ⟨rfl, hconc, loc, hloc, hplan, rfl⟩
    · -- only a stale plan leads to another round
      cases out with
      | resolved => exact absurd rfl hout
      | stale fresh => exact ih h
      | notConcurrent d => cases h; exact .inl rfl
      | unresolvable => cases h; exact .inl rfl
    · cases h
      exact .inr (Store.resolved_of_plan hconc (Option.bind_eq_some_iff.2 ⟨loc, hloc, hplan⟩))

theorem resolveRounds_ok (path : Path) (remote : Version) (k : ℕ) (st : Store)
    (plan : List PlannedRow) : ∃ b st', resolveRounds path remote k st plan = .ok (b, st') := by
  induction k generalizing st plan with
  | zero => exact ⟨true, st, rfl⟩
  | succ k ih =>
    obtain ⟨out, st₁, hres⟩ := Store.resolveRows_ok st path remote plan
    simp only [resolveRounds, hres]
    cases out with
    | resolved => exact ⟨true, st₁, rfl⟩
    | stale fresh => exact ih st₁ fresh
    | notConcurrent d => exact ⟨false, st₁, rfl⟩
    | unresolvable => exact ⟨false, st₁, rfl⟩

theorem resolveConflict_cases {r r' : Replica} {path : Path} {remote : Version}
    (h : r.resolveConflict path remote = .ok r') :
    r'.store = r.store ∨ Store.Resolved r.store r'.store path remote := by
  unfold resolveConflict at h
  split at h
  · cases h
  · rename_i st hrounds
    cases h
    rw [(mirrorRows_store { r with store := st } path).1]
    exact resolveRounds_cases hrounds
  · rename_i st hrounds
    cases h
    exact resolveRounds_cases hrounds

theorem resolveConflict_ok (r : Replica) (path : Path) (remote : Version) :
    ∃ r', r.resolveConflict path remote = .ok r' := by
  obtain ⟨b, st, hrounds⟩ := resolveRounds_ok path remote 5 r.store []
  unfold resolveConflict
  rw [hrounds]
  cases b with
  | true => exact ⟨_, rfl⟩
  | false => exact ⟨_, rfl⟩

/-! ### The stages -/

variable {r r' : Replica} {op : OpRecord}

theorem settles_resolveConflict {atSource : Bool} {path : Path} {remote : Version}
    (hc : conflictOf op atSource = some (path, remote))
    (h : r.resolveConflict path remote = .ok r') : Store.Settles op r.store r'.store :=
  (resolveConflict_cases h).imp_right fun hres => ⟨atSource, path, remote, hc, hres⟩

theorem settles_beforeApply {d : Decision} (h : r.beforeApply op d = .ok r') :
    Store.Settles op r.store r'.store := by
  unfold beforeApply at h
  split at h
  · cases h
    exact .inl (applyEffect_store r op)
  · exact settles_resolveConflict (conflictOf_target op) h
  · cases h
    exact .inl rfl

theorem settles_repairDowngrade {e : Decision} (h : r.repairDowngrade op e = .ok r') :
    Store.Settles op r.store r'.store := by
  unfold repairDowngrade at h
  dsimp only at h
  split_ifs at h
  · have hsettles := settles_resolveConflict (conflictOf_target op) h
    rwa [syncFsFromRow_store] at hsettles
  · cases h
    exact .inl (syncFsFromRow_store r op.path)

theorem settles_settleSource (h : r.settleSource op = .ok r') :
    Store.Settles op r.store r'.store := by
  unfold settleSource at h
  split at h
  · rename_i old _ hold
    split at h
    · cases h
      exact .inl (syncFsFromRow_store r old)
    · cases h
      exact .inl (syncFsFromRow_store r old)
    · have hsettles := settles_resolveConflict (conflictOf_source hold) h
      rwa [syncFsFromRow_store] at hsettles
    · cases h
      exact .inl rfl
  · cases h
    exact .inl rfl

/-- Handling an op: it is known already, or it is settled, recorded, and settled again. -/
theorem receive_cases {d : Option Decision} (h : r.receive op = .ok (d, r')) :
    op.opId ∈ r.store.applied ∧ r' = r ∨ op.opId ∉ r.store.applied ∧ ∃ r₁ e st₂ st₃,
      r.beforeApply op (Decision.decide (r.store.loadFile op.path) op.vv) = .ok r₁ ∧
      r₁.store.applyRemote op (Decision.decide (r.store.loadFile op.path) op.vv) = .ok (e, st₂) ∧
      Store.Settles op st₂ st₃ ∧ Store.Settles op st₃ r'.store := by
  unfold receive at h
  split_ifs at h with hknown
  · cases h
    exact .inl ⟨by simpa [Store.hasApplied] using hknown, rfl⟩
  · obtain ⟨r₁, hbefore, h⟩ := Result.exists_of_bind_eq_ok h
    obtain ⟨⟨e, st⟩, hrun, h⟩ := Result.exists_of_bind_eq_ok h
    obtain ⟨r₂, hafter, h⟩ := Result.exists_of_bind_eq_ok h
    cases h
    refine .inr ⟨by simpa [Store.hasApplied] using hknown, r₁, e, st, ?_⟩
    unfold afterApply at hafter
    split_ifs at hafter
    · obtain ⟨r₃, hrepair, hafter⟩ := Result.exists_of_bind_eq_ok hafter
      exact ⟨r₃.store, hbefore, hrun, settles_repairDowngrade hrepair,
        settles_settleSource hafter⟩
    · exact ⟨st, hbefore, hrun, .inl rfl, settles_settleSource hafter⟩
    · obtain ⟨r₃, hrepair, hafter⟩ := Result.exists_of_bind_eq_ok hafter
      cases hafter
      exact ⟨r'.store, hbefore, hrun, settles_repairDowngrade hrepair, .inl rfl⟩
    · cases hafter
      exact ⟨st, hbefore, hrun, .inl rfl, .inl rfl⟩

theorem settleSource_ok (r : Replica) (op : OpRecord) : ∃ r', r.settleSource op = .ok r' := by
  unfold settleSource
  split
  · split
    · exact ⟨_, rfl⟩
    · exact ⟨_, rfl⟩
    · exact resolveConflict_ok _ _ _
    · exact ⟨_, rfl⟩
  · exact ⟨_, rfl⟩

theorem beforeApply_ok (r : Replica) (op : OpRecord) (d : Decision) :
    ∃ r', r.beforeApply op d = .ok r' := by
  unfold beforeApply
  split
  · exact ⟨_, rfl⟩
  · exact resolveConflict_ok _ _ _
  · exact ⟨_, rfl⟩

theorem repairDowngrade_ok (r : Replica) (op : OpRecord) (e : Decision) :
    ∃ r', r.repairDowngrade op e = .ok r' := by
  unfold repairDowngrade
  dsimp only
  split_ifs
  · exact resolveConflict_ok _ _ _
  · exact ⟨_, rfl⟩

theorem afterApply_ok (r : Replica) (op : OpRecord) (d e : Decision) :
    ∃ r', r.afterApply op d e = .ok r' := by
  obtain ⟨r₁, hrepair⟩ := repairDowngrade_ok r op e
  unfold afterApply
  split_ifs
  · rw [hrepair]
    exact settleSource_ok r₁ op
  · exact settleSource_ok r op
  · rw [hrepair]
    exact ⟨r₁, rfl⟩
  · exact ⟨r, rfl⟩

/-- A well-formed op is handled to its end. -/
theorem receive_ok (r : Replica) (hwf : op.WellFormed) : ∃ d r', r.receive op = .ok (d, r') := by
  by_cases hknown : op.opId ∈ r.store.applied
  · exact ⟨none, r, by simp [receive, Store.hasApplied, hknown]⟩
  · obtain ⟨r₁, hbefore⟩ := beforeApply_ok r op (Decision.decide (r.store.loadFile op.path) op.vv)
    obtain ⟨e, st, hrun⟩ := r₁.store.applyRemote_ok hwf
      (Decision.decide (r.store.loadFile op.path) op.vv)
    obtain ⟨r₂, hafter⟩ := afterApply_ok { r₁ with store := st } op
      (Decision.decide (r.store.loadFile op.path) op.vv) e
    refine ⟨some e, r₂, ?_⟩
    simp only [receive, Store.hasApplied, hknown, decide_false, Bool.false_eq_true, if_false,
      hbefore, hrun, hafter, bind, Except.bind]

end Replica

end Replicore
