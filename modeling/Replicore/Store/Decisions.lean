import Replicore.Store.Resolve

/-!
# What a decision is worth later

A decision is taken seconds before it is committed.  Rows only grow (`Store.rowsGrow_run`), so what
was ignored stays ignored, and what was concurrent never becomes applicable
(`Store.decisions_move_towards_ignore`): committing under an earlier decision leaves what committing
under a fresh one would.

A quarantined op is to be recorded and nothing else.  `applyRemote` decides the source of a rename
on its own, so this holds for every op but a rename (`Store.quarantine_iff`).
-/

namespace Replicore

namespace Store

/-! ### Decisions over a run -/

/-- What was ignored stays ignored. -/
theorem RowsGrow.decide_ignore {Q : VersionVector → Prop} {st st' : Store} (h : RowsGrow Q st st')
    {p : Path} {vv : VersionVector} (hd : Decision.decide (st.loadFile p) vv = .ignore) :
    Decision.decide (st'.loadFile p) vv = .ignore :=
  decide_eq_ignore.2 (h.taken (decide_eq_ignore.1 hd))

/-- What was concurrent does not become applicable. -/
theorem RowsGrow.decide_concurrent {Q : VersionVector → Prop} {st st' : Store}
    (h : RowsGrow Q st st') {p : Path} {vv : VersionVector}
    (hd : Decision.decide (st.loadFile p) vv = .concurrent) :
    Decision.decide (st'.loadFile p) vv ≠ .apply := by
  intro happly
  obtain ⟨r, hr, -, hnot⟩ := decide_eq_concurrent.1 hd
  obtain ⟨r', hr', hle⟩ := h.taken ⟨r, hr, le_rfl⟩
  exact hnot (hle.trans (decide_eq_apply.1 happly r' hr').le)

/-- Only an `apply` can turn into an `apply`. -/
theorem RowsGrow.decide_apply {Q : VersionVector → Prop} {st st' : Store} (h : RowsGrow Q st st')
    {p : Path} {vv : VersionVector} (hd : Decision.decide (st'.loadFile p) vv = .apply) :
    Decision.decide (st.loadFile p) vv = .apply := by
  cases hst : Decision.decide (st.loadFile p) vv with
  | apply => rfl
  | ignore =>
    rw [h.decide_ignore hst] at hd
    cases hd
  | concurrent => exact absurd hd (h.decide_concurrent hst)
  | quarantined => exact absurd hst (Decision.decide_ne_quarantined _ _)

/-- A decision that is not `apply` commits what the re-validated `apply` would. -/
theorem applyRemote_store_eq {st : Store} {op : OpRecord} {d : Decision}
    (h : d = .apply ∨ Decision.decide (st.loadFile op.path) op.vv ≠ .apply) :
    (st.applyRemote op d).map Prod.snd = (st.applyRemote op .apply).map Prod.snd := by
  rcases h with rfl | hnot
  · rfl
  · have hprimary : ∀ d', ((st.insertOp op).applyPrimary op d').2 = st.insertOp op := by
      intro d'
      have hfile : (st.insertOp op).loadFile op.path = st.loadFile op.path := by
        rw [loadFile, insertOp_files, loadFile]
      unfold applyPrimary
      dsimp only
      rw [hfile]
      split_ifs <;> rfl
    unfold applyRemote
    split_ifs
    · rfl
    · simp only [hprimary]
      cases (st.insertOp op).applySource op <;> rfl

section

variable [Blake3]

/-- **Decisions only move towards `ignore`.**  In every run of a store, for every path and every
vector: once ignored, always ignored, and never from concurrent to applicable.  So a resolution
called after a concurrent decision never finds the version applicable, and an op recorded under the
decision taken earlier leaves the store that recording it under `apply` would. -/
theorem decisions_move_towards_ignore (nodeId : NodeId) {s s' : Store}
    (_hs : (commands nodeId).Reach {} s) (hs' : (commands nodeId).Reach s s') (p : Path)
    (vv : VersionVector) :
    (Decision.decide (s.loadFile p) vv = .ignore → Decision.decide (s'.loadFile p) vv = .ignore) ∧
    (Decision.decide (s.loadFile p) vv = .concurrent →
      Decision.decide (s'.loadFile p) vv ≠ .apply) ∧
    (∀ remote staged st, remote.vv = vv → Decision.decide (s.loadFile p) vv = .concurrent →
      s'.resolveRows p remote staged ≠ .ok (.notConcurrent .apply, st)) ∧
    ∀ op : OpRecord, op.path = p → op.vv = vv →
      (s'.applyRemote op (Decision.decide (s.loadFile p) vv)).map Prod.snd =
        (s'.applyRemote op .apply).map Prod.snd := by
  have hgrow := rowsGrow_run hs'
  refine ⟨hgrow.decide_ignore, hgrow.decide_concurrent, ?_, ?_⟩
  · rintro remote staged st rfl hd hrun
    have hnot := hgrow.decide_concurrent hd
    rw [resolveRows_eq, Except.ok.injEq] at hrun
    split_ifs at hrun with hconc
    · rw [Prod.mk.injEq, ResolveOutcome.notConcurrent.injEq] at hrun
      exact hnot hrun.1
    · split at hrun
      · cases hrun
      · split_ifs at hrun <;> cases hrun
  · rintro op rfl rfl
    refine applyRemote_store_eq ?_
    by_cases hd : Decision.decide (s'.loadFile op.path) op.vv = .apply
    · exact .inl (hgrow.decide_apply hd)
    · exact .inr hd

end

section Example

attribute [local instance] Blake3.polynomial in
/-- Node 2's write is concurrent when it is decided, and node 1 writes again before it is
committed. -/
theorem decision_after_local_write :
    let s := exec 1 {} (.appendLocal writeF)
    let s' := exec 1 s (.appendLocal { writeF with contentHash := some 7 })
    Decision.decide (s.loadFile ['f']) foreignF.vv = .concurrent ∧
      Decision.decide (s'.loadFile ['f']) foreignF.vv ≠ .apply ∧
      (s'.applyRemote foreignF .concurrent).map Prod.snd =
        (s'.applyRemote foreignF .apply).map Prod.snd := by
  intro s s'
  have hs : (commands 1).Reach {} s := Lts.Reach.init.next ⟨by decide, rfl⟩
  have hs' : (commands 1).Reach s s' := Lts.Reach.init.next ⟨by decide, rfl⟩
  have hd : Decision.decide (s.loadFile ['f']) foreignF.vv = .concurrent := by decide
  obtain ⟨-, hconc, -, hrecord⟩ := decisions_move_towards_ignore 1 hs hs' ['f'] foreignF.vv
  exact ⟨hd, hconc hd, hd ▸ hrecord foreignF rfl rfl⟩

end Example

/-! ### Quarantine -/

/-- A quarantined op is recorded and nothing else happens: the call succeeds, every row is as
before, an op of this id is logged and counts as applied, and the cursor of its origin has reached
it. -/
def BookkeepingOnly (st : Store) (op : OpRecord) : Prop :=
  ∃ d st', st.applyRemote op .quarantined = .ok (d, st') ∧ st'.files = st.files ∧
    (∃ o ∈ st'.oplog, o.opId = op.opId) ∧ op.opId ∈ st'.applied ∧
    op.originSeq ≤ st'.recvCursor op.origin

/-- All runs of a store. -/
def allCommands [Blake3] (me : NodeId) : Lts Store Command := .ofFun (fun _ _ => True) (exec me)

theorem exists_mem_insertOp (st : Store) (op : OpRecord) :
    ∃ o ∈ (st.insertOp op).oplog, o.opId = op.opId := by
  by_cases h : ∃ o ∈ st.oplog, o.opId = op.opId
  · obtain ⟨o, ho, hid⟩ := h
    exact ⟨o, (mem_insertOp st op).2 (.inl ho), hid⟩
  · push Not at h
    exact ⟨op, (mem_insertOp st op).2 (.inr ⟨rfl, h⟩), rfl⟩

/-- What counts as applied is in the log. -/
theorem applied_logged [Blake3] {me : NodeId} {s : Store} (hs : (allCommands me).Reach {} s) :
    ∀ i ∈ s.applied, ∃ o ∈ s.oplog, o.opId = i := by
  refine hs.invariant (I := fun s => ∀ i ∈ s.applied, ∃ o ∈ s.oplog, o.opId = i) (by simp)
    fun st cmd st' _ ih hstep => ?_
  obtain ⟨-, rfl⟩ := hstep
  have hkeep : ∀ op i, i ∈ st.applied → ∃ o ∈ (st.insertOp op).oplog, o.opId = i := by
    intro op i hi
    obtain ⟨o, ho, hid⟩ := ih i hi
    exact ⟨o, (mem_insertOp st op).2 (.inl ho), hid⟩
  rcases exec_log me st cmd with ⟨hlog, happ, -⟩ | ⟨op, -, -, -, -, hlog, happ⟩ | ⟨op, -, -, hlog, happ⟩
  · rw [hlog, happ]
    exact ih
  · rw [hlog, happ]
    exact hkeep op
  · intro i hi
    rw [hlog]
    rcases happ i hi with hi | rfl
    · exact hkeep op i hi
    · exact exists_mem_insertOp st op

/-- A source row that is tombstoned changes. -/
theorem files_ne_of_source {st : Store} {p : Path} {vv : VersionVector} {uuid : Option NodeId}
    (h : ∀ r, st.files.get? p = some r → r.vv < vv) :
    (st.upsertFile (sourceRow p ((st.vvAt p).merge vv) uuid)).files ≠ st.files := by
  intro heq
  have hrow : (st.upsertFile (sourceRow p ((st.vvAt p).merge vv) uuid)).files.get? p =
      some (sourceRow p ((st.vvAt p).merge vv) uuid).toRow := OrdMap.get?_insert_self _ _ _
  rw [heq] at hrow
  exact lt_irrefl _ ((h _ hrow).trans_le (VersionVector.le_merge_right _ _))

/-- The bookkeeping of an op that has not been handled, when its source effect is `st'`. -/
theorem applyRemote_quarantined {st : Store} {op : OpRecord} (hnew : op.opId ∉ st.applied) :
    st.applyRemote op .quarantined = ((st.insertOp op).applySource op).map fun st' =>
      (.quarantined, (st'.markApplied op.opId).advanceRecvCursor op.origin op.origin op.originSeq) := by
  simp only [applyRemote, hasApplied, hnew, decide_false, Bool.false_eq_true, if_false, applyPrimary,
    reduceCtorEq]
  cases (st.insertOp op).applySource op <;> rfl

/-- **Quarantine touches nothing but the bookkeeping, unless the op is a rename.**  In every state
of every run and for every op: the op is recorded and no row changes if and only if it has been
handled before, or is no rename, or is a rename whose source is given and not below it. -/
theorem quarantine_iff [Blake3] (me : NodeId) {s : Store} (hs : (allCommands me).Reach {} s)
    (op : OpRecord) :
    s.BookkeepingOnly op ↔ op.opId ∈ s.applied ∨ op.opType ≠ .rename ∨
      ∃ old, op.pathOld = some old ∧ Decision.decide (s.loadFile old) op.vv ≠ .apply := by
  by_cases happ : op.opId ∈ s.applied
  · refine ⟨fun _ => .inl happ, fun _ => ⟨_, _, applyRemote_of_applied happ _, rfl,
      applied_logged hs _ happ, happ, ?_⟩⟩
    rw [recvCursor_advanceRecvCursor, if_pos rfl]
    exact le_max_right _ _
  · have hloads : ∀ p, (s.insertOp op).loadFile p = s.loadFile p := fun p => by
      rw [loadFile, insertOp_files, loadFile]
    constructor
    · rintro ⟨d, st', hrun, hfiles, -⟩
      rw [applyRemote_quarantined happ] at hrun
      cases hsrc : (s.insertOp op).applySource op with
      | error e =>
        rw [hsrc] at hrun
        cases hrun
      | ok st₂ =>
        rw [hsrc] at hrun
        cases hrun
        rw [advanceRecvCursor_files, markApplied_files] at hfiles
        rcases applySource_cases hsrc with ⟨-, hnot⟩ | ⟨p, -, -, hdom, rfl⟩
        · by_cases hren : op.opType = .rename
          · cases hold : op.pathOld with
            | none => simp [applySource, hren, hold] at hsrc
            | some old =>
              refine .inr (.inr ⟨old, rfl, fun hd => hnot old hren hold ?_⟩)
              rw [← hloads] at hd
              exact decide_eq_apply.1 hd
          · exact .inr (.inl hren)
        · rw [← insertOp_files s op] at hfiles
          exact absurd hfiles (files_ne_of_source hdom)
    · intro hcond
      have hsrc : (s.insertOp op).applySource op = .ok (s.insertOp op) := by
        rcases hcond with h | hren | ⟨old, hold, hd⟩
        · exact absurd h happ
        · simp [applySource, hren]
        · simp [applySource, hold, hloads, hd]
      refine ⟨_, _, by rw [applyRemote_quarantined happ, hsrc]; rfl, by simp, ?_, ?_, ?_⟩
      · simpa using exists_mem_insertOp s op
      · simp [mem_markApplied]
      · rw [recvCursor_advanceRecvCursor, if_pos rfl]
        exact le_max_right _ _

section Example

attribute [local instance] Blake3.polynomial

/-- A write is recorded, and that is all. -/
theorem quarantined_write_bookkeeping : BookkeepingOnly {} foreignF :=
  (quarantine_iff 1 (s := {}) .init foreignF).2 (.inr (.inl (by decide)))

/-- Node 2 has seen node 1's `f` and renames it to `g`. -/
def renameFG : OpRecord :=
  { foreignF with
    opType := .rename
    path := ['g']
    pathOld := some ['f']
    vv := VersionVector.fromIter [(1, 1), (2, 1)] }

/-- **A quarantined rename removes the source row.** -/
theorem quarantined_rename_tombstones :
    let s := exec 1 {} (.appendLocal writeF)
    (allCommands 1).Reach {} s ∧ ¬ s.BookkeepingOnly renameFG ∧
      (s.files.get? ['f']).map (·.tombstone) = some false ∧
      ((s.exec 1 (.applyRemote renameFG .quarantined)).files.get? ['f']).map (·.tombstone) =
        some true := by
  intro s
  refine ⟨Lts.Reach.init.next (l := .appendLocal writeF) ⟨trivial, rfl⟩, ?_, by decide, by decide⟩
  rintro ⟨d, st', hrun, hfiles, -⟩
  have hexec : s.exec 1 (.applyRemote renameFG .quarantined) = st' := by
    simp only [exec, commit, hrun]
  rw [← hexec] at hfiles
  revert hfiles
  decide

end Example

end Store

end Replicore
