import Replicore.Replica.Handling

/-!
# Handling an op as one step on the tables

`Store.settled` is a resolution that nothing interrupts, and `Store.handled` is what is left of an
op that is handled under a decision.  The replica handles every op under the decision of its path
(`Replica.leaves_eq`).

The tables of the manifests play no part in this: two stores with the same other tables
(`Store.SameTables`) stay so under the same commands.  Whether a dominating op is applied or
quarantined always shows in the rows (`Store.handled_apply_ne_quarantined`).
-/

namespace Replicore

/-! ### Tables without the manifests -/

namespace Store

/-- The tables agree, those of the manifests apart. -/
structure SameTables (st st' : Store) : Prop where
  files : st'.files = st.files
  oplog : st'.oplog = st.oplog
  applied : st'.applied = st.applied
  peerCursors : st'.peerCursors = st.peerCursors

instance (st st' : Store) : Decidable (SameTables st st') :=
  decidable_of_iff (st'.files = st.files ∧ st'.oplog = st.oplog ∧ st'.applied = st.applied ∧
    st'.peerCursors = st.peerCursors)
    ⟨fun ⟨hf, ho, ha, hc⟩ => ⟨hf, ho, ha, hc⟩, fun ⟨hf, ho, ha, hc⟩ => ⟨hf, ho, ha, hc⟩⟩

/-- The tables of `st` with the manifests of `x`. -/
def withManifests (st x : Store) : Store :=
  { st with manifests := x.manifests, manifestChunks := x.manifestChunks }

theorem SameTables.refl (st : Store) : SameTables st st := ⟨rfl, rfl, rfl, rfl⟩

theorem SameTables.symm {st st' : Store} (h : SameTables st st') : SameTables st' st :=
  ⟨h.files.symm, h.oplog.symm, h.applied.symm, h.peerCursors.symm⟩

theorem SameTables.trans {st st' st'' : Store} (h : SameTables st st') (h' : SameTables st' st'') :
    SameTables st st'' :=
  ⟨h'.files.trans h.files, h'.oplog.trans h.oplog, h'.applied.trans h.applied,
    h'.peerCursors.trans h.peerCursors⟩

theorem sameTables_withManifests (st x : Store) : SameTables st (st.withManifests x) :=
  ⟨rfl, rfl, rfl, rfl⟩

theorem SameTables.eq_withManifests {st st' : Store} (h : SameTables st st') :
    st' = st.withManifests st' := by
  obtain ⟨hf, ho, ha, hc⟩ := h
  cases st'
  simp_all [withManifests]

theorem SameTables.putManifest {st st' : Store} (h : SameTables st st') (m : Manifest) :
    SameTables st (st'.putManifest m) :=
  h.trans ⟨rfl, rfl, rfl, rfl⟩

theorem SameTables.loadFile {st st' : Store} (h : SameTables st st') (path : Path) :
    st'.loadFile path = st.loadFile path := by
  rw [Store.loadFile, Store.loadFile, h.files]

theorem SameTables.hasApplied {st st' : Store} (h : SameTables st st') (opId : Hash) :
    st'.hasApplied opId = st.hasApplied opId := by
  rw [Store.hasApplied, Store.hasApplied, h.applied]

/-- The command does not look at the manifests, and keeps them. -/
def Blind {α : Type} (f : Store → Except StoreError (α × Store)) : Prop :=
  ∀ st x, f (st.withManifests x) = (f st).map fun p => (p.1, p.2.withManifests x)

theorem foldl_upsertFile_withManifests (rows : List FileRow) (st x : Store) :
    rows.foldl upsertFile (st.withManifests x) = (rows.foldl upsertFile st).withManifests x := by
  induction rows generalizing st with
  | nil => rfl
  | cons row rows ih =>
    rw [List.foldl_cons, List.foldl_cons, ← ih]
    rfl

theorem blind_resolveRows [Blake3] (path : Path) (remote : Version) (staged : List PlannedRow) :
    Blind fun st => st.resolveRows path remote staged := by
  intro st x
  have hplan : (st.withManifests x).planFor path remote = st.planFor path remote := rfl
  have hload : (st.withManifests x).loadFile path = st.loadFile path := rfl
  simp only [resolveRows_eq, hplan, hload, Except.map]
  split_ifs
  · rfl
  · cases st.planFor path remote with
    | none => rfl
    | some plan =>
      dsimp only
      split_ifs
      · rfl
      · rw [foldl_upsertFile_withManifests]

theorem insertOp_withManifests (st x : Store) (op : OpRecord) :
    (st.withManifests x).insertOp op = (st.insertOp op).withManifests x := by
  unfold insertOp
  change (if st.oplog.any (fun o => o.opId = op.opId) then _ else _) = _
  split_ifs
  · rfl
  · rfl

theorem applyPrimary_withManifests (st x : Store) (op : OpRecord) (d : Decision) :
    (st.withManifests x).applyPrimary op d =
      ((st.applyPrimary op d).1, (st.applyPrimary op d).2.withManifests x) := by
  have hload : (st.withManifests x).loadFile op.path = st.loadFile op.path := rfl
  unfold applyPrimary
  dsimp only
  rw [hload]
  split_ifs
  · rfl
  · rfl
  · rfl

theorem applySource_withManifests (st x : Store) (op : OpRecord) :
    (st.withManifests x).applySource op = (st.applySource op).map (withManifests · x) := by
  unfold applySource
  split_ifs
  · cases op.pathOld with
    | none => rfl
    | some old =>
      have hload : (st.withManifests x).loadFile old = st.loadFile old := rfl
      dsimp only
      rw [hload]
      split_ifs
      · rfl
      · rfl
  · rfl

theorem markApplied_withManifests (st x : Store) (opId : Hash) :
    (st.withManifests x).markApplied opId = (st.markApplied opId).withManifests x := by
  unfold markApplied
  change (if opId ∈ st.applied then _ else _) = _
  split_ifs
  · rfl
  · rfl

theorem blind_applyRemote (op : OpRecord) (d : Decision) : Blind fun st => st.applyRemote op d := by
  intro st x
  have happ : (st.withManifests x).hasApplied op.opId = st.hasApplied op.opId := rfl
  unfold applyRemote
  dsimp only
  rw [happ]
  split_ifs
  · rfl
  · rw [insertOp_withManifests, applyPrimary_withManifests]
    dsimp only
    rw [applySource_withManifests]
    cases ((st.insertOp op).applyPrimary op d).2.applySource op with
    | error e => rfl
    | ok st₂ =>
      simp only [Except.map]
      rw [markApplied_withManifests]
      rfl

/-! ### The abstract steps -/

variable [Blake3]

/-- A resolution of `path` against `remote` that nothing interrupts. -/
def settled (st : Store) (path : Path) (remote : Version) : Store :=
  if Decision.decide (st.loadFile path) remote.vv = .concurrent then
    match st.planFor path remote with
    | none => st
    | some plan => plan.foldl upsertFile st
  else st

/-- The resolution at the source of a rename. -/
def settledSource (st : Store) (op : OpRecord) : Store :=
  match op.opType, op.pathOld with
  | .rename, some oldPath => st.settled oldPath (renameSourceVersion op)
  | _, _ => st

/-- What is left of an op that is recorded under `d` and, unless it is quarantined, settled at its
path and its source.  A record that fails leaves what was there before. -/
def recorded (st : Store) (op : OpRecord) (d : Decision) : Store :=
  match st.applyRemote op d with
  | .error _ => st
  | .ok (e, st') =>
    let st'' := if d = .apply ∧ e = .concurrent then st'.settled op.path (opVersion op) else st'
    if d = .quarantined then st'' else st''.settledSource op

/-- What is left of an op that is handled under `d`. -/
def handled (st : Store) (op : OpRecord) (d : Decision) : Store :=
  if st.hasApplied op.opId then st
  else if d = .concurrent then (st.settled op.path (opVersion op)).recorded op d
  else st.recorded op d

theorem settled_of_ne {st : Store} {path : Path} {remote : Version}
    (h : Decision.decide (st.loadFile path) remote.vv ≠ .concurrent) :
    st.settled path remote = st := if_neg h

theorem settled_of_none {st : Store} {path : Path} {remote : Version}
    (h : st.planFor path remote = none) : st.settled path remote = st := by
  unfold settled
  rw [h]
  split_ifs <;> rfl

theorem settled_of_plan {st : Store} {path : Path} {remote : Version} {plan : List PlannedRow}
    (hd : Decision.decide (st.loadFile path) remote.vv = .concurrent)
    (h : st.planFor path remote = some plan) : st.settled path remote = plan.foldl upsertFile st := by
  unfold settled
  rw [if_pos hd, h]

theorem settledSource_of_source {op : OpRecord} {oldPath : Path} (st : Store)
    (hren : op.opType = .rename) (hold : op.pathOld = some oldPath) :
    st.settledSource op = st.settled oldPath (renameSourceVersion op) := by
  simp only [settledSource, hren, hold]

theorem settledSource_of_not {op : OpRecord} (st : Store)
    (h : ∀ oldPath, op.opType = .rename → op.pathOld = some oldPath → False) :
    st.settledSource op = st := by
  unfold settledSource
  split
  · rename_i oldPath hren hold
    exact (h oldPath hren hold).elim
  · rfl

end Store

/-! ### What the quarantine changes -/

namespace Store

variable {st : Store} {op : OpRecord}

/-- The effect of a dominating op at its path, before anything else happens. -/
theorem applyRemote_apply (hnew : op.opId ∉ st.applied)
    (hd : Decision.decide (st.loadFile op.path) op.vv = .apply) {e : Decision} {st' : Store}
    (hrun : st.applyRemote op .apply = .ok (e, st')) :
    e = .apply ∧ ∃ st₂,
      ((st.insertOp op).upsertFile (appliedRow op ((st.vvAt op.path).merge op.vv))).applySource op =
        .ok st₂ ∧ st'.files = st₂.files := by
  have hdom : ∀ r, (st.insertOp op).files.get? op.path = some r → r.vv < op.vv := by
    rw [insertOp_files]
    exact decide_eq_apply.1 hd
  rcases applyRemote_cases hrun with ⟨hmem, -⟩ | ⟨-, st₂, hsrc, rfl, rfl⟩
  · exact absurd hmem hnew
  · rcases applyPrimary_cases (st.insertOp op) op .apply with ⟨-, hnot⟩ | ⟨-, he, -, hprim⟩
    · exact absurd hdom (hnot rfl)
    · have hvv : (st.insertOp op).vvAt op.path = st.vvAt op.path := vvAt_congr (by rw [insertOp_files])
      rw [hprim, hvv] at hsrc
      exact ⟨he, st₂, hsrc, by rw [advanceRecvCursor_files, markApplied_files]⟩

/-- An op can be recorded if it is no rename, or has a source. -/
theorem applyRemote_isOk (st : Store) (h : op.opType = .rename → op.pathOld ≠ none) (d : Decision) :
    ∃ e st', st.applyRemote op d = .ok (e, st') := by
  unfold applyRemote
  split_ifs
  · exact ⟨_, _, rfl⟩
  · dsimp only
    cases hsrc : ((st.insertOp op).applyPrimary op d).2.applySource op with
    | ok st₂ => exact ⟨_, _, rfl⟩
    | error e =>
      unfold applySource at hsrc
      split_ifs at hsrc with hren
      cases hold : op.pathOld with
      | none => exact absurd hold (h hren)
      | some old =>
        rw [hold] at hsrc
        dsimp only at hsrc
        split_ifs at hsrc

variable [Blake3]

theorem rowsGrow_settled (st : Store) (path : Path) (remote : Version) :
    RowsGrow (fun _ => True) st (st.settled path remote) := by
  by_cases hd : Decision.decide (st.loadFile path) remote.vv = .concurrent
  · cases hplan : st.planFor path remote with
    | none =>
      rw [settled_of_none hplan]
      exact RowsGrow.of_files_eq rfl
    | some plan =>
      have hrun := resolveRows_of_plan hd hplan plan
      rw [if_pos rfl] at hrun
      rw [settled_of_plan hd hplan]
      exact rowsGrow_resolveRows hrun
  · rw [settled_of_ne hd]
    exact RowsGrow.of_files_eq rfl

theorem rowsGrow_settledSource (st : Store) (op : OpRecord) :
    RowsGrow (fun _ => True) st (st.settledSource op) := by
  unfold settledSource
  split
  · exact rowsGrow_settled _ _ _
  · exact RowsGrow.of_files_eq rfl

/-- An op that is handled under `apply` has been taken in at its path. -/
theorem taken_handled_apply (hnew : op.opId ∉ st.applied)
    (hd : Decision.decide (st.loadFile op.path) op.vv = .apply) {e : Decision} {st' : Store}
    (hrun : st.applyRemote op .apply = .ok (e, st')) :
    ∃ r, (st.handled op .apply).files.get? op.path = some r ∧ op.vv ≤ r.vv := by
  obtain ⟨rfl, st₂, hsrc, hfiles⟩ := applyRemote_apply hnew hd hrun
  have hhandled : st.handled op .apply = st'.settledSource op := by
    simp [handled, hasApplied, hnew, recorded, hrun]
  have htaken : ∃ r, st'.files.get? op.path = some r ∧ op.vv ≤ r.vv := by
    rw [hfiles]
    refine (rowsGrow_applySource hsrc).taken
      ⟨(appliedRow op ((st.vvAt op.path).merge op.vv)).toRow, by simp, ?_⟩
    rw [appliedRow_vv]
    exact VersionVector.le_merge_right _ _
  rw [hhandled]
  exact (rowsGrow_settledSource st' op).taken htaken

/-- The row at the path of a quarantined op, as far as the op is not its own source. -/
theorem handled_quarantined_path (hnew : op.opId ∉ st.applied) {e : Decision} {st' : Store}
    (hrun : st.applyRemote op .quarantined = .ok (e, st'))
    (hsrc : op.opType = .rename → op.pathOld ≠ some op.path) :
    (st.handled op .quarantined).files.get? op.path = st.files.get? op.path := by
  have hhandled : st.handled op .quarantined = st' := by
    simp [handled, hasApplied, hnew, recorded, hrun]
  rcases applyRemote_cases hrun with ⟨hmem, -⟩ | ⟨-, st₂, hsource, -, rfl⟩
  · exact absurd hmem hnew
  · rw [hhandled, advanceRecvCursor_files, markApplied_files]
    rcases applySource_cases hsource with ⟨rfl, -⟩ | ⟨p, hren, hold, -, rfl⟩
    · simp [applyPrimary]
    · have hp : p ≠ op.path := fun hp => hsrc hren (by rw [hold, hp])
      refine (OrdMap.get?_insert_of_ne _ _ hp).trans ?_
      simp [applyPrimary]

/-- An op that moves a path onto itself: quarantined, it deletes the path, and otherwise it does
not. -/
theorem handled_ne_of_self (hnew : op.opId ∉ st.applied)
    (hd : Decision.decide (st.loadFile op.path) op.vv = .apply) (hren : op.opType = .rename)
    (hold : op.pathOld = some op.path) {e e' : Decision} {st' st'' : Store}
    (hrun : st.applyRemote op .apply = .ok (e, st'))
    (hrun' : st.applyRemote op .quarantined = .ok (e', st'')) :
    (st.handled op .apply).files ≠ (st.handled op .quarantined).files := by
  obtain ⟨rfl, st₂, hsrc, hfiles⟩ := applyRemote_apply hnew hd hrun
  have hlive : st'.files.get? op.path =
      some (appliedRow op ((st.vvAt op.path).merge op.vv)).toRow := by
    rw [hfiles]
    rcases applySource_cases hsrc with ⟨rfl, -⟩ | ⟨p, -, hp, hdom, -⟩
    · simp
    · -- the op has been taken in at its own source
      rw [hold] at hp
      cases hp
      have hlt := hdom _ (by simp : _ = some (appliedRow op ((st.vvAt op.path).merge op.vv)).toRow)
      rw [appliedRow_vv] at hlt
      exact absurd hlt (VersionVector.le_merge_right _ _).not_gt
  have hhandled : st.handled op .apply = st' := by
    have hne : Decision.decide (st'.loadFile op.path) (renameSourceVersion op).vv ≠ .concurrent := by
      have hign : Decision.decide (st'.loadFile op.path) op.vv = .ignore :=
        decide_eq_ignore.2 ⟨_, hlive, by rw [appliedRow_vv]; exact VersionVector.le_merge_right _ _⟩
      rw [renameSourceVersion, hign]
      simp
    simp [handled, hasApplied, hnew, recorded, hrun, settledSource, hren, hold, settled_of_ne hne]
  have hdead : ∃ row, (st.handled op .quarantined).files.get? op.path = some row ∧
      row.tombstone = true := by
    have hhandled' : st.handled op .quarantined = st'' := by
      simp [handled, hasApplied, hnew, recorded, hrun']
    rcases applyRemote_cases hrun' with ⟨hmem, -⟩ | ⟨-, st₃, hsource, -, rfl⟩
    · exact absurd hmem hnew
    · rw [hhandled', advanceRecvCursor_files, markApplied_files]
      have hprim : ((st.insertOp op).applyPrimary op .quarantined).2 = st.insertOp op := by
        simp [applyPrimary]
      rw [hprim] at hsource
      rcases applySource_cases hsource with ⟨-, hnot⟩ | ⟨p, -, hp, -, rfl⟩
      · refine absurd ?_ (hnot op.path hren hold)
        rw [insertOp_files]
        exact decide_eq_apply.1 hd
      · rw [hold] at hp
        cases hp
        exact ⟨_, OrdMap.get?_insert_self _ _ _, rfl⟩
  obtain ⟨row, hrow, htomb⟩ := hdead
  intro heq
  rw [← heq, hhandled, hlive] at hrow
  cases hrow
  simp [appliedRow, hren] at htomb

/-- Quarantined or applied makes a difference to the rows. -/
theorem handled_apply_ne_quarantined (hnew : op.opId ∉ st.applied)
    (hd : Decision.decide (st.loadFile op.path) op.vv = .apply)
    (hsrc : op.opType = .rename → op.pathOld ≠ none) :
    (st.handled op .apply).files ≠ (st.handled op .quarantined).files := by
  obtain ⟨e, st', hrun⟩ := applyRemote_isOk st hsrc .apply
  obtain ⟨e', st'', hrun'⟩ := applyRemote_isOk st hsrc .quarantined
  by_cases hself : op.opType = .rename ∧ op.pathOld = some op.path
  · exact handled_ne_of_self hnew hd hself.1 hself.2 hrun hrun'
  · intro heq
    obtain ⟨row, hrow, hle⟩ := taken_handled_apply hnew hd hrun
    rw [heq, handled_quarantined_path hnew hrun' fun hren hold => hself ⟨hren, hold⟩] at hrow
    exact absurd (decide_eq_apply.1 hd row hrow) hle.not_gt

/-- A rename without a source is not recorded at all. -/
theorem handled_of_no_source (hren : op.opType = .rename) (hold : op.pathOld = none) {d : Decision}
    (hd : d ≠ .concurrent) : st.handled op d = st := by
  unfold handled
  rw [if_neg hd]
  split_ifs with happ
  · rfl
  · have hrun : st.applyRemote op d = .error (.corrupt "rename op without path_old") := by
      simp [applyRemote, happ, applySource, hren, hold]
    rw [recorded, hrun]

end Store

/-! ### The replica -/

namespace Replica

variable [Blake3]

/-- The tables that `receive` leaves.  If it fails, it fails at the recording of the op: a
resolution before that has been committed. -/
def leaves (r : Replica) (op : OpRecord) : Store :=
  match r.receive op with
  | .ok (_, r') => r'.store
  | .error _ =>
    match r.beforeApply op (Decision.decide (r.store.loadFile op.path) op.vv) with
    | .ok r' => r'.store
    | .error _ => r.store

/-- The loop of the replica settles the path. -/
theorem resolveConflict_settled (r : Replica) (path : Path) (remote : Version) :
    ∃ r', r.resolveConflict path remote = .ok r' ∧ r'.store = r.store.settled path remote := by
  by_cases hd : Decision.decide (r.store.loadFile path) remote.vv = .concurrent
  · cases hplan : r.store.planFor path remote with
    | none =>
      refine ⟨r, ?_, (Store.settled_of_none hplan).symm⟩
      simp [resolveConflict, resolveRounds, Store.resolveRows_eq, hd, hplan]
    | some plan =>
      have hrounds := resolveRounds_of_plan hd hplan
      refine ⟨_, by rw [resolveConflict, hrounds], ?_⟩
      rw [(mirrorRows_store _ path).1, Store.settled_of_plan hd hplan]
  · refine ⟨r, ?_, (Store.settled_of_ne hd).symm⟩
    simp [resolveConflict, resolveRounds, Store.resolveRows_eq, hd]

theorem settleSource_settled (r : Replica) (op : OpRecord) :
    ∃ r', r.settleSource op = .ok r' ∧ r'.store = r.store.settledSource op := by
  unfold settleSource
  split
  · rename_i oldPath hren hold
    rw [Store.settledSource_of_source _ hren hold]
    cases hd : Decision.decide (r.store.loadFile oldPath) op.vv with
    | apply =>
      have hne : Decision.decide (r.store.loadFile oldPath) (renameSourceVersion op).vv ≠
          .concurrent := by rw [renameSourceVersion, hd]; simp
      exact ⟨_, rfl, by rw [syncFsFromRow_store, Store.settled_of_ne hne]⟩
    | ignore =>
      have hne : Decision.decide (r.store.loadFile oldPath) (renameSourceVersion op).vv ≠
          .concurrent := by rw [renameSourceVersion, hd]; simp
      exact ⟨_, rfl, by rw [syncFsFromRow_store, Store.settled_of_ne hne]⟩
    | concurrent =>
      obtain ⟨r', hrun, hst⟩ :=
        resolveConflict_settled (r.syncFsFromRow oldPath) oldPath (renameSourceVersion op)
      rw [syncFsFromRow_store] at hst
      exact ⟨r', hrun, hst⟩
    | quarantined => exact absurd hd (Decision.decide_ne_quarantined _ _)
  · rename_i hnot
    exact ⟨r, rfl, (Store.settledSource_of_not _ hnot).symm⟩

theorem repairDowngrade_settled (r : Replica) (op : OpRecord) (e : Decision) :
    ∃ r', r.repairDowngrade op e = .ok r' ∧ r'.store =
      if e = .concurrent then r.store.settled op.path (opVersion op) else r.store := by
  unfold repairDowngrade
  dsimp only
  split_ifs
  · obtain ⟨r', hrun, hst⟩ :=
      resolveConflict_settled (r.syncFsFromRow op.path) op.path (opVersion op)
    rw [syncFsFromRow_store] at hst
    exact ⟨r', hrun, hst⟩
  · exact ⟨_, rfl, syncFsFromRow_store r op.path⟩

theorem beforeApply_settled (r : Replica) (op : OpRecord) (d : Decision) :
    ∃ r', r.beforeApply op d = .ok r' ∧ r'.store =
      if d = .concurrent then r.store.settled op.path (opVersion op) else r.store := by
  cases d with
  | apply => exact ⟨_, rfl, by simp⟩
  | ignore => exact ⟨_, rfl, by simp⟩
  | concurrent => exact resolveConflict_settled r op.path (opVersion op)
  | quarantined => exact ⟨_, rfl, by simp⟩

theorem afterApply_settled (r : Replica) (op : OpRecord) (d e : Decision) :
    ∃ r', r.afterApply op d e = .ok r' ∧ r'.store =
      let st := if d = .apply ∧ e = .concurrent then r.store.settled op.path (opVersion op)
        else r.store
      if d = .quarantined then st else st.settledSource op := by
  obtain ⟨r₁, hrepair, hst₁⟩ : ∃ r₁,
      (if d = .apply ∧ e ≠ .apply then r.repairDowngrade op e else .ok r) = .ok r₁ ∧
      r₁.store = if d = .apply ∧ e = .concurrent then r.store.settled op.path (opVersion op)
        else r.store := by
    by_cases hdown : d = .apply ∧ e ≠ .apply
    · rw [if_pos hdown]
      simpa [hdown.1] using repairDowngrade_settled r op e
    · refine ⟨r, if_neg hdown, (if_neg fun hboth => hdown ⟨hboth.1, ?_⟩).symm⟩
      rw [hboth.2]
      decide
  have hseq : r.afterApply op d e = Except.bind
      (if d = .apply ∧ e ≠ .apply then r.repairDowngrade op e else .ok r)
      fun r => if d ≠ .quarantined then r.settleSource op else .ok r := by
    unfold afterApply
    split_ifs <;> rfl
  dsimp only
  rw [hseq, hrepair, ← hst₁]
  by_cases hq : d = .quarantined
  · rw [if_pos hq]
    exact ⟨r₁, by simp [hq, Except.bind], rfl⟩
  · rw [if_neg hq]
    simpa [hq, Except.bind] using settleSource_settled r₁ op

/-- The replica handles an op under the decision of its path. -/
theorem leaves_eq (r : Replica) (op : OpRecord) :
    r.leaves op = r.store.handled op (Decision.decide (r.store.loadFile op.path) op.vv) := by
  set d := Decision.decide (r.store.loadFile op.path) op.vv with hd
  unfold leaves Store.handled
  by_cases happ : r.store.hasApplied op.opId
  · simp [receive, happ]
  · obtain ⟨r₁, hbefore, hst₁⟩ := beforeApply_settled r op d
    rw [if_neg happ]
    have hrecorded : (if d = .concurrent then
        (r.store.settled op.path (opVersion op)).recorded op d else r.store.recorded op d) =
          r₁.store.recorded op d := by
      rw [hst₁]
      split_ifs <;> rfl
    rw [hrecorded, Store.recorded, ← hd, hbefore]
    cases hrun : r₁.store.applyRemote op d with
    | error e => simp [receive, happ, ← hd, hbefore, hrun, bind, Except.bind]
    | ok p =>
      obtain ⟨e, st⟩ := p
      obtain ⟨r₂, hafter, hst₂⟩ := afterApply_settled { r₁ with store := st } op d e
      simp only [receive, happ, ← hd, hbefore, hrun, hafter, bind, Except.bind, if_false,
        Bool.false_eq_true]
      exact hst₂

end Replica

end Replicore
