import Replicore.Conflict.Copies
import Replicore.Lib.Result
import Replicore.Replica.Basic
import Replicore.Store.Resolve

/-!
# The receive path, command by command

What `Replica.receive` does to the store, for an op that is no rename.  A concurrent op is resolved
in two rounds: the first is refused with the plan, the second commits it.  Then the op is recorded.
Nothing runs in between, so no `apply` is downgraded.
-/

namespace Replicore

namespace Store

variable [Blake3]

/-- A resolution round, when there is a plan. -/
theorem resolveRows_of_plan {st : Store} {path : Path} {remote : Version} {plan : List PlannedRow}
    (hd : Decision.decide (st.loadFile path) remote.vv = .concurrent)
    (hplan : st.planFor path remote = some plan) (staged : List PlannedRow) :
    st.resolveRows path remote staged =
      if plan = staged then .ok (.resolved, plan.foldl upsertFile st) else .ok (.stale plan, st) := by
  obtain ⟨localRow, hloc, hplan⟩ := Option.bind_eq_some_iff.1 hplan
  simp only [resolveRows, hd, ne_eq, not_true_eq_false, if_false, hloc, hplan, ite_not]

theorem planFor_ne_nil {st : Store} {path : Path} {remote : Version} {plan : List PlannedRow}
    (hplan : st.planFor path remote = some plan) : plan ≠ [] := by
  obtain ⟨localRow, -, hplan⟩ := Option.bind_eq_some_iff.1 hplan
  obtain ⟨winner, losers, copies, -, rfl, -⟩ := planCandidates_spec hplan
  exact List.cons_ne_nil _ _

/-- There is a plan where only copies stand at copy names. -/
theorem planFor_isSome {st : Store} (h : OnlyCopies st.lookupVersion) {path : Path}
    (remote : Version) (hd : Decision.decide (st.loadFile path) remote.vv = .concurrent) :
    (st.planFor path remote).isSome := by
  obtain ⟨r, hr, -⟩ := decide_eq_concurrent.1 hd
  have hloc : st.loadRow path = some { r with path } := loadRow_eq_some.2 ⟨hr, rfl⟩
  rw [planFor, hloc, Option.bind_some, planCandidates]
  cases hac : antichain (st.candidates path remote { r with path }) with
  | nil =>
    have hremote := remote_mem_candidates st path remote { r with path } []
    exact absurd hac (antichain_ne_nil (List.ne_nil_of_mem hremote))
  | cons winner losers =>
    obtain ⟨added, hplan, -⟩ := planCopies_of_copies h path winner
      [winnerRow path (st.candidates path remote { r with path }) (winner :: losers) winner] losers
    dsimp only
    rw [hplan]
    rfl

/-- The command that commits the plan. -/
theorem exec_resolveRows_of_plan (n : NodeId) {st : Store} {path : Path} {remote : Version}
    {plan : List PlannedRow} (hd : Decision.decide (st.loadFile path) remote.vv = .concurrent)
    (hplan : st.planFor path remote = some plan) :
    st.exec n (.resolveRows path remote plan []) = plan.foldl upsertFile st := by
  simp [exec, commit, resolveRows_of_plan hd hplan]

end Store

namespace Replica

@[simp] theorem setFs_store (r : Replica) (path : Path) (h : Option Hash) :
    (r.setFs path h).store = r.store := by
  cases h <;> rfl

@[simp] theorem setFs_nodeId (r : Replica) (path : Path) (h : Option Hash) :
    (r.setFs path h).nodeId = r.nodeId := by
  cases h <;> rfl

@[simp] theorem writeFs_store (r : Replica) (path : Path) (h : Option Hash) :
    (r.writeFs path h).store = r.store := by
  cases h <;> simp [writeFs]

@[simp] theorem writeFs_nodeId (r : Replica) (path : Path) (h : Option Hash) :
    (r.writeFs path h).nodeId = r.nodeId := by
  cases h <;> simp [writeFs]

@[simp] theorem applyEffect_store (r : Replica) (op : OpRecord) :
    (r.applyEffect op).store = r.store := by
  unfold applyEffect
  split
  · exact writeFs_store _ _ _
  · exact setFs_store _ _ _
  · dsimp only
    split
    · split_ifs <;> simp
    · exact writeFs_store _ _ _

@[simp] theorem applyEffect_nodeId (r : Replica) (op : OpRecord) :
    (r.applyEffect op).nodeId = r.nodeId := by
  unfold applyEffect
  split
  · exact writeFs_nodeId _ _ _
  · exact setFs_nodeId _ _ _
  · dsimp only
    split
    · split_ifs <;> simp
    · exact writeFs_nodeId _ _ _

@[simp] theorem syncFsFromRow_store (r : Replica) (path : Path) :
    (r.syncFsFromRow path).store = r.store := by
  unfold syncFsFromRow
  split
  · split_ifs <;> simp
  · exact setFs_store _ _ _

theorem rowsGrow_syncFsFromRow (r : Replica) (path : Path) :
    Store.RowsGrow (fun _ => True) r.store (r.syncFsFromRow path).store :=
  Store.RowsGrow.of_files_eq (by rw [syncFsFromRow_store])

/-- The mirror touches the file system only. -/
theorem mirrorRows_store (r : Replica) (path : Path) :
    (r.mirrorRows path).store = r.store ∧ (r.mirrorRows path).nodeId = r.nodeId := by
  have hfold : ∀ (rows : List FileRow) (x : Replica),
      (rows.foldl (fun r row => if row.path = path ∨ hasCopyMarker row.path then
        r.setFs row.path (if row.tombstone then none else row.contentHash) else r) x).store =
          x.store ∧
      (rows.foldl (fun r row => if row.path = path ∨ hasCopyMarker row.path then
        r.setFs row.path (if row.tombstone then none else row.contentHash) else r) x).nodeId =
          x.nodeId := by
    intro rows
    induction rows with
    | nil => exact fun x => ⟨rfl, rfl⟩
    | cons row rows ih =>
      intro x
      obtain ⟨hst, hid⟩ := ih (if row.path = path ∨ hasCopyMarker row.path then
        x.setFs row.path (if row.tombstone then none else row.contentHash) else x)
      rw [List.foldl_cons, hst, hid]
      split_ifs <;> simp
  exact hfold _ r

variable [Blake3]

/-- The rounds end with the plan committed. -/
theorem resolveRounds_of_plan {st : Store} {path : Path} {remote : Version}
    {plan : List PlannedRow} (hd : Decision.decide (st.loadFile path) remote.vv = .concurrent)
    (hplan : st.planFor path remote = some plan) :
    resolveRounds path remote 5 st [] = .ok (true, plan.foldl Store.upsertFile st) := by
  have hne := Store.planFor_ne_nil hplan
  simp [resolveRounds, Store.resolveRows_of_plan hd hplan, hne]

/-- The store commands that handling a plain op comes down to. -/
def receiveCommands (st : Store) (op : OpRecord) : List Command :=
  if op.opId ∈ st.applied then []
  else match Decision.decide (st.loadFile op.path) op.vv with
    | .concurrent =>
      [.resolveRows op.path (opVersion op) ((st.planFor op.path (opVersion op)).getD []) [],
        .applyRemote op .concurrent]
    | d => [.applyRemote op d]

/-- The four ways in which an op is handled. -/
theorem receiveCommands_cases (st : Store) (op : OpRecord) :
    (op.opId ∈ st.applied ∧ receiveCommands st op = []) ∨
    (op.opId ∉ st.applied ∧ Decision.decide (st.loadFile op.path) op.vv = .apply ∧
      receiveCommands st op = [.applyRemote op .apply]) ∨
    (op.opId ∉ st.applied ∧ Decision.decide (st.loadFile op.path) op.vv = .ignore ∧
      receiveCommands st op = [.applyRemote op .ignore]) ∨
    (op.opId ∉ st.applied ∧ Decision.decide (st.loadFile op.path) op.vv = .concurrent ∧
      receiveCommands st op =
        [.resolveRows op.path (opVersion op) ((st.planFor op.path (opVersion op)).getD []) [],
          .applyRemote op .concurrent]) := by
  by_cases happ : op.opId ∈ st.applied
  · exact .inl ⟨happ, by simp [receiveCommands, happ]⟩
  · cases hd : Decision.decide (st.loadFile op.path) op.vv with
    | apply => simp [receiveCommands, happ, hd]
    | ignore => simp [receiveCommands, happ, hd]
    | concurrent => simp [receiveCommands, happ, hd]
    | quarantined => exact absurd hd (Decision.decide_ne_quarantined _ _)

/-- The rename step does nothing for other ops. -/
theorem settleSource_of_ne (r : Replica) {op : OpRecord} (h : op.opType ≠ .rename) :
    r.settleSource op = .ok r := by
  unfold settleSource
  split
  · exact absurd ‹_› h
  · rfl

/-- Handling a plain op ends, and runs these commands. -/
theorem receive_eq (r : Replica) {op : OpRecord} (hwf : op.WellFormed) (hop : op.opType ≠ .rename)
    (hplan : op.opId ∉ r.store.applied →
      Decision.decide (r.store.loadFile op.path) op.vv = .concurrent →
      (r.store.planFor op.path (opVersion op)).isSome) :
    ∃ d r', r.receive op = .ok (d, r') ∧ r'.nodeId = r.nodeId ∧
      r'.store = (receiveCommands r.store op).foldl (Store.exec r.nodeId) r.store := by
  by_cases happ : op.opId ∈ r.store.applied
  · refine ⟨none, r, ?_, rfl, ?_⟩
    · simp [receive, Store.hasApplied, happ]
    · simp [receiveCommands, happ]
  · cases hd : Decision.decide (r.store.loadFile op.path) op.vv with
    | apply =>
      obtain ⟨e, st', hrun, -, -, heff, -⟩ := Store.applyRemote_files hwf happ .apply
      have he : e = .apply := heff rfl (Store.decide_eq_apply.1 hd)
      refine ⟨some .apply, { r.applyEffect op with store := st' }, ?_, applyEffect_nodeId r op, ?_⟩
      · simp [receive, Store.hasApplied, happ, hd, beforeApply, hrun, afterApply, he,
          settleSource_of_ne _ hop, bind, Except.bind]
      · simp [receiveCommands, happ, hd, Store.exec, Store.commit, hrun]
    | ignore =>
      obtain ⟨e, st', hrun, -, -, -, heff, -⟩ := Store.applyRemote_files hwf happ .ignore
      have he : e = .ignore := heff (by decide)
      refine ⟨some .ignore, { r with store := st' }, ?_, rfl, ?_⟩
      · simp [receive, Store.hasApplied, happ, hd, beforeApply, hrun, afterApply, he,
          settleSource_of_ne _ hop, bind, Except.bind]
      · simp [receiveCommands, happ, hd, Store.exec, Store.commit, hrun]
    | concurrent =>
      obtain ⟨plan, hp⟩ := Option.isSome_iff_exists.1 (hplan happ hd)
      have hrounds := resolveRounds_of_plan hd hp
      set st₁ := plan.foldl Store.upsertFile r.store with hst₁
      have happ₁ : op.opId ∉ st₁.applied := by
        rwa [hst₁, Store.foldl_upsertFile_applied]
      obtain ⟨e, st', hrun, -, -, -, heff, -⟩ := Store.applyRemote_files hwf happ₁ .concurrent
      have he : e = .concurrent := heff (by decide)
      obtain ⟨hmst, hmid⟩ := mirrorRows_store { r with store := st₁ } op.path
      refine ⟨some .concurrent, { ({ r with store := st₁ }.mirrorRows op.path) with store := st' },
        ?_, hmid, ?_⟩
      · simp [receive, Store.hasApplied, happ, hd, beforeApply, resolveConflict, hrounds, hmst, hrun,
          afterApply, he, settleSource_of_ne _ hop, bind, Except.bind]
      · have hcommit : r.store.exec r.nodeId (.resolveRows op.path (opVersion op) plan []) =
            plan.foldl Store.upsertFile r.store := Store.exec_resolveRows_of_plan r.nodeId hd hp
        have hcmds : receiveCommands r.store op =
            [.resolveRows op.path (opVersion op) plan [], .applyRemote op .concurrent] := by
          simp [receiveCommands, happ, hd, hp]
        rw [hcmds, List.foldl_cons, hcommit, ← hst₁]
        simp [Store.exec, Store.commit, hrun]
    | quarantined => exact absurd hd (Decision.decide_ne_quarantined _ _)

/-! ### No row is lost -/

theorem rowsGrow_resolveRounds {path : Path} {remote : Version} {k : ℕ} {st st' : Store}
    {plan : List PlannedRow} {b : Bool} (h : resolveRounds path remote k st plan = .ok (b, st')) :
    Store.RowsGrow (fun _ => True) st st' := by
  induction k generalizing st plan with
  | zero =>
    cases h
    exact Store.RowsGrow.of_files_eq rfl
  | succ k ih =>
    unfold resolveRounds at h
    split at h
    · cases h
    · rename_i hres
      cases h
      exact Store.rowsGrow_resolveRows hres
    · rename_i hres
      exact (Store.rowsGrow_resolveRows hres).trans (ih h)
    · rename_i hres
      cases h
      exact Store.rowsGrow_resolveRows hres
    · rename_i hres
      cases h
      exact Store.rowsGrow_resolveRows hres

theorem rowsGrow_resolveConflict {r r' : Replica} {path : Path} {remote : Version}
    (h : r.resolveConflict path remote = .ok r') :
    Store.RowsGrow (fun _ => True) r.store r'.store := by
  unfold resolveConflict at h
  split at h
  · cases h
  · rename_i st hrounds
    cases h
    rw [(mirrorRows_store { r with store := st } path).1]
    exact rowsGrow_resolveRounds hrounds
  · rename_i st hrounds
    cases h
    exact rowsGrow_resolveRounds hrounds

theorem rowsGrow_beforeApply {r r' : Replica} {op : OpRecord} {d : Decision}
    (h : r.beforeApply op d = .ok r') : Store.RowsGrow (fun _ => True) r.store r'.store := by
  unfold beforeApply at h
  split at h
  · cases h
    exact Store.RowsGrow.of_files_eq (by rw [applyEffect_store])
  · exact rowsGrow_resolveConflict h
  · cases h
    exact Store.RowsGrow.of_files_eq rfl

theorem rowsGrow_repairDowngrade {r r' : Replica} {op : OpRecord} {e : Decision}
    (h : r.repairDowngrade op e = .ok r') : Store.RowsGrow (fun _ => True) r.store r'.store := by
  unfold repairDowngrade at h
  dsimp only at h
  split_ifs at h
  · exact (rowsGrow_syncFsFromRow r op.path).trans (rowsGrow_resolveConflict h)
  · cases h
    exact rowsGrow_syncFsFromRow r op.path

theorem rowsGrow_settleSource {r r' : Replica} {op : OpRecord} (h : r.settleSource op = .ok r') :
    Store.RowsGrow (fun _ => True) r.store r'.store := by
  unfold settleSource at h
  split at h
  · split at h
    · cases h
      exact rowsGrow_syncFsFromRow r _
    · cases h
      exact rowsGrow_syncFsFromRow r _
    · exact (rowsGrow_syncFsFromRow r _).trans (rowsGrow_resolveConflict h)
    · cases h
      exact Store.RowsGrow.of_files_eq rfl
  · cases h
    exact Store.RowsGrow.of_files_eq rfl

theorem rowsGrow_afterApply {r r' : Replica} {op : OpRecord} {d e : Decision}
    (h : r.afterApply op d e = .ok r') : Store.RowsGrow (fun _ => True) r.store r'.store := by
  unfold afterApply at h
  split_ifs at h
  · obtain ⟨r₁, hrepair, h⟩ := Result.exists_of_bind_eq_ok h
    exact (rowsGrow_repairDowngrade hrepair).trans (rowsGrow_settleSource h)
  · exact rowsGrow_settleSource h
  · obtain ⟨r₁, hrepair, h⟩ := Result.exists_of_bind_eq_ok h
    cases h
    exact rowsGrow_repairDowngrade hrepair
  · cases h
    exact Store.RowsGrow.of_files_eq rfl

/-- Handling an op, whatever it comes to, loses no row. -/
theorem rowsGrow_receive {r r' : Replica} {op : OpRecord} {d : Option Decision}
    (h : r.receive op = .ok (d, r')) : Store.RowsGrow (fun _ => True) r.store r'.store := by
  unfold receive at h
  split_ifs at h
  · cases h
    exact Store.RowsGrow.of_files_eq rfl
  · obtain ⟨r₁, hbefore, h⟩ := Result.exists_of_bind_eq_ok h
    obtain ⟨⟨e, st⟩, hrun, h⟩ := Result.exists_of_bind_eq_ok h
    obtain ⟨r₂, hafter, h⟩ := Result.exists_of_bind_eq_ok h
    cases h
    exact ((rowsGrow_beforeApply hbefore).trans
      ((Store.rowsGrow_applyRemote hrun).mono fun _ _ => trivial)).trans (rowsGrow_afterApply hafter)

end Replica

end Replicore
