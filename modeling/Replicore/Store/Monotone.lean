import Replicore.Lib.Lts
import Replicore.Store.Frame

/-!
# Rows only grow

A store is driven by five commands, in any order and with any arguments: the decision handed to
`applyRemote` and the plan handed to `resolveRows` may have been computed at any earlier moment.
`RowsGrow Q st st'` says that no row of `st` is lost on the way to `st'`, and that a row that
differs has a strictly larger vector and had a vector in `Q` before.

Every write of a row is one `upsertFile` of a row strictly above the one it replaces
(`RowsGrow.upsert`), so each command is a short composition, and a run is a composition of commands.
-/

namespace Replicore

/-- The commands that write rows. -/
inductive Command
  | appendLocal (change : LocalChange)
  | appendLocalRename (oldPath newPath : Path)
  | applyRemote (op : OpRecord) (decision : Decision)
  | reconcileUpsert (row : ReconciledRow)
  /-- `order` is that of the op history, which its query leaves to SQLite. -/
  | resolveRows (path : Path) (remote : Version) (staged : List PlannedRow) (order : List Hash)

/-- The vector that a remote mutation brings. -/
def Command.incoming : Command → Option VersionVector
  | .applyRemote op _ => some op.vv
  | .reconcileUpsert row => some row.vv
  | _ => none

namespace Store

/-- The tables after a transaction: as they were when it fails. -/
def commit {α : Type} (st : Store) : Except StoreError (α × Store) → Store
  | .ok (_, st') => st'
  | .error _ => st

/-- Run one command on the store of node `nodeId`. -/
def exec [Blake3] (nodeId : NodeId) (st : Store) : Command → Store
  | .appendLocal change => st.commit (st.appendLocal nodeId change)
  | .appendLocalRename oldPath newPath => (st.appendLocalRename nodeId oldPath newPath).2
  | .applyRemote op decision => st.commit (st.applyRemote op decision)
  | .reconcileUpsert row => (st.reconcileUpsert row).2
  | .resolveRows path remote staged order => st.commit (st.resolveRows path remote staged order)

/-- No counter of any row is at `u64::MAX`. -/
def CountersBelowMax (st : Store) : Prop :=
  ∀ p r, st.files.get? p = some r → ∀ n, r.vv.get n + 1 < u64Bound

theorem countersBelowMax_iff (st : Store) :
    st.CountersBelowMax ↔
      ∀ e ∈ st.files.entries, ∀ c ∈ e.2.vv.map.entries, c.2 + 1 < u64Bound := by
  constructor
  · intro h e he c hc
    have := h e.1 e.2 (OrdMap.mem_entries.1 he) c.1
    rwa [VersionVector.get, OrdMap.getD, OrdMap.mem_entries.1 hc] at this
  · intro h p r hr n
    cases hn : r.vv.map.get? n with
    | none => rw [VersionVector.get, OrdMap.getD, hn]; decide
    | some c =>
      rw [VersionVector.get, OrdMap.getD, hn]
      exact h _ (OrdMap.mem_entries.2 hr) _ (OrdMap.mem_entries.2 hn)

instance (st : Store) : Decidable st.CountersBelowMax :=
  decidable_of_iff _ (countersBelowMax_iff st).symm

theorem CountersBelowMax.vvAt {st : Store} (hc : st.CountersBelowMax) (p : Path) (n : NodeId) :
    (st.vvAt p).get n + 1 < u64Bound := by
  cases hr : st.files.get? p with
  | none => rw [vvAt_eq_new hr, VersionVector.get_new]; decide
  | some r => rw [vvAt_eq hr]; exact hc p r hr n

/-- The runs of one store: any command, as long as no counter is at `u64::MAX`. -/
def commands [Blake3] (nodeId : NodeId) : Lts Store Command :=
  Lts.ofFun (fun st _ => st.CountersBelowMax) (exec nodeId)

/-- Every row of `st` is still there in `st'`; one that differs has grown, from a vector in `Q`. -/
def RowsGrow (Q : VersionVector → Prop) (st st' : Store) : Prop :=
  ∀ p r, st.files.get? p = some r →
    ∃ r', st'.files.get? p = some r' ∧ (r' = r ∨ r.vv < r'.vv ∧ Q r.vv)

namespace RowsGrow

variable {Q Q' : VersionVector → Prop} {st st' st'' : Store}

theorem of_files_eq (h : st'.files = st.files) : RowsGrow Q st st' := fun p r hr =>
  ⟨r, by rw [h, hr], .inl rfl⟩

theorem mono (h : RowsGrow Q st st') (hQ : ∀ v, Q v → Q' v) : RowsGrow Q' st st' := by
  intro p r hr
  obtain ⟨r', hr', hor⟩ := h p r hr
  exact ⟨r', hr', hor.imp_right fun ⟨hlt, hq⟩ => ⟨hlt, hQ _ hq⟩⟩

theorem trans (h : RowsGrow Q st st') (h' : RowsGrow Q st' st'') : RowsGrow Q st st'' := by
  intro p r hr
  obtain ⟨r', hr', hor⟩ := h p r hr
  obtain ⟨r'', hr'', hor'⟩ := h' p r' hr'
  refine ⟨r'', hr'', ?_⟩
  rcases hor with rfl | ⟨hlt, hq⟩
  · exact hor'
  · rcases hor' with rfl | ⟨hlt', -⟩
    · exact .inr ⟨hlt, hq⟩
    · exact .inr ⟨hlt.trans hlt', hq⟩

/-- The one way a row is written: over a row whose vector is strictly below. -/
theorem upsert (row : FileRow)
    (h : ∀ r, st.files.get? row.path = some r → r.vv < row.vv ∧ Q r.vv) :
    RowsGrow Q st (st.upsertFile row) := by
  intro p r hr
  by_cases hp : row.path = p
  · subst hp
    exact ⟨row.toRow, by simp, .inr (h r hr)⟩
  · refine ⟨r, ?_, .inl rfl⟩
    rw [upsertFile_files, OrdMap.get?_insert_of_ne _ _ hp, hr]

/-- What has been taken in stays so. -/
theorem taken {p : Path} {vv : VersionVector} (h : RowsGrow Q st st')
    (hst : ∃ r, st.files.get? p = some r ∧ vv ≤ r.vv) :
    ∃ r, st'.files.get? p = some r ∧ vv ≤ r.vv := by
  obtain ⟨r, hr, hle⟩ := hst
  obtain ⟨r', hr', hor⟩ := h p r hr
  refine ⟨r', hr', ?_⟩
  rcases hor with rfl | ⟨hlt, -⟩
  · exact hle
  · exact hle.trans hlt.le

end RowsGrow

/-! ### The remote commands -/

/-- A row that absorbs a vector strictly above its own grows. -/
theorem lt_merge_of_lt {st : Store} {p : Path} {vv : VersionVector} {r : Row}
    (h : ∀ r, st.files.get? p = some r → r.vv < vv) (hr : st.files.get? p = some r) :
    r.vv < (st.vvAt p).merge vv :=
  (h r hr).trans_le (VersionVector.le_merge_right _ _)

@[simp] theorem appliedRow_path (op : OpRecord) (vv : VersionVector) :
    (appliedRow op vv).path = op.path := by
  unfold appliedRow; cases op.opType <;> rfl

@[simp] theorem appliedRow_vv (op : OpRecord) (vv : VersionVector) :
    (appliedRow op vv).vv = vv := by
  unfold appliedRow; cases op.opType <;> rfl

theorem rowsGrow_applyPrimary (st : Store) (op : OpRecord) (d : Decision) :
    RowsGrow (· < op.vv) st (st.applyPrimary op d).2 := by
  rcases applyPrimary_cases st op d with ⟨h, -⟩ | ⟨-, -, hdom, h⟩
  · exact RowsGrow.of_files_eq (by rw [h])
  · rw [h]
    refine RowsGrow.upsert _ fun r hr => ?_
    rw [appliedRow_path] at hr
    rw [appliedRow_vv]
    exact ⟨lt_merge_of_lt hdom hr, hdom r hr⟩

theorem rowsGrow_applySource {st st' : Store} {op : OpRecord} (h : st.applySource op = .ok st') :
    RowsGrow (· < op.vv) st st' := by
  rcases applySource_cases h with ⟨rfl, -⟩ | ⟨p, -, -, hdom, rfl⟩
  · exact RowsGrow.of_files_eq rfl
  · exact RowsGrow.upsert _ fun r hr => ⟨lt_merge_of_lt hdom hr, hdom r hr⟩

theorem rowsGrow_applyRemote {st st' : Store} {op : OpRecord} {d e : Decision}
    (h : st.applyRemote op d = .ok (e, st')) : RowsGrow (· < op.vv) st st' := by
  rcases applyRemote_cases h with ⟨-, -, rfl⟩ | ⟨-, st₂, hsrc, -, rfl⟩
  · exact RowsGrow.of_files_eq rfl
  · have hins : RowsGrow (· < op.vv) st (st.insertOp op) := RowsGrow.of_files_eq (by simp)
    have hprim := hins.trans (rowsGrow_applyPrimary (st.insertOp op) op d)
    refine (hprim.trans (rowsGrow_applySource hsrc)).trans ?_
    exact RowsGrow.of_files_eq (by simp)

theorem rowsGrow_reconcileUpsert (st : Store) (row : ReconciledRow) :
    RowsGrow (· < row.vv) st (st.reconcileUpsert row).2 := by
  unfold reconcileUpsert
  dsimp only
  split_ifs with hd
  · refine RowsGrow.upsert _ fun r hr => ?_
    have hdom := decide_eq_apply.1 hd
    dsimp only at hr ⊢
    rw [mergedVv_eq]
    exact ⟨lt_merge_of_lt hdom hr, hdom r hr⟩
  · exact RowsGrow.of_files_eq rfl

/-! ### The local commands -/

section

variable [Blake3] {nodeId : NodeId}

theorem rowsGrow_appendLocal {st st' : Store} {change : LocalChange} {o : Option OpRecord}
    (hc : st.CountersBelowMax) (h : st.appendLocal nodeId change = .ok (o, st')) :
    RowsGrow (fun _ => True) st st' := by
  rcases appendLocal_cases h with ⟨-, rfl, -⟩ | ⟨-, -, -, hfiles, -, -, -⟩
  · exact RowsGrow.of_files_eq rfl
  · have hup : RowsGrow (fun _ => True) st
        (st.upsertFile (localRow (localOp nodeId st change))) := by
      refine RowsGrow.upsert _ fun r hr => ⟨?_, trivial⟩
      change st.files.get? change.path = some r at hr
      have hvv : (localRow (localOp nodeId st change)).vv = r.vv.increment nodeId := by
        simp only [localRow, localOp, loadRow_vv, vvAt_eq hr]
      rw [hvv]
      exact VersionVector.lt_increment (hc _ r hr nodeId)
    intro p r hr
    obtain ⟨r', hr', hor⟩ := hup p r hr
    exact ⟨r', by rw [hfiles]; exact hr', hor⟩

/-- A rename increments the join of its two rows. -/
theorem renameOp_vv_eq (nodeId : NodeId) {st : Store} {old : Path} (new : Path) {src : FileRow}
    (hsrc : st.loadRow old = some src) :
    (renameOp nodeId st old new src).vv = ((st.vvAt old).merge (st.vvAt new)).increment nodeId := by
  rw [vvAt_eq (loadRow_eq_some.1 hsrc).1]
  cases hdst : st.loadRow new with
  | none =>
    rw [vvAt_eq_new (loadRow_eq_none.1 hdst)]
    simp only [renameOp, hdst]
    rfl
  | some dst =>
    rw [vvAt_eq (loadRow_eq_some.1 hdst).1]
    simp only [renameOp, hdst]

/-- The op of a local rename is strictly above the rows at both of its paths. -/
theorem vvAt_lt_renameOp {nodeId : NodeId} {st : Store} {old new : Path}
    (hold : (st.vvAt old).get nodeId + 1 < u64Bound)
    (hnew : (st.vvAt new).get nodeId + 1 < u64Bound) {src : FileRow}
    (hsrc : st.loadRow old = some src) :
    st.vvAt old < (renameOp nodeId st old new src).vv ∧
      st.vvAt new < (renameOp nodeId st old new src).vv := by
  have hget := fun n => VersionVector.get_merge (st.vvAt old) (st.vvAt new) n
  have hmax : ((st.vvAt old).merge (st.vvAt new)).get nodeId + 1 < u64Bound := by
    rw [hget]
    omega
  have hlt := VersionVector.lt_increment hmax
  rw [renameOp_vv_eq nodeId new hsrc]
  constructor
  · exact lt_of_le_of_lt (fun n => by rw [hget]; exact le_max_left _ _) hlt
  · exact lt_of_le_of_lt (fun n => by rw [hget]; exact le_max_right _ _) hlt

theorem rowsGrow_appendLocalRename {st : Store} (hc : st.CountersBelowMax) (old new : Path) :
    RowsGrow (fun _ => True) st (st.appendLocalRename nodeId old new).2 := by
  rcases appendLocalRename_cases nodeId st old new with h | ⟨src, hsrc, -, hne, h⟩
  · rw [h]
    exact RowsGrow.of_files_eq rfl
  · rw [h]
    obtain ⟨hold, hnew⟩ := vvAt_lt_renameOp (hc.vvAt old nodeId) (hc.vvAt new nodeId) hsrc
    have hins : RowsGrow (fun _ => True) st (st.insertOp (renameOp nodeId st old new src)) :=
      RowsGrow.of_files_eq (by simp)
    have hsource : RowsGrow (fun _ => True) (st.insertOp (renameOp nodeId st old new src)) _ :=
      RowsGrow.upsert (sourceRow old (renameOp nodeId st old new src).vv
        (renameOp nodeId st old new src).uuid) fun r hr => by
          rw [insertOp_files] at hr
          exact ⟨vvAt_eq hr ▸ hold, trivial⟩
    refine (hins.trans hsource).trans ?_
    refine RowsGrow.upsert _ fun r hr => ⟨?_, trivial⟩
    -- the target is another path, so its row is still the one before the command
    change ((st.insertOp _).files.insert old _).get? new = some r at hr
    rw [OrdMap.get?_insert_of_ne _ _ hne, insertOp_files] at hr
    exact vvAt_eq hr ▸ hnew

/-! ### Resolution -/

/-- A resolution's candidates cover the current row. -/
theorem row_le_mergeAll_candidates (st : Store) (path : Path) (remote : Version)
    (localRow : FileRow) (order : List Hash) :
    localRow.vv ≤ mergeAll (st.candidates path remote localRow order) := by
  unfold candidates
  dsimp only
  split
  · rename_i h
    exact (VersionVector.compare_eq_dominates.1 h).le
  · rename_i h
    exact (VersionVector.compare_eq_equal.1 h).2
  · exact le_mergeAll (c := Version.fromRow localRow.toRow) (by simp)

theorem remote_mem_candidates (st : Store) (path : Path) (remote : Version) (localRow : FileRow)
    (order : List Hash) : remote ∈ st.candidates path remote localRow order := by
  unfold candidates
  dsimp only
  split <;> simp

theorem lookupVersion_eq {st : Store} {p : Path} {r : Row} (h : st.files.get? p = some r) :
    st.lookupVersion p = some (Version.fromRow r) := by
  simp [lookupVersion, h]

/-- Every row of a plan is strictly above the row it replaces. -/
theorem lt_of_mem_plan {st : Store} {path : Path} {remote : Version} {localRow : FileRow}
    {rows : List PlannedRow} {order : List Hash} (hloc : st.loadRow path = some localRow)
    (hconc : Decision.decide (st.loadFile path) remote.vv = .concurrent)
    (h : planCandidates path (st.candidates path remote localRow order) st.lookupVersion =
      some rows)
    {row : PlannedRow} (hrow : row ∈ rows) {r : Row} (hr : st.files.get? row.path = some r) :
    r.vv < row.vv := by
  obtain ⟨winner, losers, copies, -, rfl, hcopies, -⟩ := planCandidates_spec h
  rcases List.mem_cons.1 hrow with rfl | hmem
  · obtain ⟨r₀, hr₀, hnle, -⟩ := decide_eq_concurrent.1 hconc
    have hloc' := (loadRow_eq_some.1 hloc).1
    change st.files.get? path = some r at hr
    rw [hloc'] at hr hr₀
    cases hr
    cases hr₀
    refine lt_iff_le_not_ge.2 ⟨row_le_mergeAll_candidates st path remote localRow _, fun hge => ?_⟩
    exact hnle ((le_mergeAll (remote_mem_candidates st path remote localRow _)).trans hge)
  · exact (hcopies row hmem).above _ (lookupVersion_eq hr)

theorem rowsGrow_resolveRows {st st' : Store} {path : Path} {remote : Version}
    {staged : List PlannedRow} {order : List Hash} {out : ResolveOutcome}
    (h : st.resolveRows path remote staged order = .ok (out, st')) :
    RowsGrow (fun _ => True) st st' := by
  rcases resolveRows_cases h with ⟨-, rfl⟩ | ⟨-, hconc, localRow, hloc, hplan, rfl⟩
  · exact RowsGrow.of_files_eq rfl
  · intro p r hr
    rw [foldl_upsertFile_files]
    obtain ⟨winner, losers, copies, -, -, -, hnd⟩ := planCandidates_spec hplan
    by_cases hp : p ∈ staged.map (·.path)
    · obtain ⟨row, hrow, rfl⟩ := List.mem_map.1 hp
      refine ⟨row.toRow, ?_, .inr ⟨lt_of_mem_plan hloc hconc hplan hrow hr, trivial⟩⟩
      refine OrdMap.get?_upsertAll_of_mem ?_ (List.mem_map_of_mem (f := fun r : FileRow =>
        (r.path, r.toRow)) hrow)
      simpa [Function.comp_def] using hnd
    · refine ⟨r, ?_, .inl rfl⟩
      rw [OrdMap.get?_upsertAll_of_notMem, hr]
      simpa using hp

/-! ### One command, every run -/

/-- One command loses no row, and lets a row change only upwards; a remote mutation changes only
rows strictly below the vector it brings. -/
theorem rowsGrow_exec (nodeId : NodeId) {st : Store} (hc : st.CountersBelowMax) (cmd : Command) :
    RowsGrow (fun v => ∀ vv, cmd.incoming = some vv → v < vv) st (st.exec nodeId cmd) := by
  cases cmd with
  | appendLocal change =>
    cases h : st.appendLocal nodeId change with
    | error e => simp only [exec, commit, h]; exact RowsGrow.of_files_eq rfl
    | ok x =>
      simp only [exec, commit, h]
      exact (rowsGrow_appendLocal hc h).mono fun v _ vv hvv => by cases hvv
  | appendLocalRename old new =>
    exact (rowsGrow_appendLocalRename hc old new).mono fun v _ vv hvv => by cases hvv
  | applyRemote op d =>
    cases h : st.applyRemote op d with
    | error e => simp only [exec, commit, h]; exact RowsGrow.of_files_eq rfl
    | ok x =>
      simp only [exec, commit, h]
      exact (rowsGrow_applyRemote h).mono fun v hv vv hvv => by cases hvv; exact hv
  | reconcileUpsert row =>
    exact (rowsGrow_reconcileUpsert st row).mono fun v hv vv hvv => by cases hvv; exact hv
  | resolveRows path remote staged order =>
    cases h : st.resolveRows path remote staged order with
    | error e => simp only [exec, commit, h]; exact RowsGrow.of_files_eq rfl
    | ok x =>
      simp only [exec, commit, h]
      exact (rowsGrow_resolveRows h).mono fun v _ vv hvv => by cases hvv

/-- Along a run rows only grow. -/
theorem rowsGrow_run {st st' : Store} (h : (commands nodeId).Reach st st') :
    RowsGrow (fun _ => True) st st' := by
  refine h.invariant (RowsGrow.of_files_eq rfl) fun s cmd s' _ ih hstep => ?_
  obtain ⟨hc, rfl⟩ := hstep
  exact ih.trans ((rowsGrow_exec nodeId hc cmd).mono fun _ _ => trivial)

/-- **Row monotonicity, no blind overwrite.**  In every run of a store: no row disappears and no
vector shrinks between any two moments; whenever a command changes any field of a row, the row's
vector strictly increases; and a row changed by a remote op or a reconciled row was strictly below
the incoming vector when the change was committed, whatever decision the caller had computed. -/
theorem rows_grow_without_blind_overwrite (nodeId : NodeId) {s s' : Store}
    (_hs : (commands nodeId).Reach {} s) (hs' : (commands nodeId).Reach s s') :
    (∀ p r, s.files.get? p = some r → ∃ r', s'.files.get? p = some r' ∧ r.vv ≤ r'.vv ∧
      (r' ≠ r → r.vv < r'.vv)) ∧
    (s'.CountersBelowMax → ∀ cmd p r, s'.files.get? p = some r →
      ∃ r', (s'.exec nodeId cmd).files.get? p = some r' ∧ r.vv ≤ r'.vv ∧
        (r' ≠ r → r.vv < r'.vv ∧ ∀ vv, cmd.incoming = some vv → r.vv < vv)) := by
  constructor
  · intro p r hr
    obtain ⟨r', hr', rfl | ⟨hlt, -⟩⟩ := rowsGrow_run hs' p r hr
    · exact ⟨r', hr', le_rfl, fun h => absurd rfl h⟩
    · exact ⟨r', hr', hlt.le, fun _ => hlt⟩
  · intro hc cmd p r hr
    obtain ⟨r', hr', rfl | ⟨hlt, hq⟩⟩ := rowsGrow_exec nodeId hc cmd p r hr
    · exact ⟨r', hr', le_rfl, fun h => absurd rfl h⟩
    · exact ⟨r', hr', hlt.le, fun _ => ⟨hlt, hq⟩⟩

end

section Example

/-- Node 1 writes `f`. -/
def writeF : LocalChange where
  path := ['f']
  opType := .write
  mode := 0o644
  size := 3
  contentHash := some 5
  metadata := none
  manifest := none

/-- Node 2 wrote `f` without having seen node 1's write. -/
def foreignF : OpRecord where
  opId := 9
  origin := 2
  originSeq := 1
  opType := .write
  path := ['f']
  pathOld := none
  uuid := some 2
  mode := 0o644
  size := 4
  contentHash := some 6
  metadata := none
  vv := VersionVector.fromIter [(2, 1)]

attribute [local instance] Blake3.polynomial in
/-- The run in which node 2's op commits under a stale `apply`: node 1's row is still there, and a
redelivery with the same decision would not touch it either. -/
theorem rows_grow_stale_apply :
    let s := exec 1 {} (.appendLocal writeF)
    let s' := exec 1 s (.applyRemote foreignF .apply)
    (∃ r', s'.files.get? ['f'] = some r' ∧ VersionVector.fromIter [(1, 1)] ≤ r'.vv) ∧
    ∃ r', (s'.exec 1 (.applyRemote foreignF .apply)).files.get? ['f'] = some r' ∧
      r'.vv.get 1 = 1 := by
  intro s s'
  have hs : (commands 1).Reach {} s := Lts.Reach.init.next ⟨by decide, rfl⟩
  have hs' : (commands 1).Reach s s' := Lts.Reach.init.next ⟨by decide, rfl⟩
  obtain ⟨hrun, hstep⟩ := rows_grow_without_blind_overwrite 1 hs hs'
  constructor
  · obtain ⟨r', hr', hle, -⟩ := hrun ['f'] (localRow (localOp 1 {} writeF)).toRow (by decide)
    exact ⟨r', hr', hle⟩
  · obtain ⟨r', hr', -, hch⟩ := hstep (by decide) (.applyRemote foreignF .apply) ['f']
      (localRow (localOp 1 {} writeF)).toRow (by decide)
    refine ⟨r', hr', ?_⟩
    have hsame : r' = (localRow (localOp 1 {} writeF)).toRow := by
      by_contra hne
      exact absurd ((hch hne).2 foreignF.vv rfl) (by decide)
    rw [hsame]
    decide

end Example

end Store

end Replicore
