import Mathlib.Data.Char
import Mathlib.Data.List.Lex
import Replicore.Conflict.Plan

/-!
# The store and its commands

The store thread of `oplog.rs` with the row helpers of `state.rs` and the decision of `decide.rs`.
A `Store` is the content of the tables; every command is one transaction, so it is a function of
the tables before it, and a command that fails leaves them as they were (`Except.error`).

* `decide` : apply, ignore or concurrent, from two vectors;
* `Store.appendLocal`, `Store.appendLocalRename` : a local mutation becomes a durable op;
* `Store.applyRemote` : a remote op is recorded and, where it still dominates, materialized;
* `Store.reconcileUpsert` : a row learned by anti-entropy;
* `Store.resolveRows` : a conflict resolution commits if the plan still is the staged one;
* `Store.opsSince`, `Store.recvCursor`, `Store.advanceRecvCursor` : the op stream.
-/

namespace Replicore

/-! ### The decision -/

/-- Local materialized state for a path, as read from the `files` index. -/
structure LocalFile where
  vv : VersionVector
  tombstone : Bool
  contentHash : Option Hash
  mode : U32

/-- What to do with a remote op for one path. -/
inductive Decision
  | apply
  | ignore
  | concurrent
  | quarantined
  deriving DecidableEq, Repr

namespace Decision

/-- Decide the fate of a remote op carrying `remoteVv` for a path whose local state is `loc`. -/
def decide (loc : Option LocalFile) (remoteVv : VersionVector) : Decision :=
  match loc with
  | none => apply
  | some l =>
    match remoteVv.compare l.vv with
    | .dominates => apply
    | .dominated | .equal => ignore
    | .concurrent => concurrent

theorem decide_eq_apply {loc : Option LocalFile} {vv : VersionVector} :
    decide loc vv = .apply ↔ ∀ l, loc = some l → l.vv < vv := by
  cases loc with
  | none => simp [decide]
  | some l =>
    simp only [decide, Option.some.injEq, forall_eq', ← VersionVector.compare_eq_dominates]
    cases vv.compare l.vv <;> simp

theorem decide_eq_ignore {loc : Option LocalFile} {vv : VersionVector} :
    decide loc vv = .ignore ↔ ∃ l, loc = some l ∧ vv ≤ l.vv := by
  cases loc with
  | none => simp [decide]
  | some l =>
    have hle : vv ≤ l.vv ↔ vv.compare l.vv = .dominated ∨ vv.compare l.vv = .equal := by
      rw [VersionVector.compare_eq_dominated, VersionVector.compare_eq_equal, lt_iff_le_not_ge]
      tauto
    simp only [decide, Option.some.injEq, exists_eq_left', hle]
    cases vv.compare l.vv <;> simp

theorem decide_eq_concurrent {loc : Option LocalFile} {vv : VersionVector} :
    decide loc vv = .concurrent ↔ ∃ l, loc = some l ∧ ¬ vv ≤ l.vv ∧ ¬ l.vv ≤ vv := by
  cases loc with
  | none => simp [decide]
  | some l =>
    simp only [decide, Option.some.injEq, exists_eq_left', ← VersionVector.compare_eq_concurrent]
    cases vv.compare l.vv <;> simp

theorem decide_ne_quarantined (loc : Option LocalFile) (vv : VersionVector) :
    decide loc vv ≠ .quarantined := by
  unfold decide
  split
  · simp
  · split <;> simp

end Decision

/-! ### Tables -/

/-- Why a command failed. -/
inductive StoreError
  | corrupt (what : String)
  deriving DecidableEq

/-- One row of `peer_cursors`. -/
structure CursorRow where
  recvCursor : ℤ := 0
  lastAckedSeq : ℤ := 0
  deriving DecidableEq

/-- The tables of the database. -/
structure Store where
  /-- Operation log, in arrival order (`seq`). -/
  oplog : List OpRecord := []
  /-- Materialized current state, keyed by path. -/
  files : OrdMap Path Row := OrdMap.empty
  /-- Ids of the remote ops handled so far. -/
  applied : List Hash := []
  /-- Cursors, keyed by peer and origin. -/
  peerCursors : OrdMap (NodeId ×ₗ NodeId) CursorRow := OrdMap.empty
  /-- Chunk count of every known manifest. -/
  manifests : OrdMap Hash ℕ := OrdMap.empty
  /-- Chunks, keyed by content hash and index. -/
  manifestChunks : OrdMap (Hash ×ₗ ℕ) ChunkEntry := OrdMap.empty
  deriving DecidableEq

instance : Inhabited Store := ⟨{}⟩

/-- Outcome of a `resolveRows` attempt. -/
inductive ResolveOutcome
  | resolved
  | notConcurrent (d : Decision)
  | stale (plan : List PlannedRow)
  | unresolvable
  deriving DecidableEq

namespace Store

/-- Load the full row for one path. -/
def loadRow (st : Store) (path : Path) : Option FileRow :=
  (st.files.get? path).map fun r => { r with path }

/-- Load the decision-relevant state for one path. -/
def loadFile (st : Store) (path : Path) : Option LocalFile :=
  (st.files.get? path).map fun r =>
    { vv := r.vv, tombstone := r.tombstone, contentHash := r.contentHash, mode := r.mode }

/-- Insert or replace the materialized row for a path. -/
def upsertFile (st : Store) (row : FileRow) : Store :=
  { st with files := st.files.insert row.path row.toRow }

/-- Every row, live and tombstoned, ordered by path. -/
def allFiles (st : Store) : List FileRow := st.files.entries.map fun e => { e.2 with path := e.1 }

/-- `INSERT OR IGNORE` into the operation log, unique by op id. -/
def insertOp (st : Store) (op : OpRecord) : Store :=
  if st.oplog.any fun o => o.opId = op.opId then st else { st with oplog := st.oplog ++ [op] }

/-- This op id was durably handled. -/
def hasApplied (st : Store) (opId : Hash) : Bool := opId ∈ st.applied

/-- `INSERT OR IGNORE` into the applied set. -/
def markApplied (st : Store) (opId : Hash) : Store :=
  if opId ∈ st.applied then st else { st with applied := st.applied ++ [opId] }

/-- The largest sequence number of `origin`'s ops in the log, or 0. -/
def latestOriginSeq (st : Store) (origin : NodeId) : ℤ :=
  ((st.oplog.filter fun o => o.origin = origin).map (·.originSeq)).max?.getD 0

/-- `INSERT OR IGNORE` of a manifest's structure. -/
def putManifest (st : Store) (m : Manifest) : Store :=
  { st with
    manifests := if (st.manifests.get? m.contentHash).isSome then st.manifests
      else st.manifests.insert m.contentHash m.chunks.length
    manifestChunks := m.chunks.zipIdx.foldl (fun t c =>
      if (t.get? (toLex (m.contentHash, c.2))).isSome then t
      else t.insert (toLex (m.contentHash, c.2)) c.1) st.manifestChunks }

/-! ### Local commands -/

/-- The tombstone a rename leaves at its source. -/
def sourceRow (path : Path) (vv : VersionVector) (uuid : Option NodeId) : FileRow where
  path := path
  contentHash := none
  mode := 0
  size := 0
  vv := vv
  tombstone := true
  uuid := uuid
  metadata := none

section

variable [Blake3]

/-- The causal no-op filter of `append_local`: the change is already the current state. -/
def isNoOp (loc : Option FileRow) (change : LocalChange) : Bool :=
  match change.opType, loc with
  | .write, some l => !l.tombstone && l.contentHash = change.contentHash &&
      Meta.hashOf l.metadata = Meta.hashOf change.metadata
  | .write, none => false
  | .delete, none => true
  | .delete, some l => l.tombstone
  | .rename, _ => false

/-- The identity of the file after a local change: carried by an overwrite or a delete, minted by a
genuine create. -/
def changeUuid (nodeId : NodeId) (originSeq : ℤ) (loc : Option FileRow) (change : LocalChange) :
    NodeId :=
  match loc with
  | some l =>
    if change.opType = .write ∧ l.tombstone then freshUuid nodeId originSeq change.path
    else l.uuid.getD (migrationUuid change.path)
  | none => freshUuid nodeId originSeq change.path

/-- The op a local change becomes. -/
def localOp (nodeId : NodeId) (st : Store) (change : LocalChange) : OpRecord :=
  let loc := st.loadRow change.path
  let originSeq := st.latestOriginSeq nodeId + 1
  { opId := opIdOf nodeId originSeq
    origin := nodeId
    originSeq
    opType := change.opType
    path := change.path
    pathOld := none
    uuid := some (changeUuid nodeId originSeq loc change)
    mode := change.mode
    size := change.size
    contentHash := change.contentHash
    metadata := change.metadata
    vv := ((loc.map (·.vv)).getD VersionVector.new).increment nodeId }

/-- The row a local change leaves. -/
def localRow (op : OpRecord) : FileRow where
  path := op.path
  contentHash := op.contentHash
  mode := op.mode
  size := op.size
  vv := op.vv
  tombstone := op.opType = .delete
  uuid := op.uuid
  metadata := op.metadata

/-- Local mutation to op, atomically.  `none` when the change is a causal no-op. -/
def appendLocal (nodeId : NodeId) (st : Store) (change : LocalChange) :
    Except StoreError (Option OpRecord × Store) :=
  if change.opType = .rename then .error (.corrupt "rename is not a LocalChange")
  else if isNoOp (st.loadRow change.path) change then .ok (none, st)
  else
    let op := localOp nodeId st change
    let st' := (st.insertOp op).upsertFile (localRow op)
    match change.manifest with
    | none => .ok (some op, st')
    | some m =>
      if some m.contentHash = change.contentHash then .ok (some op, st'.putManifest m)
      else .error (.corrupt "manifest/content_hash mismatch")

/-- The op a local rename becomes: the source's file and lineage at the target, the replaced
target's lineage absorbed. -/
def renameOp (nodeId : NodeId) (st : Store) (oldPath newPath : Path) (src : FileRow) : OpRecord :=
  let originSeq := st.latestOriginSeq nodeId + 1
  let vv := match st.loadRow newPath with
    | some dst => src.vv.merge dst.vv
    | none => src.vv
  { opId := opIdOf nodeId originSeq
    origin := nodeId
    originSeq
    opType := .rename
    path := newPath
    pathOld := some oldPath
    uuid := some (src.uuid.getD (migrationUuid oldPath))
    mode := src.mode
    size := src.size
    contentHash := src.contentHash
    metadata := src.metadata
    vv := vv.increment nodeId }

/-- A locally-observed rename to one op, atomically.  `none` when the source is absent or
tombstoned, or nothing moves. -/
def appendLocalRename (nodeId : NodeId) (st : Store) (oldPath newPath : Path) :
    Option OpRecord × Store :=
  if oldPath = newPath then (none, st)
  else match st.loadRow oldPath with
    | none => (none, st)
    | some src =>
      if src.tombstone then (none, st)
      else
        let op := renameOp nodeId st oldPath newPath src
        (some op, ((st.insertOp op).upsertFile (sourceRow oldPath op.vv op.uuid)).upsertFile
          (localRow op))

end

/-! ### Remote commands -/

/-- The row a dominating op leaves at its path: content for a write or a rename, a tombstone for a
delete. -/
def appliedRow (op : OpRecord) (vv : VersionVector) : FileRow :=
  match op.opType with
  | .write | .rename =>
    { path := op.path, contentHash := op.contentHash, mode := op.mode, size := op.size, vv,
      tombstone := false, uuid := op.uuid, metadata := op.metadata }
  | .delete =>
    { path := op.path, contentHash := none, mode := op.mode, size := 0, vv, tombstone := true,
      uuid := op.uuid, metadata := none }

/-- The vector of the row at `path` with `vv` taken in. -/
def mergedVv (st : Store) (path : Path) (vv : VersionVector) : VersionVector :=
  ((((st.loadFile path).map (·.vv)).getD VersionVector.new)).merge vv

/-- The effect of a remote op at its path: an `apply` is re-validated under the committing
transaction and may be downgraded; another decision is never upgraded. -/
def applyPrimary (st : Store) (op : OpRecord) (decision : Decision) : Decision × Store :=
  if decision = .apply then
    let effective := Decision.decide (st.loadFile op.path) op.vv
    if effective = .apply then
      (effective, st.upsertFile (appliedRow op (st.mergedVv op.path op.vv)))
    else (effective, st)
  else (decision, st)

/-- A rename's second path-effect: tombstone the source where the op dominates it, whatever was
decided at the target. -/
def applySource (st : Store) (op : OpRecord) : Except StoreError Store :=
  if op.opType = .rename then
    match op.pathOld with
    | some oldPath =>
      if Decision.decide (st.loadFile oldPath) op.vv = .apply then
        .ok (st.upsertFile (sourceRow oldPath (st.mergedVv oldPath op.vv) op.uuid))
      else .ok st
    | none => .error (.corrupt "rename op without path_old")
  else .ok st

/-- Cursor row for a peer and an origin, zero when absent. -/
def cursorRow (st : Store) (peer origin : NodeId) : CursorRow :=
  st.peerCursors.getD (toLex (peer, origin)) {}

/-- Monotonic advance of `recv_cursor` at `(peer, origin)`. -/
def advanceRecvCursor (st : Store) (peer origin : NodeId) (upToSeq : ℤ) : Store :=
  let c := st.cursorRow peer origin
  { st with
    peerCursors := st.peerCursors.insert (toLex (peer, origin))
      { c with recvCursor := max c.recvCursor upToSeq } }

/-- Our durable cursor of `peer`'s ops. -/
def recvCursor (st : Store) (peer : NodeId) : ℤ := (st.cursorRow peer peer).recvCursor

/-- Remote op handling, all decisions, one transaction.  Returns the effective decision.  A
redelivered op only moves the cursor. -/
def applyRemote (st : Store) (op : OpRecord) (decision : Decision) :
    Except StoreError (Decision × Store) :=
  if st.hasApplied op.opId then
    .ok (decision, st.advanceRecvCursor op.origin op.origin op.originSeq)
  else
    let (effective, st₁) := (st.insertOp op).applyPrimary op decision
    match st₁.applySource op with
    | .error e => .error e
    | .ok st₂ =>
      .ok (effective, (st₂.markApplied op.opId).advanceRecvCursor op.origin op.origin op.originSeq)

/-- State-plane apply for anti-entropy: only the `files` row, and only if the remote vector still
dominates.  Returns the effective decision. -/
def reconcileUpsert (st : Store) (row : ReconciledRow) : Decision × Store :=
  let effective := Decision.decide (st.loadFile row.path) row.vv
  if effective = .apply then
    (effective, st.upsertFile { row with vv := st.mergedVv row.path row.vv })
  else (effective, st)

/-- The ops as a query without `ORDER BY` returns them: first those whose ids `order` lists, in that
order, and then the others as they arrived. -/
def scanOps (st : Store) (order : List Hash) : List OpRecord :=
  st.oplog.insertionSort fun a b => order.idxOf a.opId ≤ order.idxOf b.opId

theorem perm_scanOps (st : Store) (order : List Hash) : (st.scanOps order).Perm st.oplog :=
  List.perm_insertionSort _ _

@[simp] theorem mem_scanOps {st : Store} {order : List Hash} {o : OpRecord} :
    o ∈ st.scanOps order ↔ o ∈ st.oplog :=
  (st.perm_scanOps order).mem_iff

/-- Without an order, the ops come as they arrived. -/
@[simp] theorem scanOps_nil (st : Store) : st.scanOps [] = st.oplog :=
  List.Pairwise.insertionSort_eq (List.pairwise_of_forall fun _ _ => le_rfl)

section

variable [Blake3]

/-- An op as a candidate at `path`: a rename matched by its source contributes a tombstone. -/
def opAsCandidate (path : Path) (op : OpRecord) : Version :=
  let asSource := op.opType = .rename ∧ op.path ≠ path
  let tombstone := op.opType = .delete ∨ asSource
  let metadata := if tombstone then none else op.metadata
  { tombstone := tombstone
    contentHash := if tombstone then none else op.contentHash
    metaHash := Meta.hashOf metadata
    metadata
    mode := if tombstone then 0 else op.mode
    size := if tombstone then 0 else op.size
    vv := op.vv
    uuid := op.uuid }

/-- The path's op history as resolution candidates, in the order of the query. -/
def opsAsCandidates (st : Store) (path : Path) (order : List Hash := []) : List Version :=
  ((st.scanOps order).filter fun o => o.Affects path).map (opAsCandidate path)

/-- The candidates of a resolution: the ops, the remote version, and the current row only when the
ops do not fully explain its vector. -/
def candidates (st : Store) (path : Path) (remote : Version) (localRow : FileRow)
    (order : List Hash := []) : List Version :=
  let ops := st.opsAsCandidates path order ++ [remote]
  match (mergeAll ops).compare localRow.vv with
  | .dominates | .equal => ops
  | _ => ops ++ [Version.fromRow localRow.toRow]

/-- The existing row at a candidate copy path, as the planner sees it. -/
def lookupVersion (st : Store) (path : Path) : Option Version :=
  (st.files.get? path).map Version.fromRow

/-- Conflict resolution, one transaction: the plan is re-derived from the current tables and
committed only if it is exactly the staged one. -/
def resolveRows (st : Store) (path : Path) (remote : Version) (staged : List PlannedRow)
    (order : List Hash := []) : Except StoreError (ResolveOutcome × Store) :=
  let decision := Decision.decide (st.loadFile path) remote.vv
  if decision ≠ .concurrent then .ok (.notConcurrent decision, st)
  else match st.loadRow path with
    | none => .error (.corrupt "concurrent decision without a row")
    | some localRow =>
      match planCandidates path (st.candidates path remote localRow order) st.lookupVersion with
      | none => .ok (.unresolvable, st)
      | some derived =>
        if derived ≠ staged then .ok (.stale derived, st)
        else .ok (.resolved, derived.foldl upsertFile st)

end

/-! ### The op stream -/

/-- Ascending ops of `origin` strictly after `afterSeq`. -/
def opsSince (st : Store) (origin : NodeId) (afterSeq : ℤ) (limit : ℕ) : List OpRecord :=
  ((st.oplog.filter fun o => o.origin = origin ∧ afterSeq < o.originSeq).insertionSort
    fun a b => a.originSeq ≤ b.originSeq).take limit

/-- Record that `peer` durably acked our ops up to `upToSeq`. -/
def advanceAck (st : Store) (peer ourId : NodeId) (upToSeq : ℤ) : Store :=
  let c := st.cursorRow peer ourId
  { st with
    peerCursors := st.peerCursors.insert (toLex (peer, ourId))
      { c with lastAckedSeq := max c.lastAckedSeq upToSeq } }

end Store

end Replicore
