import Replicore.Store.Monotone

/-!
# One replica

The receive path of a node around its store, as `replica.rs` drives it (`net.rs` runs the same
sequence of store commands against the real file system): a remote op is dropped as a duplicate, or
decided, materialized or resolved, and recorded; a snapshot of another node's rows is taken in row
by row.  The file system is the harness's own, a map from paths to content hashes.
-/

namespace Replicore

/-- In-memory file system: path to content hash. -/
abbrev FakeFs := OrdMap Path Hash

/-- The remote side of a conflict, as carried by a live op. -/
def opVersion [Blake3] (op : OpRecord) : Version where
  tombstone := op.opType = .delete
  contentHash := op.contentHash
  metaHash := Meta.hashOf op.metadata
  metadata := op.metadata
  mode := op.mode
  size := op.size
  vv := op.vv
  uuid := op.uuid

/-- A rename op's source-path effect: a tombstone with the op's lineage. -/
def renameSourceVersion (op : OpRecord) : Version where
  tombstone := true
  contentHash := none
  metaHash := metaNone
  metadata := none
  mode := 0
  size := 0
  vv := op.vv
  uuid := op.uuid

/-- The path and the version of a resolution for `op`. -/
def conflictOf [Blake3] (op : OpRecord) (atSource : Bool) : Option (Path × Version) :=
  if atSource then op.pathOld.map fun oldPath => (oldPath, renameSourceVersion op)
  else some (op.path, opVersion op)

/-- One simulated node. -/
structure Replica where
  nodeId : NodeId
  store : Store := {}
  fs : FakeFs := OrdMap.empty

namespace Replica

/-- Make the file system hold `hash` at `path`, or nothing. -/
def setFs (r : Replica) (path : Path) : Option Hash → Replica
  | some hash => { r with fs := r.fs.insert path hash }
  | none => { r with fs := r.fs.erase path }

/-- The file system write of an op that carries content; without content nothing is written. -/
def writeFs (r : Replica) (path : Path) : Option Hash → Replica
  | some hash => r.setFs path (some hash)
  | none => r

/-- Make the file system agree with the committed row for `path`. -/
def syncFsFromRow (r : Replica) (path : Path) : Replica :=
  match r.store.loadFile path with
  | some row => if row.tombstone then r.setFs path none else r.writeFs path row.contentHash
  | none => r.setFs path none

/-- The file system effect of an op decided `apply`. -/
def applyEffect (r : Replica) (op : OpRecord) : Replica :=
  match op.opType with
  | .write => r.writeFs op.path op.contentHash
  | .delete => r.setFs op.path none
  | .rename =>
    let r' := r.writeFs op.path op.contentHash
    match op.pathOld with
    | some oldPath =>
      if Decision.decide (r.store.loadFile oldPath) op.vv = .apply then r'.setFs oldPath none
      else r'
    | none => r'

variable [Blake3]

/-- A local application writes or deletes a path: the file system, then the ingest append. -/
def localChange (r : Replica) (change : LocalChange) :
    Except StoreError (Option OpRecord × Replica) := do
  let r' := match change.opType with
    | .write => r.writeFs change.path change.contentHash
    | .delete | .rename => r.setFs change.path none
  let (op, st) ← r.store.appendLocal r.nodeId change
  .ok (op, { r' with store := st })

/-- A local application moves `old` to `new`. -/
def localRename (r : Replica) (old new : Path) : Option OpRecord × Replica :=
  let r' := match r.fs.get? old with
    | some hash => (r.setFs old none).setFs new (some hash)
    | none => r
  let (op, st) := r.store.appendLocalRename r.nodeId old new
  (op, { r' with store := st })

/-- The rounds of a resolution: stage the plan the store derived, and commit.  The first component
says whether the rounds ended in a plan. -/
def resolveRounds (path : Path) (remote : Version) :
    ℕ → Store → List PlannedRow → Except StoreError (Bool × Store)
  | 0, st, _ => .ok (true, st)
  | n + 1, st, plan =>
    match st.resolveRows path remote plan with
    | .error e => .error e
    | .ok (.resolved, st') => .ok (true, st')
    | .ok (.stale fresh, st') => resolveRounds path remote n st' fresh
    | .ok (.notConcurrent _, st') => .ok (false, st')
    | .ok (.unresolvable, st') => .ok (false, st')

/-- A path contains the copy marker. -/
def hasCopyMarker (path : Path) : Bool := decide (copyMarker <:+: path)

/-- Mirror the rows a resolution may have written into the file system. -/
def mirrorRows (r : Replica) (path : Path) : Replica :=
  r.store.allFiles.foldl (fun r row =>
    if row.path = path ∨ hasCopyMarker row.path then
      r.setFs row.path (if row.tombstone then none else row.contentHash)
    else r) r

/-- The conflict-resolution loop every concurrent site runs. -/
def resolveConflict (r : Replica) (path : Path) (remote : Version) : Except StoreError Replica :=
  match resolveRounds path remote 5 r.store [] with
  | .error e => .error e
  | .ok (true, st) => .ok ({ r with store := st }.mirrorRows path)
  | .ok (false, st) => .ok { r with store := st }

/-- After a downgraded `apply`: repair the file system, and resolve if the op turned out
concurrent. -/
def repairDowngrade (r : Replica) (op : OpRecord) (effective : Decision) :
    Except StoreError Replica :=
  let r' := r.syncFsFromRow op.path
  if effective = .concurrent then r'.resolveConflict op.path (opVersion op) else .ok r'

/-- The post-step of a rename: repair or resolve what the op did not dominate at its source. -/
def settleSource (r : Replica) (op : OpRecord) : Except StoreError Replica :=
  match op.opType, op.pathOld with
  | .rename, some oldPath =>
    match Decision.decide (r.store.loadFile oldPath) op.vv with
    | .ignore | .apply => .ok (r.syncFsFromRow oldPath)
    | .concurrent => (r.syncFsFromRow oldPath).resolveConflict oldPath (renameSourceVersion op)
    | .quarantined => .ok r
  | _, _ => .ok r

/-- What follows the recording of an op decided `decision` and committed as `effective`. -/
def afterApply (r : Replica) (op : OpRecord) (decision effective : Decision) :
    Except StoreError Replica := do
  let r ← if decision = .apply ∧ effective ≠ .apply then r.repairDowngrade op effective else .ok r
  if decision ≠ .quarantined then r.settleSource op else .ok r

/-- Resolve before recording when the decision is `concurrent`, touch the file system when it is
`apply`. -/
def beforeApply (r : Replica) (op : OpRecord) (decision : Decision) : Except StoreError Replica :=
  match decision with
  | .apply => .ok (r.applyEffect op)
  | .concurrent => r.resolveConflict op.path (opVersion op)
  | _ => .ok r

/-- The full receive path for one remote op.  `none` for a duplicate, otherwise the effective
decision. -/
def receive (r : Replica) (op : OpRecord) : Except StoreError (Option Decision × Replica) := do
  if r.store.hasApplied op.opId then .ok (none, r)
  else
    let decision := Decision.decide (r.store.loadFile op.path) op.vv
    let r ← r.beforeApply op decision
    let (effective, st) ← r.store.applyRemote op decision
    let r ← { r with store := st }.afterApply op decision effective
    .ok (some effective, r)

/-- Take in one row of a remote snapshot. -/
def reconcileRow (r : Replica) (row : FileRow) : Except StoreError Replica :=
  match Decision.decide (r.store.loadFile row.path) row.vv with
  | .apply =>
    let (effective, st) := r.store.reconcileUpsert row
    let r' := { r with store := st }
    .ok (if effective = .apply then
      r'.setFs row.path (if row.tombstone then none else row.contentHash) else r')
  | .concurrent => r.resolveConflict row.path (Version.fromRow row.toRow)
  | .ignore | .quarantined => .ok r

/-- One anti-entropy pass: ingest every row of a remote snapshot. -/
def reconcileFrom (r : Replica) (rows : List FileRow) : Except StoreError Replica :=
  rows.foldlM reconcileRow r

end Replica

end Replicore
