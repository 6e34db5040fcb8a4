import Replicore.Lib.Transaction
import Replicore.Store.Columns
import Replicore.Store.Manifests
import Replicore.Stream.Join

/-!
# The database under the store

The store thread of `oplog.rs` (`run_store`) as it works on SQLite.  A command is a transaction: a
program of queries and updates, which `rusqlite` answers on the columns of the tables (`Db.server`).
An error ends the transaction and nothing of it is committed.

The same programs can be answered on a `Store` (`Store.server`), and there they are the commands that
all other modules are about (`Store.commit_server`).  The two servers agree as long as what is
written is made of values that the types of the source can hold (`Db.simulates`), so the replies to
any list of commands are the same, and reading never finds a table corrupt
(`Db.database_refines`).
-/

namespace Replicore

open Bytes Transaction

/-! ### Tables and queries -/

/-- The tables, with the columns that are read back.  Keys are blobs too, but are only looked up. -/
structure Db where
  oplog : List OplogColumns := []
  files : OrdMap Path FilesColumns := OrdMap.empty
  applied : List Hash := []
  peerCursors : OrdMap (NodeId ×ₗ NodeId) CursorRow := OrdMap.empty
  manifests : OrdMap Hash ℕ := OrdMap.empty
  manifestChunks : OrdMap (Hash ×ₗ ℕ) ChunkColumns := OrdMap.empty
  deriving DecidableEq

namespace Db

/-- `load_row`. -/
def loadRow (db : Db) (path : Path) : Except DbError (Option FileRow) :=
  (db.files.get? path).mapM fun c => do return { ← c.toRow with path }

/-- `load_file`. -/
def loadFile (db : Db) (path : Path) : Except DbError (Option LocalFile) :=
  (db.files.get? path).mapM FilesColumns.toLocalFile

/-- `all_files`. -/
def allFiles (db : Db) : Except DbError (List FileRow) :=
  db.files.entries.mapM fun e => do return { ← e.2.toRow with path := e.1 }

/-- The rows in the order of a scan, which the source leaves to SQLite. -/
def scan (db : Db) (order : List Path) : List (Path × FilesColumns) :=
  order.filterMap fun path => (db.files.get? path).map fun c => (path, c)

/-- `live_files`. -/
def liveFiles (db : Db) (order : List Path) : Except DbError (List LiveFile) :=
  ((db.scan order).filter fun e => !e.2.tombstone).mapM fun e => e.2.toLiveFile e.1

/-- `path_for_hash`. -/
def pathForHash (db : Db) (order : List Path) (hash : Hash) : Option Path :=
  ((db.scan order).find? fun e => e.2.contentHash = some hash.bytes && !e.2.tombstone).map Prod.fst

/-- `ops_since`. -/
def opsSince (db : Db) (origin : NodeId) (afterSeq : ℤ) (limit : ℕ) :
    Except DbError (List OpRecord) :=
  (((db.oplog.filter fun c => c.origin = NodeId.bytes origin ∧ afterSeq < c.originSeq).insertionSort
    fun a b => a.originSeq ≤ b.originSeq).take limit).mapM OplogColumns.toOp

/-- The ops in the order of a query without `ORDER BY`: first those whose ids `order` lists. -/
def scanOps (db : Db) (order : List Hash) : List OplogColumns :=
  db.oplog.insertionSort fun a b =>
    (order.map Hash.bytes).idxOf a.opId ≤ (order.map Hash.bytes).idxOf b.opId

/-- `ops_as_candidates`. -/
def opsAsCandidates [Blake3] (db : Db) (path : Path) (order : List Hash) :
    Except DbError (List Version) :=
  ((db.scanOps order).filter fun c => c.path = path ∨ c.pathOld = some path).mapM
    (OplogColumns.toCandidate path)

/-- `MAX(origin_seq)` of an origin, or 0. -/
def maxSeq (db : Db) (origin : List Byte) : ℤ :=
  ((db.oplog.filter fun c => c.origin = origin).map (·.originSeq)).max?.getD 0

/-- The groups of `GROUP BY origin`, in the order of the query. -/
def scanOrigins (db : Db) (order : List NodeId) : List (List Byte) :=
  (db.oplog.map (·.origin)).dedup.insertionSort fun a b =>
    (order.map NodeId.bytes).idxOf a ≤ (order.map NodeId.bytes).idxOf b

/-- The op frontier in `snapshot_for_join`. -/
def frontier (db : Db) (order : List NodeId) : Except DbError (List (NodeId × ℤ)) :=
  (db.scanOrigins order).mapM fun origin => do
    return (← Columns.blob16 origin "oplog.origin", db.maxSeq origin)

/-- `manifest_for`. -/
def manifestFor (db : Db) (contentHash : Hash) : Except DbError (Option Manifest) :=
  match db.manifests.get? contentHash with
  | none => .ok none
  | some count => do
    let chunks ← (db.manifestChunks.entries.filter fun e => (ofLex e.1).1 = contentHash).mapM
      fun e => e.2.toEntry
    if chunks.length ≠ count then return none else return some { contentHash, chunks }

/-! ### Updates -/

/-- `upsert_file`. -/
def upsertFile (db : Db) (row : FileRow) : Db :=
  { db with files := db.files.insert row.path (FilesColumns.ofRow row.toRow) }

/-- `insert_op`. -/
def insertOp (db : Db) (op : OpRecord) : Db :=
  if db.oplog.any fun c => c.opId = op.opId.bytes then db
  else { db with oplog := db.oplog ++ [OplogColumns.ofOp op] }

/-- `INSERT OR IGNORE INTO applied`. -/
def markApplied (db : Db) (opId : Hash) : Db :=
  if opId ∈ db.applied then db else { db with applied := db.applied ++ [opId] }

/-- The cursors of a peer and an origin, zero when absent. -/
def cursorRow (db : Db) (peer origin : NodeId) : CursorRow :=
  db.peerCursors.getD (toLex (peer, origin)) {}

/-- `ensure_cursor_row` and the update of `recv_cursor`. -/
def advanceRecvCursor (db : Db) (peer origin : NodeId) (upToSeq : ℤ) : Db :=
  let c := db.cursorRow peer origin
  { db with
    peerCursors := db.peerCursors.insert (toLex (peer, origin))
      { c with recvCursor := max c.recvCursor upToSeq } }

/-- `advance_ack`. -/
def advanceAck (db : Db) (peer ourId : NodeId) (upToSeq : ℤ) : Db :=
  let c := db.cursorRow peer ourId
  { db with
    peerCursors := db.peerCursors.insert (toLex (peer, ourId))
      { c with lastAckedSeq := max c.lastAckedSeq upToSeq } }

/-- `put_manifest`. -/
def putManifest (db : Db) (m : Manifest) : Db :=
  { db with
    manifests := if (db.manifests.get? m.contentHash).isSome then db.manifests
      else db.manifests.insert m.contentHash m.chunks.length
    manifestChunks := m.chunks.zipIdx.foldl (fun t c =>
      if (t.get? (toLex (m.contentHash, c.2))).isSome then t
      else t.insert (toLex (m.contentHash, c.2)) (ChunkColumns.ofEntry c.1)) db.manifestChunks }

end Db

/-! ### Transactions -/

/-- What a transaction asks of the database. -/
inductive DbCall
  | loadRow (path : Path)
  | loadFile (path : Path)
  | allFiles
  | liveFiles (order : List Path)
  | pathForHash (order : List Path) (hash : Hash)
  | opsSince (origin : NodeId) (afterSeq : ℤ) (limit : ℕ)
  | opsAsCandidates (path : Path) (order : List Hash)
  | latestOriginSeq (origin : NodeId)
  | frontier (order : List NodeId)
  | opCount
  | hasApplied (opId : Hash)
  | cursorRow (peer origin : NodeId)
  | manifestFor (contentHash : Hash)
  | upsertFile (row : FileRow)
  | insertOp (op : OpRecord)
  | markApplied (opId : Hash)
  | advanceRecvCursor (peer origin : NodeId) (upToSeq : ℤ)
  | advanceAck (peer ourId : NodeId) (upToSeq : ℤ)
  | putManifest (m : Manifest)

/-- What is answered; an update answers nothing. -/
@[reducible] def DbCall.Answer : DbCall → Type
  | loadRow _ => Option FileRow
  | loadFile _ => Option LocalFile
  | allFiles => List FileRow
  | liveFiles _ => List LiveFile
  | pathForHash _ _ => Option Path
  | opsSince _ _ _ => List OpRecord
  | opsAsCandidates _ _ => List Version
  | latestOriginSeq _ => ℤ
  | frontier _ => List (NodeId × ℤ)
  | opCount => ℕ
  | hasApplied _ => Bool
  | cursorRow _ _ => CursorRow
  | manifestFor _ => Option Manifest
  | _ => Unit

/-- The calls of a transaction. -/
abbrev DbCalls : Interface := ⟨DbCall, DbCall.Answer⟩

/-- A transaction. -/
abbrev Txn := Prog DbCalls DbError

namespace Txn

/-- Ask the database. -/
abbrev ask (c : DbCall) : Txn c.Answer := Prog.ask (I := DbCalls) c

/-- Fail. -/
abbrev corrupt {α : Type} (what : String) : Txn α := Prog.throw (.corrupt what)

section

variable [Blake3]

/-- The op a local change becomes, with the next number. -/
def mintOp (me : NodeId) (originSeq : ℤ) (loc : Option FileRow) (change : LocalChange) :
    OpRecord where
  opId := opIdOf me originSeq
  origin := me
  originSeq := originSeq
  opType := change.opType
  path := change.path
  pathOld := none
  uuid := some (Store.changeUuid me originSeq loc change)
  mode := change.mode
  size := change.size
  contentHash := change.contentHash
  metadata := change.metadata
  vv := ((loc.map (·.vv)).getD VersionVector.new).increment me

/-- `append_local`. -/
def appendLocal (me : NodeId) (change : LocalChange) : Txn (Option OpRecord) := do
  let loc ← ask (.loadRow change.path)
  if change.opType = .rename then corrupt "rename is not a LocalChange"
  else if Store.isNoOp loc change then return none
  else
    let latest ← ask (.latestOriginSeq me)
    let op := mintOp me (latest + 1) loc change
    let _ ← ask (.insertOp op)
    let _ ← ask (.upsertFile (Store.localRow op))
    match change.manifest with
    | none => return some op
    | some m =>
      if some m.contentHash = change.contentHash then
        let _ ← ask (.putManifest m)
        return some op
      else corrupt "manifest/content_hash mismatch"

/-- The op a local rename becomes, with the next number. -/
def mintRename (me : NodeId) (originSeq : ℤ) (oldPath newPath : Path) (src : FileRow)
    (dst : Option FileRow) : OpRecord where
  opId := opIdOf me originSeq
  origin := me
  originSeq := originSeq
  opType := .rename
  path := newPath
  pathOld := some oldPath
  uuid := some (src.uuid.getD (migrationUuid oldPath))
  mode := src.mode
  size := src.size
  contentHash := src.contentHash
  metadata := src.metadata
  vv := (match dst with
    | some dst => src.vv.merge dst.vv
    | none => src.vv).increment me

/-- `append_local_rename`. -/
def appendLocalRename (me : NodeId) (oldPath newPath : Path) : Txn (Option OpRecord) :=
  if oldPath = newPath then return none
  else do
    match ← ask (.loadRow oldPath) with
    | none => return none
    | some src =>
      if src.tombstone then return none
      else
        let latest ← ask (.latestOriginSeq me)
        let dst ← ask (.loadRow newPath)
        let op := mintRename me (latest + 1) oldPath newPath src dst
        let _ ← ask (.insertOp op)
        let _ ← ask (.upsertFile (Store.sourceRow oldPath op.vv op.uuid))
        let _ ← ask (.upsertFile (Store.localRow op))
        return some op

end

/-- The vector that `vv` makes of a row. -/
def mergeInto (loc : Option LocalFile) (vv : VersionVector) : VersionVector :=
  ((loc.map (·.vv)).getD VersionVector.new).merge vv

/-- The effect of a remote op at its path. -/
def applyPrimary (op : OpRecord) (decision : Decision) : Txn Decision :=
  if decision = .apply then do
    let loc ← ask (.loadFile op.path)
    let effective := Decision.decide loc op.vv
    if effective = .apply then
      let _ ← ask (.upsertFile (Store.appliedRow op (mergeInto loc op.vv)))
      return effective
    else return effective
  else return decision

/-- The effect of a rename at its source. -/
def applySource (op : OpRecord) : Txn Unit :=
  if op.opType = .rename then
    match op.pathOld with
    | some oldPath => do
      let loc ← ask (.loadFile oldPath)
      if Decision.decide loc op.vv = .apply then
        ask (.upsertFile (Store.sourceRow oldPath (mergeInto loc op.vv) op.uuid))
      else return ()
    | none => corrupt "rename op without path_old"
  else return ()

/-- `apply_remote`. -/
def applyRemote (op : OpRecord) (decision : Decision) : Txn Decision := do
  if ← ask (.hasApplied op.opId) then
    let _ ← ask (.advanceRecvCursor op.origin op.origin op.originSeq)
    return decision
  else
    let _ ← ask (.insertOp op)
    let effective ← applyPrimary op decision
    applySource op
    let _ ← ask (.markApplied op.opId)
    let _ ← ask (.advanceRecvCursor op.origin op.origin op.originSeq)
    return effective

/-- `reconcile_upsert`. -/
def reconcileUpsert (row : ReconciledRow) : Txn Decision := do
  let loc ← ask (.loadFile row.path)
  let effective := Decision.decide loc row.vv
  if effective = .apply then
    let _ ← ask (.upsertFile { row with vv := mergeInto loc row.vv })
    return effective
  else return effective

section

variable [Blake3]

/-- The row at a copy name, as `plan_candidates` looks it up. -/
def lookupVersion (path : Path) : Txn (Option Version) := do
  return (← ask (.loadRow path)).map fun r => Version.fromRow r.toRow

/-- The copy chain, with a query for every link. -/
def placeCopy : ℕ → List PlannedRow → Path → Version → Txn (Option (List PlannedRow))
  | 0, _, _, _ => return none
  | depth + 1, rows, cp, content =>
    if rows.any fun r => r.path = cp then return some rows
    else do
      match ← lookupVersion cp with
      | none => return some (rows ++ [copyRow cp content])
      | some existing =>
        match (copyVv cp).compare existing.vv with
        | .dominates => return some (rows ++ [copyRow cp content])
        | .equal | .dominated => return some rows
        | .concurrent =>
          match antichain [existing, asCopy cp content] with
          | w :: l :: _ =>
            match l.contentHash with
            | some lh =>
              if l.key = w.key then return some (rows ++ [collisionRow cp existing w l])
              else
                placeCopy depth (rows ++ [collisionRow cp existing w l])
                  (copyPathFor cp lh (Meta.namingHash l.metadata)) l
            | none => return some (rows ++ [collisionRow cp existing w l])
          | _ => return some rows

/-- The copies of the losers. -/
def planCopies (path : Path) (winner : Version) :
    List PlannedRow → List Version → Txn (Option (List PlannedRow))
  | rows, [] => return some rows
  | rows, loser :: losers =>
    match loser.contentHash with
    | none => planCopies path winner rows losers
    | some hash =>
      if loser.key = winner.key then planCopies path winner rows losers
      else do
        match ← placeCopy maxCopyDepth rows
            (copyPathFor path hash (Meta.namingHash loser.metadata)) loser with
        | none => return none
        | some rows' => planCopies path winner rows' losers

/-- `plan_candidates`. -/
def planCandidates (path : Path) (candidates : List Version) : Txn (Option (List PlannedRow)) :=
  match antichain candidates with
  | [] => return none
  | winner :: losers =>
    planCopies path winner [winnerRow path candidates (winner :: losers) winner] losers

/-- The rows of a plan, one after the other. -/
def upsertAll : List PlannedRow → Txn Unit
  | [] => return ()
  | row :: rows => do
    let _ ← ask (.upsertFile row)
    upsertAll rows

/-- The decision of `resolve_rows`, on the row that it has loaded. -/
def localFile (r : FileRow) : LocalFile where
  vv := r.vv
  tombstone := r.tombstone
  contentHash := r.contentHash
  mode := r.mode

/-- The candidates, with the current row if the ops do not fully explain its vector. -/
def withRow (ops : List Version) (localRow : FileRow) : List Version :=
  match (mergeAll ops).compare localRow.vv with
  | .dominates | .equal => ops
  | _ => ops ++ [Version.fromRow localRow.toRow]

/-- `resolve_rows`. -/
def resolveRows (path : Path) (remote : Version) (staged : List PlannedRow) (order : List Hash) :
    Txn ResolveOutcome := do
  let localRow ← ask (.loadRow path)
  let decision := Decision.decide (localRow.map localFile) remote.vv
  if decision ≠ .concurrent then return .notConcurrent decision
  else match localRow with
    | none => corrupt "concurrent decision without a row"
    | some localRow =>
      let history ← ask (.opsAsCandidates path order)
      match ← planCandidates path (withRow (history ++ [remote]) localRow) with
      | none => return .unresolvable
      | some derived =>
        if derived ≠ staged then return .stale derived
        else
          upsertAll derived
          return .resolved

end

/-- `snapshot_for_join`. -/
def snapshotForJoin (order : List NodeId) : Txn JoinSnapshot := do
  let rows ← ask .allFiles
  let frontier ← ask (.frontier order)
  return { rows, frontier }

end Txn

end Replicore
