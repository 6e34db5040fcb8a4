import Replicore.Lib.Result
import Replicore.Store.Database

/-!
# The database refines the store

`StoreCmd` are the commands of the store thread.  `Store.serve` is what they do to a `Store`,
`Db.serve` what they do to the tables.  Both run the same transactions: `Store.commit_txn` says so of
the commands of the store, and `Db.simulates` that the columns answer every call like the `Store`
they represent.

* `Db.database_refines` : every list of commands is replied to alike, and no reply says that a table
  is corrupt.
-/

namespace Replicore

open Transaction

/-! ### Commands -/

/-- The commands of the store thread.  Where a query has no `ORDER BY`, the order in which it
returns the rows is an input. -/
inductive StoreCmd
  | appendLocal (change : LocalChange)
  | appendLocalRename (oldPath newPath : Path)
  | resolveRows (path : Path) (remote : Version) (staged : List PlannedRow) (order : List Hash)
  | loadRow (path : Path)
  | applyRemote (op : OpRecord) (decision : Decision)
  | loadFile (path : Path)
  | hasApplied (opId : Hash)
  | opsSince (origin : NodeId) (afterSeq : ℤ) (limit : ℕ)
  | recvCursor (peer : NodeId)
  | advanceAck (peer : NodeId) (upToSeq : ℤ)
  | lastAcked (peer : NodeId)
  | liveFiles (order : List Path)
  | allFiles
  | pathForHash (order : List Path) (hash : Hash)
  | opCount
  | putManifest (m : Manifest)
  | manifestFor (contentHash : Hash)
  | reconcileUpsert (row : ReconciledRow)
  | snapshotForJoin (order : List NodeId)
  | advanceRecvCursor (peer origin : NodeId) (upToSeq : ℤ)

/-- What is replied. -/
inductive Reply
  | op (op : Option OpRecord)
  | outcome (outcome : ResolveOutcome)
  | decision (decision : Decision)
  | row (row : Option FileRow)
  | file (file : Option LocalFile)
  | flag (b : Bool)
  | ops (ops : List OpRecord)
  | seq (n : ℤ)
  | live (files : List LiveFile)
  | rows (rows : List FileRow)
  | path (path : Option Path)
  | count (n : ℕ)
  | manifest (m : Option Manifest)
  | snapshot (snap : JoinSnapshot)
  | done

/-- The error of a command, as the database reports it. -/
def StoreError.toDb : StoreError → DbError
  | .corrupt what => .corrupt what

namespace Store

/-- The rows in the order of a scan. -/
def scan (st : Store) (order : List Path) : List (Path × Row) :=
  order.filterMap fun path => (st.files.get? path).map fun r => (path, r)

/-- `live_files`. -/
def liveFiles (st : Store) (order : List Path) : List LiveFile :=
  ((st.scan order).filter fun e => !e.2.tombstone).map fun e =>
    { path := e.1, contentHash := e.2.contentHash, mode := e.2.mode, size := e.2.size }

/-- `path_for_hash`. -/
def pathForHash (st : Store) (order : List Path) (hash : Hash) : Option Path :=
  ((st.scan order).find? fun e => e.2.contentHash = some hash && !e.2.tombstone).map Prod.fst

/-- The reply of a command that writes, and what it leaves: nothing if it fails. -/
def reply {α : Type} (st : Store) (f : α → Reply) :
    Except StoreError (α × Store) → Except DbError Reply × Store
  | .ok (a, st') => (.ok (f a), st')
  | .error e => (.error e.toDb, st)

/-- What the commands do to a store. -/
def serve [Blake3] (me : NodeId) (cmd : StoreCmd) (st : Store) : Except DbError Reply × Store :=
  match cmd with
  | .appendLocal change => st.reply .op (st.appendLocal me change)
  | .appendLocalRename old new => st.reply .op (.ok (st.appendLocalRename me old new))
  | .resolveRows path remote staged order =>
    st.reply .outcome (st.resolveRows path remote staged order)
  | .loadRow path => (.ok (.row (st.loadRow path)), st)
  | .applyRemote op decision => st.reply .decision (st.applyRemote op decision)
  | .loadFile path => (.ok (.file (st.loadFile path)), st)
  | .hasApplied opId => (.ok (.flag (st.hasApplied opId)), st)
  | .opsSince origin afterSeq limit => (.ok (.ops (st.opsSince origin afterSeq limit)), st)
  | .recvCursor peer => (.ok (.seq (st.recvCursor peer)), st)
  | .advanceAck peer upToSeq => (.ok .done, st.advanceAck peer me upToSeq)
  | .lastAcked peer => (.ok (.seq (st.lastAckedSeq peer me)), st)
  | .liveFiles order => (.ok (.live (st.liveFiles order)), st)
  | .allFiles => (.ok (.rows st.allFiles), st)
  | .pathForHash order hash => (.ok (.path (st.pathForHash order hash)), st)
  | .opCount => (.ok (.count st.oplog.length), st)
  | .putManifest m => (.ok .done, st.putManifest m)
  | .manifestFor contentHash => (.ok (.manifest (st.manifestFor contentHash)), st)
  | .reconcileUpsert row => st.reply .decision (.ok (st.reconcileUpsert row))
  | .snapshotForJoin order => (.ok (.snapshot (st.snapshotForJoin order)), st)
  | .advanceRecvCursor peer origin upToSeq => (.ok .done, st.advanceRecvCursor peer origin upToSeq)

end Store

/-- The transaction of a command. -/
def StoreCmd.txn [Blake3] (me : NodeId) : StoreCmd → Txn Reply
  | .appendLocal change => return .op (← Txn.appendLocal me change)
  | .appendLocalRename old new => return .op (← Txn.appendLocalRename me old new)
  | .resolveRows path remote staged order =>
    return .outcome (← Txn.resolveRows path remote staged order)
  | .loadRow path => return .row (← Txn.ask (.loadRow path))
  | .applyRemote op decision => return .decision (← Txn.applyRemote op decision)
  | .loadFile path => return .file (← Txn.ask (.loadFile path))
  | .hasApplied opId => return .flag (← Txn.ask (.hasApplied opId))
  | .opsSince origin afterSeq limit => return .ops (← Txn.ask (.opsSince origin afterSeq limit))
  | .recvCursor peer => return .seq (← Txn.ask (.cursorRow peer peer)).recvCursor
  | .advanceAck peer upToSeq => do
    let _ ← Txn.ask (.advanceAck peer me upToSeq)
    return .done
  | .lastAcked peer => return .seq (← Txn.ask (.cursorRow peer me)).lastAckedSeq
  | .liveFiles order => return .live (← Txn.ask (.liveFiles order))
  | .allFiles => return .rows (← Txn.ask .allFiles)
  | .pathForHash order hash => return .path (← Txn.ask (.pathForHash order hash))
  | .opCount => return .count (← Txn.ask .opCount)
  | .putManifest m => do
    let _ ← Txn.ask (.putManifest m)
    return .done
  | .manifestFor contentHash => return .manifest (← Txn.ask (.manifestFor contentHash))
  | .reconcileUpsert row => return .decision (← Txn.reconcileUpsert row)
  | .snapshotForJoin order => return .snapshot (← Txn.snapshotForJoin order)
  | .advanceRecvCursor peer origin upToSeq => do
    let _ ← Txn.ask (.advanceRecvCursor peer origin upToSeq)
    return .done

/-! ### Servers -/

section

variable [Blake3]

/-- A store answers. -/
def Store.server : Server DbCalls DbError Store
  | .loadRow path, st => .ok (st.loadRow path, st)
  | .loadFile path, st => .ok (st.loadFile path, st)
  | .allFiles, st => .ok (st.allFiles, st)
  | .liveFiles order, st => .ok (st.liveFiles order, st)
  | .pathForHash order hash, st => .ok (st.pathForHash order hash, st)
  | .opsSince origin afterSeq limit, st => .ok (st.opsSince origin afterSeq limit, st)
  | .opsAsCandidates path order, st => .ok (st.opsAsCandidates path order, st)
  | .latestOriginSeq origin, st => .ok (st.latestOriginSeq origin, st)
  | .frontier order, st => .ok ((st.snapshotForJoin order).frontier, st)
  | .opCount, st => .ok (st.oplog.length, st)
  | .hasApplied opId, st => .ok (st.hasApplied opId, st)
  | .cursorRow peer origin, st => .ok (st.cursorRow peer origin, st)
  | .manifestFor contentHash, st => .ok (st.manifestFor contentHash, st)
  | .upsertFile row, st => .ok ((), st.upsertFile row)
  | .insertOp op, st => .ok ((), st.insertOp op)
  | .markApplied opId, st => .ok ((), st.markApplied opId)
  | .advanceRecvCursor peer origin upToSeq, st => .ok ((), st.advanceRecvCursor peer origin upToSeq)
  | .advanceAck peer ourId upToSeq, st => .ok ((), st.advanceAck peer ourId upToSeq)
  | .putManifest m, st => .ok ((), st.putManifest m)

namespace Db

/-- The answer of a query, which leaves the tables alone. -/
def query {α : Type} (db : Db) (x : Except DbError α) : Except DbError (α × Db) :=
  x.map fun a => (a, db)

/-- The tables answer. -/
def server : Server DbCalls DbError Db
  | .loadRow path, db => db.query (db.loadRow path)
  | .loadFile path, db => db.query (db.loadFile path)
  | .allFiles, db => db.query db.allFiles
  | .liveFiles order, db => db.query (db.liveFiles order)
  | .pathForHash order hash, db => .ok (db.pathForHash order hash, db)
  | .opsSince origin afterSeq limit, db => db.query (db.opsSince origin afterSeq limit)
  | .opsAsCandidates path order, db => db.query (db.opsAsCandidates path order)
  | .latestOriginSeq origin, db => .ok (db.maxSeq (NodeId.bytes origin), db)
  | .frontier order, db => db.query (db.frontier order)
  | .opCount, db => .ok (db.oplog.length, db)
  | .hasApplied opId, db => .ok (decide (opId ∈ db.applied), db)
  | .cursorRow peer origin, db => .ok (db.cursorRow peer origin, db)
  | .manifestFor contentHash, db => db.query (db.manifestFor contentHash)
  | .upsertFile row, db => .ok ((), db.upsertFile row)
  | .insertOp op, db => .ok ((), db.insertOp op)
  | .markApplied opId, db => .ok ((), db.markApplied opId)
  | .advanceRecvCursor peer origin upToSeq, db => .ok ((), db.advanceRecvCursor peer origin upToSeq)
  | .advanceAck peer ourId upToSeq, db => .ok ((), db.advanceAck peer ourId upToSeq)
  | .putManifest m, db => .ok ((), db.putManifest m)

/-- What the commands do to the tables. -/
def serve (me : NodeId) (cmd : StoreCmd) (db : Db) : Except DbError Reply × Db :=
  commit server (cmd.txn me) db

end Db

/-! ### Transactions on a store -/

namespace Txn

variable {st st' : Store}

theorem run_appendLocal (me : NodeId) (change : LocalChange) (st : Store) :
    (appendLocal me change).run Store.server st =
      (st.appendLocal me change).mapError StoreError.toDb := by
  unfold appendLocal Store.appendLocal
  rw [Prog.run_bind_ok (Prog.run_ask rfl)]
  split_ifs with hrename hnoop
  · rfl
  · rfl
  · cases change.manifest with
    | none => rfl
    | some m =>
      dsimp only
      split_ifs with hm
      · rfl
      · rfl

theorem run_appendLocalRename (me : NodeId) (old new : Path) (st : Store) :
    (appendLocalRename me old new).run Store.server st = .ok (st.appendLocalRename me old new) := by
  unfold appendLocalRename Store.appendLocalRename
  split_ifs with heq
  · rfl
  · rw [Prog.run_bind_ok (Prog.run_ask rfl)]
    cases st.loadRow old with
    | none => rfl
    | some src =>
      dsimp only
      split_ifs with htomb
      · rfl
      · rfl

theorem run_applyPrimary (op : OpRecord) (decision : Decision) (st : Store) :
    (applyPrimary op decision).run Store.server st = .ok (st.applyPrimary op decision) := by
  unfold applyPrimary Store.applyPrimary
  split_ifs with hd
  · rw [Prog.run_bind_ok (Prog.run_ask rfl)]
    dsimp only
    split_ifs with he
    · rfl
    · rfl
  · rfl

theorem run_applySource (op : OpRecord) (st : Store) : (applySource op).run Store.server st =
    ((st.applySource op).mapError StoreError.toDb).map fun st' => ((), st') := by
  unfold applySource Store.applySource
  split_ifs with hop
  · cases op.pathOld with
    | none => rfl
    | some old =>
      dsimp only
      rw [Prog.run_bind_ok (Prog.run_ask rfl)]
      split_ifs with hd
      · rfl
      · rfl
  · rfl

theorem run_applyRemote (op : OpRecord) (decision : Decision) (st : Store) :
    (applyRemote op decision).run Store.server st =
      (st.applyRemote op decision).mapError StoreError.toDb := by
  unfold applyRemote Store.applyRemote
  rw [Prog.run_bind_ok (Prog.run_ask rfl)]
  split_ifs with happ
  · rfl
  · rw [Prog.run_bind_ok (Prog.run_ask rfl)]
    have hprimary := run_applyPrimary op decision (st.insertOp op)
    generalize (st.insertOp op).applyPrimary op decision = primary at hprimary ⊢
    obtain ⟨effective, st₁⟩ := primary
    rw [Prog.run_bind_ok hprimary]
    have hsource := run_applySource op st₁
    dsimp only
    cases hst₁ : st₁.applySource op with
    | error e =>
      rw [hst₁] at hsource
      rw [Prog.run_bind_error hsource]
      rfl
    | ok st₂ =>
      rw [hst₁] at hsource
      rw [Prog.run_bind_ok hsource]
      rfl

theorem run_reconcileUpsert (row : ReconciledRow) (st : Store) :
    (reconcileUpsert row).run Store.server st = .ok (st.reconcileUpsert row) := by
  unfold reconcileUpsert Store.reconcileUpsert
  rw [Prog.run_bind_ok (Prog.run_ask rfl)]
  dsimp only
  split_ifs with hd
  · rfl
  · rfl

theorem run_lookupVersion (path : Path) (st : Store) :
    (lookupVersion path).run Store.server st = .ok (st.lookupVersion path, st) := by
  rw [lookupVersion, Prog.run_bind_ok (Prog.run_ask rfl), Prog.run_pure, Store.lookupVersion,
    Store.loadRow, Option.map_map]
  rfl

theorem run_placeCopy (depth : ℕ) (rows : List PlannedRow) (cp : Path) (content : Version)
    (st : Store) : (placeCopy depth rows cp content).run Store.server st =
      .ok (Replicore.placeCopy st.lookupVersion depth rows cp content, st) := by
  induction depth generalizing rows cp content with
  | zero => rfl
  | succ depth ih =>
    rw [placeCopy, Replicore.placeCopy]
    split_ifs with hany
    · rfl
    · rw [Prog.run_bind_ok (run_lookupVersion cp st)]
      cases st.lookupVersion cp with
      | none => rfl
      | some existing =>
        dsimp only
        cases (copyVv cp).compare existing.vv with
        | dominates => rfl
        | equal => rfl
        | dominated => rfl
        | concurrent =>
          dsimp only
          rcases antichain [existing, asCopy cp content] with _ | ⟨w, _ | ⟨l, ls⟩⟩
          · rfl
          · rfl
          · dsimp only
            cases l.contentHash with
            | none => rfl
            | some lh =>
              dsimp only
              split_ifs with hkey
              · rfl
              · exact ih _ _ _

theorem run_planCopies (path : Path) (winner : Version) (rows : List PlannedRow)
    (losers : List Version) (st : Store) : (planCopies path winner rows losers).run Store.server st =
      .ok (Replicore.planCopies st.lookupVersion path winner rows losers, st) := by
  induction losers generalizing rows with
  | nil => rfl
  | cons loser losers ih =>
    rw [planCopies, Replicore.planCopies]
    cases loser.contentHash with
    | none => exact ih rows
    | some hash =>
      dsimp only
      split_ifs with hkey
      · exact ih rows
      · rw [Prog.run_bind_ok (run_placeCopy _ _ _ _ st)]
        cases Replicore.placeCopy st.lookupVersion maxCopyDepth rows
            (copyPathFor path hash (Meta.namingHash loser.metadata)) loser with
        | none => rfl
        | some rows' => exact ih rows'

theorem run_planCandidates (path : Path) (candidates : List Version) (st : Store) :
    (planCandidates path candidates).run Store.server st =
      .ok (Replicore.planCandidates path candidates st.lookupVersion, st) := by
  unfold planCandidates Replicore.planCandidates
  cases antichain candidates with
  | nil => rfl
  | cons winner losers => exact run_planCopies _ _ _ _ st

theorem run_upsertAll (rows : List PlannedRow) (st : Store) :
    (upsertAll rows).run Store.server st = .ok ((), rows.foldl Store.upsertFile st) := by
  induction rows generalizing st with
  | nil => rfl
  | cons row rows ih =>
    rw [upsertAll, Prog.run_bind_ok (Prog.run_ask rfl), List.foldl_cons]
    exact ih _

theorem run_resolveRows (path : Path) (remote : Version) (staged : List PlannedRow)
    (order : List Hash) (st : Store) : (resolveRows path remote staged order).run Store.server st =
      (st.resolveRows path remote staged order).mapError StoreError.toDb := by
  have hdecision : Decision.decide ((st.loadRow path).map localFile) remote.vv =
      Decision.decide (st.loadFile path) remote.vv := by
    rw [Store.loadRow, Store.loadFile, Option.map_map]
    rfl
  unfold resolveRows Store.resolveRows
  rw [Prog.run_bind_ok (Prog.run_ask rfl)]
  dsimp only
  rw [hdecision]
  split_ifs with hd
  · rfl
  · cases st.loadRow path with
    | none => rfl
    | some localRow =>
      dsimp only
      rw [Prog.run_bind_ok (Prog.run_ask rfl), Prog.run_bind_ok (run_planCandidates _ _ st)]
      have hcandidates : withRow (st.opsAsCandidates path order ++ [remote]) localRow =
          st.candidates path remote localRow order := rfl
      rw [hcandidates]
      cases Replicore.planCandidates path (st.candidates path remote localRow order)
          st.lookupVersion with
      | none => rfl
      | some derived =>
        dsimp only
        split_ifs with hstale
        · rfl
        · rw [Prog.run_bind_ok (run_upsertAll derived st)]
          rfl

end Txn

/-- The reply of a command is the outcome of its transaction. -/
theorem Txn.commit_map {α : Type} {m : Txn α} {f : α → Reply} {st : Store}
    {x : Except StoreError (α × Store)} (h : m.run Store.server st = x.mapError StoreError.toDb) :
    commit Store.server (do return f (← m)) st = st.reply f x := by
  unfold commit
  cases x with
  | error e =>
    rw [Prog.run_bind_error h]
    rfl
  | ok y =>
    rw [Prog.run_bind_ok h]
    rfl

/-- On a store, the transaction of a command is the command. -/
theorem Store.commit_txn (me : NodeId) (cmd : StoreCmd) (st : Store) :
    Transaction.commit Store.server (cmd.txn me) st = st.serve me cmd := by
  cases cmd with
  | appendLocal change => exact Txn.commit_map (Txn.run_appendLocal me change st)
  | appendLocalRename old new =>
    exact Txn.commit_map (x := .ok _) (Txn.run_appendLocalRename me old new st)
  | resolveRows path remote staged order =>
    exact Txn.commit_map (Txn.run_resolveRows path remote staged order st)
  | applyRemote op decision => exact Txn.commit_map (Txn.run_applyRemote op decision st)
  | reconcileUpsert row => exact Txn.commit_map (x := .ok _) (Txn.run_reconcileUpsert row st)
  | loadRow path => rfl
  | loadFile path => rfl
  | hasApplied opId => rfl
  | opsSince origin afterSeq limit => rfl
  | recvCursor peer => rfl
  | advanceAck peer upToSeq => rfl
  | lastAcked peer => rfl
  | liveFiles order => rfl
  | allFiles => rfl
  | pathForHash order hash => rfl
  | opCount => rfl
  | putManifest m => rfl
  | manifestFor contentHash => rfl
  | snapshotForJoin order => rfl
  | advanceRecvCursor peer origin upToSeq => rfl

end

/-! ### What the tables represent -/

/-- The rows and ops of a store are made of values that the types of the source can hold. -/
structure Store.AllFit (st : Store) : Prop where
  rows : ∀ p r, st.files.get? p = some r → Fits r.vv r.metadata
  log : ∀ o ∈ st.oplog, Fits o.vv o.metadata

/-- What the call writes is made of such values. -/
def DbCall.Fit : DbCall → Prop
  | .upsertFile row => Fits row.vv row.metadata
  | .insertOp op => Fits op.vv op.metadata
  | _ => True

namespace Db

/-- The tables of a store. -/
def ofStore (st : Store) : Db where
  oplog := st.oplog.map OplogColumns.ofOp
  files := st.files.mapVals FilesColumns.ofRow
  applied := st.applied
  peerCursors := st.peerCursors
  manifests := st.manifests
  manifestChunks := st.manifestChunks.mapVals ChunkColumns.ofEntry

/-- The tables are those of a store that holds no other values. -/
def Represents (st : Store) (db : Db) : Prop := db = ofStore st ∧ st.AllFit

variable {st : Store}

theorem get?_files (st : Store) (path : Path) :
    (ofStore st).files.get? path = (st.files.get? path).map FilesColumns.ofRow :=
  OrdMap.get?_mapVals _ _ _

theorem loadRow_ofStore (h : st.AllFit) (path : Path) :
    (ofStore st).loadRow path = .ok (st.loadRow path) := by
  rw [loadRow, get?_files, Store.loadRow]
  cases hr : st.files.get? path with
  | none => rfl
  | some r =>
    rw [Option.map_some, Option.mapM_some, FilesColumns.toRow_ofRow (h.rows path r hr)]
    rfl

theorem loadFile_ofStore (h : st.AllFit) (path : Path) :
    (ofStore st).loadFile path = .ok (st.loadFile path) := by
  rw [loadFile, get?_files, Store.loadFile]
  cases hr : st.files.get? path with
  | none => rfl
  | some r =>
    rw [Option.map_some, Option.mapM_some, FilesColumns.toLocalFile_ofRow (h.rows path r hr)]
    rfl

theorem allFiles_ofStore (h : st.AllFit) : (ofStore st).allFiles = .ok st.allFiles := by
  have hentries : (ofStore st).files.entries =
      st.files.entries.map fun e => (e.1, FilesColumns.ofRow e.2) := rfl
  rw [allFiles, hentries, List.mapM_map]
  refine Result.mapM_ok fun e he => ?_
  have hfits := h.rows e.1 e.2 (OrdMap.mem_entries.1 he)
  rw [Function.comp_apply, FilesColumns.toRow_ofRow hfits]
  rfl

theorem scan_ofStore (st : Store) (order : List Path) :
    (ofStore st).scan order = (st.scan order).map fun e => (e.1, FilesColumns.ofRow e.2) := by
  rw [scan, Store.scan, List.map_filterMap]
  refine List.filterMap_congr fun path _ => ?_
  rw [get?_files, Option.map_map, Option.map_map]
  rfl

theorem liveFiles_ofStore (st : Store) (order : List Path) :
    (ofStore st).liveFiles order = .ok (st.liveFiles order) := by
  rw [liveFiles, scan_ofStore, List.filter_map, List.mapM_map, Store.liveFiles]
  exact Result.mapM_ok fun e _ => FilesColumns.toLiveFile_ofRow e.1 e.2

theorem pathForHash_ofStore (st : Store) (order : List Path) (hash : Hash) :
    (ofStore st).pathForHash order hash = st.pathForHash order hash := by
  have hsame : ∀ e : Path × Row,
      (decide ((FilesColumns.ofRow e.2).contentHash = some hash.bytes) &&
        !(FilesColumns.ofRow e.2).tombstone) =
      (decide (e.2.contentHash = some hash) && !e.2.tombstone) := by
    intro e
    have hiff : (FilesColumns.ofRow e.2).contentHash = some hash.bytes ↔
        e.2.contentHash = some hash := by
      simp only [FilesColumns.ofRow, Option.map_eq_some_iff]
      constructor
      · rintro ⟨x, hx, hbytes⟩
        rw [hx, Hash.bytes_inj hbytes]
      · exact fun hx => ⟨hash, hx, rfl⟩
    rw [decide_eq_decide.2 hiff]
    rfl
  rw [pathForHash, scan_ofStore, List.find?_map, Option.map_map, Store.pathForHash]
  simp only [Function.comp_def, hsame]

theorem opsSince_ofStore (h : st.AllFit) (origin : NodeId) (afterSeq : ℤ) (limit : ℕ) :
    (ofStore st).opsSince origin afterSeq limit = .ok (st.opsSince origin afterSeq limit) := by
  have hfilter : (ofStore st).oplog.filter (fun c =>
      c.origin = NodeId.bytes origin ∧ afterSeq < c.originSeq) =
      (st.oplog.filter fun o => o.origin = origin ∧ afterSeq < o.originSeq).map
        OplogColumns.ofOp := by
    rw [ofStore, List.filter_map]
    congr 2
    funext o
    exact decide_eq_decide.2 (and_congr_left' ⟨fun hb => NodeId.bytes_inj hb,
      fun ho => congrArg NodeId.bytes ho⟩)
  rw [opsSince, hfilter, ← List.map_insertionSort (fun a b : OpRecord => a.originSeq ≤ b.originSeq)
    (fun a b : OplogColumns => a.originSeq ≤ b.originSeq) _ _ fun _ _ _ _ => Iff.rfl,
    ← List.map_take, List.mapM_map, Store.opsSince]
  refine (Result.mapM_ok fun o ho => OplogColumns.toOp_ofOp (h.log o ?_)).trans
    (congrArg _ (List.map_id' _))
  have ho' := List.mem_of_mem_take ho
  rw [List.mem_insertionSort] at ho'
  exact (List.mem_filter.1 ho').1

/-- What is listed by blobs comes in the order of what the blobs stand for. -/
theorem idxOf_map_bytes {α : Type} [DecidableEq α] {bytes : α → List Byte}
    (hinj : Function.Injective bytes) (order : List α) (a : α) :
    (order.map bytes).idxOf (bytes a) = order.idxOf a := by
  induction order with
  | nil => rfl
  | cons x order ih => simp only [List.map_cons, List.idxOf_cons, beq_eq_decide, hinj.eq_iff, ih]

theorem scanOps_ofStore (st : Store) (order : List Hash) :
    (ofStore st).scanOps order = (st.scanOps order).map OplogColumns.ofOp := by
  refine (List.map_insertionSort _ _ _ _ fun a _ b _ => ?_).symm
  change _ ↔ (order.map Hash.bytes).idxOf a.opId.bytes ≤ (order.map Hash.bytes).idxOf b.opId.bytes
  rw [idxOf_map_bytes fun _ _ => Hash.bytes_inj, idxOf_map_bytes fun _ _ => Hash.bytes_inj]

theorem opsAsCandidates_ofStore [Blake3] (h : st.AllFit) (path : Path) (order : List Hash) :
    (ofStore st).opsAsCandidates path order = .ok (st.opsAsCandidates path order) := by
  have hfilter : ((ofStore st).scanOps order).filter
      (fun c => c.path = path ∨ c.pathOld = some path) =
      ((st.scanOps order).filter fun o => o.Affects path).map OplogColumns.ofOp := by
    rw [scanOps_ofStore, List.filter_map]
    rfl
  rw [opsAsCandidates, hfilter, List.mapM_map, Store.opsAsCandidates]
  exact Result.mapM_ok fun o ho =>
    OplogColumns.toCandidate_ofOp (h.log o (Store.mem_scanOps.1 (List.mem_filter.1 ho).1)) path

theorem maxSeq_ofStore (st : Store) (origin : NodeId) :
    (ofStore st).maxSeq (NodeId.bytes origin) = st.latestOriginSeq origin := by
  have hfilter : (ofStore st).oplog.filter (fun c => c.origin = NodeId.bytes origin) =
      (st.oplog.filter fun o => o.origin = origin).map OplogColumns.ofOp := by
    rw [ofStore, List.filter_map]
    congr 2
    funext o
    exact decide_eq_decide.2 ⟨fun hb => NodeId.bytes_inj hb, fun ho => congrArg NodeId.bytes ho⟩
  rw [maxSeq, hfilter, List.map_map]
  rfl

theorem scanOrigins_ofStore (st : Store) (order : List NodeId) :
    (ofStore st).scanOrigins order = (st.scanOrigins order).map NodeId.bytes := by
  have horigins : ((ofStore st).oplog.map (·.origin)).dedup =
      (st.oplog.map (·.origin)).dedup.map NodeId.bytes := by
    rw [← List.dedup_map_of_injective fun a b => NodeId.bytes_inj, ofStore, List.map_map,
      List.map_map]
    rfl
  rw [scanOrigins, horigins]
  refine (List.map_insertionSort _ _ _ _ fun a _ b _ => ?_).symm
  rw [idxOf_map_bytes fun _ _ => NodeId.bytes_inj, idxOf_map_bytes fun _ _ => NodeId.bytes_inj]

theorem frontier_ofStore (st : Store) (order : List NodeId) :
    (ofStore st).frontier order = .ok (st.snapshotForJoin order).frontier := by
  rw [frontier, scanOrigins_ofStore, List.mapM_map, Store.snapshotForJoin]
  refine Result.mapM_ok fun origin _ => ?_
  rw [Function.comp_apply, Columns.blob16_bytes, maxSeq_ofStore]
  rfl

theorem manifestFor_ofStore (st : Store) (contentHash : Hash) :
    (ofStore st).manifestFor contentHash = .ok (st.manifestFor contentHash) := by
  have hchunks : ((ofStore st).manifestChunks.entries.filter fun e =>
      (ofLex e.1).1 = contentHash).mapM (fun e => e.2.toEntry) =
      .ok ((st.manifestChunks.entries.filter fun e => (ofLex e.1).1 = contentHash).map Prod.snd) := by
    have hentries : (ofStore st).manifestChunks.entries =
        st.manifestChunks.entries.map fun e => (e.1, ChunkColumns.ofEntry e.2) := rfl
    rw [hentries, List.filter_map, List.mapM_map]
    exact Result.mapM_ok fun e _ => ChunkColumns.toEntry_ofEntry e.2
  have hcount : (ofStore st).manifests.get? contentHash = st.manifests.get? contentHash := rfl
  rw [manifestFor, Store.manifestFor, hchunks, hcount]
  cases st.manifests.get? contentHash with
  | none => rfl
  | some count =>
    change (if _ then _ else _) = Except.ok (if _ then _ else _)
    split_ifs
    · rfl
    · rfl

theorem upsertFile_ofStore (st : Store) (row : FileRow) :
    (ofStore st).upsertFile row = ofStore (st.upsertFile row) := by
  rw [upsertFile, ofStore, ofStore, Store.upsertFile, OrdMap.mapVals_insert]

theorem insertOp_ofStore (st : Store) (op : OpRecord) :
    (ofStore st).insertOp op = ofStore (st.insertOp op) := by
  have hany : ((ofStore st).oplog.any fun c => c.opId = op.opId.bytes) =
      st.oplog.any fun o => o.opId = op.opId := by
    rw [ofStore, List.any_map]
    congr 1
    funext o
    exact decide_eq_decide.2 ⟨fun hb => Hash.bytes_inj hb, fun ho => congrArg Hash.bytes ho⟩
  rw [insertOp, Store.insertOp, hany]
  split_ifs
  · rfl
  · simp [ofStore]

theorem putManifest_ofStore (st : Store) (m : Manifest) :
    (ofStore st).putManifest m = ofStore (st.putManifest m) := by
  have hchunks : ∀ (cs : List (ChunkEntry × ℕ)) (t : OrdMap (Hash ×ₗ ℕ) ChunkEntry),
      cs.foldl (fun t c =>
        if (t.get? (toLex (m.contentHash, c.2))).isSome then t
        else t.insert (toLex (m.contentHash, c.2)) (ChunkColumns.ofEntry c.1))
        (t.mapVals ChunkColumns.ofEntry) =
      (cs.foldl (fun t c =>
        if (t.get? (toLex (m.contentHash, c.2))).isSome then t
        else t.insert (toLex (m.contentHash, c.2)) c.1) t).mapVals ChunkColumns.ofEntry := by
    intro cs
    induction cs with
    | nil => exact fun _ => rfl
    | cons c cs ih =>
      intro t
      rw [List.foldl_cons, List.foldl_cons, ← ih, OrdMap.get?_mapVals, Option.isSome_map]
      split_ifs
      · rfl
      · rw [OrdMap.mapVals_insert]
  simp only [putManifest, ofStore, Store.putManifest, hchunks]
  rfl

/-- Both answer a query alike. -/
theorem agree_query {α : Type} {x : Except DbError α} {a : α} (h : st.AllFit) (hx : x = .ok a) :
    Agree Represents (.ok (a, st)) ((ofStore st).query x) := by
  subst hx
  exact .ok a ⟨rfl, h⟩

/-- An update that leaves rows and ops alone. -/
theorem agree_update (st' : Store) (h : st.AllFit) (hfiles : st'.files = st.files)
    (hlog : st'.oplog = st.oplog) {db : Db} (hdb : db = ofStore st') :
    Agree (ε := DbError) Represents (.ok ((), st')) (.ok ((), db)) :=
  .ok () ⟨hdb, hfiles ▸ h.rows, hlog ▸ h.log⟩

theorem allFit_upsertFile (h : st.AllFit) {row : FileRow} (hrow : Fits row.vv row.metadata) :
    (st.upsertFile row).AllFit := by
  refine ⟨fun p r hr => ?_, h.log⟩
  rw [Store.upsertFile_files, OrdMap.get?_insert] at hr
  split_ifs at hr
  · exact Option.some.inj hr ▸ hrow
  · exact h.rows p r hr

theorem allFit_insertOp (h : st.AllFit) {op : OpRecord} (hop : Fits op.vv op.metadata) :
    (st.insertOp op).AllFit := by
  refine ⟨(st.insertOp_files op).symm ▸ h.rows, fun o ho => ?_⟩
  obtain ho | ⟨rfl, -⟩ := (Store.mem_insertOp st op).1 ho
  · exact h.log o ho
  · exact hop

/-- Call by call, the tables answer like the store they represent. -/
theorem simulates [Blake3] : Simulates Represents DbCall.Fit Store.server server := by
  rintro c st _ hfit ⟨rfl, h⟩
  cases c with
  | loadRow path => exact agree_query h (loadRow_ofStore h path)
  | loadFile path => exact agree_query h (loadFile_ofStore h path)
  | allFiles => exact agree_query h (allFiles_ofStore h)
  | liveFiles order => exact agree_query h (liveFiles_ofStore st order)
  | pathForHash order hash =>
    rw [server, pathForHash_ofStore]
    exact .ok _ ⟨rfl, h⟩
  | opsSince origin afterSeq limit => exact agree_query h (opsSince_ofStore h origin afterSeq limit)
  | opsAsCandidates path order => exact agree_query h (opsAsCandidates_ofStore h path order)
  | latestOriginSeq origin =>
    rw [server, maxSeq_ofStore]
    exact .ok _ ⟨rfl, h⟩
  | frontier order => exact agree_query h (frontier_ofStore st order)
  | opCount =>
    have hlength : (ofStore st).oplog.length = st.oplog.length := List.length_map _
    rw [server, hlength]
    exact .ok _ ⟨rfl, h⟩
  | hasApplied opId => exact .ok _ ⟨rfl, h⟩
  | cursorRow peer origin => exact .ok _ ⟨rfl, h⟩
  | manifestFor contentHash => exact agree_query h (manifestFor_ofStore st contentHash)
  | upsertFile row => exact .ok () ⟨upsertFile_ofStore st row, allFit_upsertFile h hfit⟩
  | insertOp op => exact .ok () ⟨insertOp_ofStore st op, allFit_insertOp h hfit⟩
  | markApplied opId =>
    refine agree_update (st.markApplied opId) h (st.markApplied_files opId)
      (st.markApplied_oplog opId) ?_
    rw [markApplied, Store.markApplied]
    change (if opId ∈ st.applied then _ else _) = _
    split_ifs
    · rfl
    · rfl
  | advanceRecvCursor peer origin upToSeq =>
    exact agree_update (st.advanceRecvCursor peer origin upToSeq) h rfl rfl rfl
  | advanceAck peer ourId upToSeq =>
    exact agree_update (st.advanceAck peer ourId upToSeq) h rfl rfl rfl
  | putManifest m =>
    exact agree_update (st.putManifest m) h rfl rfl (putManifest_ofStore st m)

end Db

section

variable [Blake3]

/-- What the command writes is made of values that the types of the source can hold. -/
def StoreCmd.Fits (me : NodeId) (st : Store) (cmd : StoreCmd) : Prop :=
  (cmd.txn me).Within Store.server DbCall.Fit st

/-- The errors of the commands themselves. -/
def commandErrors : List DbError :=
  [.corrupt "rename is not a LocalChange", .corrupt "manifest/content_hash mismatch",
    .corrupt "rename op without path_old"]

theorem Store.appendLocal_error {me : NodeId} {change : LocalChange} {st : Store} {err : StoreError}
    (h : st.appendLocal me change = .error err) : err.toDb ∈ commandErrors := by
  unfold Store.appendLocal at h
  split_ifs at h
  · cases h
    simp [commandErrors, StoreError.toDb]
  · dsimp only at h
    split at h
    · cases h
    · split_ifs at h
      cases h
      simp [commandErrors, StoreError.toDb]

/-- A row that the version is concurrent with is there to be planned around. -/
theorem Store.resolveRows_ne_error {path : Path} {remote : Version} {staged : List PlannedRow}
    {order : List Hash} {st : Store} {err : StoreError} :
    st.resolveRows path remote staged order ≠ .error err := by
  intro h
  unfold Store.resolveRows at h
  dsimp only at h
  split_ifs at h with hd
  split at h
  · rename_i hnone
    rw [not_not, Decision.decide_eq_concurrent] at hd
    obtain ⟨l, hl, -⟩ := hd
    obtain ⟨r, hr, -⟩ := Option.map_eq_some_iff.1 hl
    rw [Store.loadRow_eq_none, hr] at hnone
    cases hnone
  · split at h
    · cases h
    · split_ifs at h

omit [Blake3] in
theorem Store.applyRemote_error {op : OpRecord} {decision : Decision} {st : Store}
    {err : StoreError} (h : st.applyRemote op decision = .error err) :
    err.toDb ∈ commandErrors := by
  unfold Store.applyRemote at h
  split_ifs at h
  dsimp only at h
  split at h
  · rename_i err' hsource
    cases h
    unfold Store.applySource at hsource
    split_ifs at hsource
    split at hsource
    · split_ifs at hsource
    · cases hsource
      simp [commandErrors, StoreError.toDb]
  · cases h

theorem Store.serve_error {me : NodeId} {cmd : StoreCmd} {st : Store} {e : DbError}
    (h : (st.serve me cmd).1 = .error e) : e ∈ commandErrors := by
  have hreply : ∀ {α : Type} {f : α → Reply} {x : Except StoreError (α × Store)},
      (st.reply f x).1 = .error e → ∃ err, x = .error err ∧ e = err.toDb := by
    intro α f x hx
    cases x with
    | ok y => cases hx
    | error err => exact ⟨err, rfl, (Except.error.inj hx).symm⟩
  cases cmd with
  | appendLocal change =>
    obtain ⟨err, herr, rfl⟩ := hreply h
    exact Store.appendLocal_error herr
  | appendLocalRename old new =>
    obtain ⟨err, herr, -⟩ := hreply h
    cases herr
  | resolveRows path remote staged order =>
    obtain ⟨err, herr, -⟩ := hreply h
    exact absurd herr Store.resolveRows_ne_error
  | applyRemote op decision =>
    obtain ⟨err, herr, rfl⟩ := hreply h
    exact Store.applyRemote_error herr
  | reconcileUpsert row =>
    obtain ⟨err, herr, -⟩ := hreply h
    cases herr
  | _ => cases h

/-- From tables that represent a store on, the replies are those of the store. -/
theorem Db.session_of_represents (me : NodeId) {cmds : List StoreCmd} {st : Store} {db : Db}
    (hrep : Represents st db)
    (h : Lts.AllOk (StoreCmd.Fits me) (fun st cmd => (st.serve me cmd).2) st cmds) :
    (session (Db.serve me) cmds db).1 = (session (Store.serve me) cmds st).1 ∧
      Represents (session (Store.serve me) cmds st).2 (session (Db.serve me) cmds db).2 := by
  have hstep : ∀ cmd st db, StoreCmd.Fits me st cmd → Represents st db →
      (st.serve me cmd).1 = (Db.serve me cmd db).1 ∧
        Represents (st.serve me cmd).2 (Db.serve me cmd db).2 := by
    intro cmd st db hfits hrep
    rw [← Store.commit_txn]
    exact simulates.commit hfits hrep
  obtain ⟨hreplies, hend⟩ := session_eq hstep h hrep
  exact ⟨hreplies.symm, hend⟩

/-- **The database refines the store.**  Whatever commands a new database is given, in any order:
its replies are those of the store, its tables are always the columns of the rows and ops that the
store has, and the only errors are those with which the commands refuse their arguments; no table is
ever found corrupt.  Every value that is written has to be one that the types of the source can
hold. -/
theorem Db.database_refines (me : NodeId) (cmds : List StoreCmd)
    (h : Lts.AllOk (StoreCmd.Fits me) (fun st cmd => (st.serve me cmd).2) {} cmds) :
    (session (Db.serve me) cmds {}).1 = (session (Store.serve me) cmds {}).1 ∧
      (session (Db.serve me) cmds {}).2 = ofStore (session (Store.serve me) cmds {}).2 ∧
      ∀ e, .error e ∈ (session (Db.serve me) cmds {}).1 → e ∈ commandErrors := by
  have hempty : Represents {} {} := ⟨rfl, fun p r hr => (by cases hr), by simp⟩
  obtain ⟨hreplies, hend⟩ := session_of_represents me hempty h
  refine ⟨hreplies, hend.1, fun e he => ?_⟩
  rw [hreplies] at he
  obtain ⟨cmd, st, hreply⟩ := exists_of_mem_session he
  exact Store.serve_error hreply

end

section Example

attribute [local instance] Blake3.polynomial

instance (m : Meta) : Decidable m.Fits :=
  decidable_of_iff ((∀ t ∈ m.symlinkTarget, t.length < u64Bound) ∧ m.xattrs.length < u64Bound ∧
      ∀ x ∈ m.xattrs, x.1.length < u64Bound ∧ x.2.length < u64Bound)
    ⟨fun h => ⟨h.1, h.2.1, h.2.2⟩, fun h => ⟨h.target, h.count, h.xattrs⟩⟩

instance (vv : VersionVector) (metadata : Option Meta) : Decidable (Fits vv metadata) :=
  decidable_of_iff ((∀ e ∈ vv.map.entries, e.2 < u64Bound) ∧
      vv.map.entries.length < u64Bound ∧ ∀ m ∈ metadata, m.Fits)
    ⟨fun h => ⟨h.1, h.2.1, h.2.2⟩, fun h => ⟨h.counters, h.entries, h.metaFits⟩⟩

instance : DecidablePred DbCall.Fit
  | .upsertFile row => inferInstanceAs (Decidable (Fits row.vv row.metadata))
  | .insertOp op => inferInstanceAs (Decidable (Fits op.vv op.metadata))
  | .loadRow _ | .loadFile _ | .allFiles | .liveFiles _ | .pathForHash _ _ | .opsSince _ _ _
  | .opsAsCandidates _ _ | .latestOriginSeq _ | .frontier _ | .opCount | .hasApplied _
  | .cursorRow _ _ | .manifestFor _ | .markApplied _ | .advanceRecvCursor _ _ _ | .advanceAck _ _ _
  | .putManifest _ => .isTrue trivial

instance (me : NodeId) (st : Store) (cmd : StoreCmd) : Decidable (StoreCmd.Fits me st cmd) :=
  inferInstanceAs (Decidable (Prog.Within _ _ _ _))

/-- A local write, an op that is concurrent with it, and queries; the last one happens to find the
second origin first. -/
def writeThenAsk : List StoreCmd :=
  [.appendLocal Store.writeF, .applyRemote Store.foreignF .apply, .loadRow ['f'], .opsSince 2 0 8,
    .snapshotForJoin [2, 1]]

theorem Db.database_refines_writeThenAsk :
    (session (Db.serve 1) writeThenAsk {}).1[3]? = some (.ok (.ops [Store.foreignF])) ∧
      (∃ r, (session (Db.serve 1) writeThenAsk {}).1[2]? = some (.ok (.row (some r))) ∧
        r.contentHash = some 5) ∧
      ∃ snap, (session (Db.serve 1) writeThenAsk {}).1[4]? = some (.ok (.snapshot snap)) ∧
        snap.frontier = [(2, 1), (1, 1)] := by
  rw [(database_refines 1 writeThenAsk (by decide +kernel)).1]
  exact ⟨rfl, ⟨_, rfl, rfl⟩, _, rfl, by decide +kernel⟩

end Example

end Replicore
