import Mathlib.Data.Finset.Lattice.Fold
import Mathlib.Data.Fintype.Basic
import Mathlib.Data.String.Basic
import Replicore.Lib.Rerun
import Replicore.Store.Refines

/-!
# Opening a database

`Store::open` of `oplog.rs`: tables that are missing are created, columns that earlier versions did
not have are added, rows without an identity get one, and the cursors of the first layout are taken
over.  The statements are committed one by one, so a crash may leave a file between any two of them,
and the next start runs them all again.

`DbFile.content` is what a file of any earlier layout holds, with nothing in a table and NULL in a
column that it does not have.

* `DbFile.open_recovers` : however often opening was broken off, it ends with one and the same file,
  in which the content is as it was but for the identities and cursors that were missing;
* `DbFile.replies_across_restarts` : over any number of starts, the store thread replies as the store
  to which each start adds these.

Indexes on columns that every layout has are left out, and the pragmas.
-/

namespace Replicore

open Transaction Rerun

/-- The tables. -/
inductive Table
  | oplog
  | files
  | peers
  | applied
  | manifests
  | manifestChunks
  | peerCursors
  | scalars
  deriving DecidableEq

instance : Fintype Table where
  elems := {.oplog, .files, .peers, .applied, .manifests, .manifestChunks, .peerCursors, .scalars}
  complete t := by cases t <;> decide

/-- The columns that earlier versions did not have. -/
inductive Column
  | oplogPathOld
  | oplogUuid
  | oplogMeta
  | filesUuid
  | filesMeta
  deriving DecidableEq

instance : Fintype Column where
  elems := {.oplogPathOld, .oplogUuid, .oplogMeta, .filesUuid, .filesMeta}
  complete c := by cases c <;> decide

/-- The table of a column. -/
def Column.table : Column → Table
  | oplogPathOld | oplogUuid | oplogMeta => .oplog
  | filesUuid | filesMeta => .files

/-- A row of `peers`, where the first layout had its cursors. -/
structure PeerRow where
  lastSentSeq : ℤ := 0
  lastAckedSeq : ℤ := 0
  recvCursor : ℤ := 0
  deriving DecidableEq

/-- A database file: which tables and columns it has, and what is in them. -/
structure DbFile where
  tables : Finset Table
  columns : Finset Column
  db : Db
  peers : OrdMap NodeId PeerRow
  /-- The table `meta`. -/
  scalars : OrdMap String String

/-- The columns of an op that a file with these columns has; the others are NULL. -/
def OplogColumns.within (cols : Finset Column) (c : OplogColumns) : OplogColumns :=
  { c with
    pathOld := if Column.oplogPathOld ∈ cols then c.pathOld else none
    uuid := if Column.oplogUuid ∈ cols then c.uuid else none
    metadata := if Column.oplogMeta ∈ cols then c.metadata else none }

/-- The columns of a row that a file with these columns has. -/
def FilesColumns.within (cols : Finset Column) (c : FilesColumns) : FilesColumns :=
  { c with
    uuid := if Column.filesUuid ∈ cols then c.uuid else none
    metadata := if Column.filesMeta ∈ cols then c.metadata else none }

theorem OplogColumns.within_univ (c : OplogColumns) : c.within Finset.univ = c := rfl

theorem FilesColumns.within_univ (c : FilesColumns) : c.within Finset.univ = c := rfl

theorem OplogColumns.within_within (c : OplogColumns) (s t : Finset Column) :
    (c.within s).within t = c.within (s ∩ t) := by
  simp only [within, Finset.mem_inter, ite_and]
  congr 1 <;> split_ifs <;> rfl

theorem FilesColumns.within_within (c : FilesColumns) (s t : Finset Column) :
    (c.within s).within t = c.within (s ∩ t) := by
  simp only [within, Finset.mem_inter, ite_and]
  congr 1 <;> split_ifs <;> rfl

/-- The row with an identity. -/
def FilesColumns.identified [Blake3] (path : Path) (c : FilesColumns) : FilesColumns :=
  { c with uuid := c.uuid.or (some (NodeId.bytes (migrationUuid path))) }

/-- `UPDATE files SET uuid` of one path. -/
def mintUuid [Blake3] (files : OrdMap Path FilesColumns) (path : Path) :
    OrdMap Path FilesColumns :=
  match files.get? path with
  | some c => files.insert path { c with uuid := some (NodeId.bytes (migrationUuid path)) }
  | none => files

/-- The paths of rows where the identity is NULL. -/
def unidentified (files : OrdMap Path FilesColumns) : List Path :=
  (files.entries.filter fun e => e.2.uuid = none).map Prod.fst

/-- `backfill_uuids`. -/
def backfillUuids [Blake3] (files : OrdMap Path FilesColumns) : OrdMap Path FilesColumns :=
  (unidentified files).foldl mintUuid files

theorem FilesColumns.identified_within [Blake3] {cols : Finset Column}
    (h : Column.filesUuid ∈ cols) (path : Path) (c : FilesColumns) :
    ((c.identified path).within cols).identified path = (c.within cols).identified path := by
  simp only [identified, within, h, if_true]
  cases c.uuid <;> rfl

theorem mem_unidentified {files : OrdMap Path FilesColumns} {path : Path} {c : FilesColumns}
    (h : files.get? path = some c) : path ∈ unidentified files ↔ c.uuid = none := by
  rw [unidentified, List.mem_map]
  constructor
  · rintro ⟨e, he, rfl⟩
    obtain ⟨he, hnone⟩ := List.mem_filter.1 he
    obtain rfl := Option.some.inj (h.symm.trans (OrdMap.mem_entries.1 he))
    exact of_decide_eq_true hnone
  · intro hnone
    exact ⟨(path, c), List.mem_filter.2 ⟨OrdMap.mem_entries.2 h, decide_eq_true hnone⟩, rfl⟩

theorem get?_foldl_mintUuid [Blake3] (paths : List Path) (files : OrdMap Path FilesColumns)
    (p : Path) :
    (paths.foldl mintUuid files).get? p = (files.get? p).map fun c =>
      if p ∈ paths then { c with uuid := some (NodeId.bytes (migrationUuid p)) } else c := by
  induction paths generalizing files with
  | nil => simp
  | cons path paths ih =>
    rw [List.foldl_cons, ih, mintUuid]
    by_cases hp : p = path
    · subst hp
      cases hpath : files.get? p with
      | none => simp [hpath]
      | some c => simp
    · have hsame : (mintUuid files path).get? p = files.get? p := by
        rw [mintUuid]
        cases files.get? path with
        | none => rfl
        | some c => exact OrdMap.get?_insert_of_ne _ _ (Ne.symm hp)
      rw [← mintUuid, hsame]
      simp only [List.mem_cons, hp, false_or]

/-- Every row has an identity afterwards, and the rows that had one keep it. -/
theorem backfillUuids_eq [Blake3] (files : OrdMap Path FilesColumns) :
    backfillUuids files = files.mapWithKey FilesColumns.identified := by
  refine OrdMap.ext_get? fun p => ?_
  rw [backfillUuids, get?_foldl_mintUuid, OrdMap.get?_mapWithKey]
  cases hp : files.get? p with
  | none => rfl
  | some c =>
    simp only [Option.map_some, mem_unidentified hp, FilesColumns.identified]
    obtain ⟨contentHash, mode, size, vv, tombstone, uuid, metadata⟩ := c
    cases uuid <;> rfl

namespace DbFile

/-- What the file holds. -/
def content (f : DbFile) : DbFile where
  tables := Finset.univ
  columns := Finset.univ
  db :=
    { oplog := if Table.oplog ∈ f.tables then f.db.oplog.map (·.within f.columns) else []
      files :=
        if Table.files ∈ f.tables then f.db.files.mapVals (·.within f.columns) else OrdMap.empty
      applied := if Table.applied ∈ f.tables then f.db.applied else []
      peerCursors := if Table.peerCursors ∈ f.tables then f.db.peerCursors else OrdMap.empty
      manifests := if Table.manifests ∈ f.tables then f.db.manifests else OrdMap.empty
      manifestChunks :=
        if Table.manifestChunks ∈ f.tables then f.db.manifestChunks else OrdMap.empty }
  peers := if Table.peers ∈ f.tables then f.peers else OrdMap.empty
  scalars := if Table.scalars ∈ f.tables then f.scalars else OrdMap.empty

/-- A table without rows. -/
def clear (f : DbFile) : Table → DbFile
  | .oplog => { f with db := { f.db with oplog := [] } }
  | .files => { f with db := { f.db with files := OrdMap.empty } }
  | .peers => { f with peers := OrdMap.empty }
  | .applied => { f with db := { f.db with applied := [] } }
  | .manifests => { f with db := { f.db with manifests := OrdMap.empty } }
  | .manifestChunks => { f with db := { f.db with manifestChunks := OrdMap.empty } }
  | .peerCursors => { f with db := { f.db with peerCursors := OrdMap.empty } }
  | .scalars => { f with scalars := OrdMap.empty }

/-- `CREATE TABLE IF NOT EXISTS`, with all of its columns. -/
def createTable (f : DbFile) (t : Table) : DbFile :=
  if t ∈ f.tables then f
  else
    { f.clear t with
      tables := insert t f.tables
      columns := f.columns ∪ (Finset.univ : Finset Column).filter (·.table = t) }

/-- `ALTER TABLE … ADD COLUMN`, unless `has_column`. -/
def addColumn (f : DbFile) (c : Column) : Except DbError DbFile :=
  if c ∈ f.columns then .ok f
  else if c.table ∈ f.tables then
    .ok { f with
      columns := insert c f.columns
      db := { f.db with
        oplog := f.db.oplog.map (·.within ((Finset.univ : Finset Column).erase c))
        files := f.db.files.mapVals (·.within ((Finset.univ : Finset Column).erase c)) } }
  else .error (.sqlite "no such table")

/-- The cursors in the rows of `peers`. -/
def recvCursors (peers : OrdMap NodeId PeerRow) : List ((NodeId ×ₗ NodeId) × CursorRow) :=
  (peers.entries.filter fun e => 0 < e.2.recvCursor).map fun e =>
    (toLex (e.1, e.1), { recvCursor := e.2.recvCursor })

/-- The acks in the rows of `peers`: acks of our ops. -/
def ackCursors (me : NodeId) (peers : OrdMap NodeId PeerRow) :
    List ((NodeId ×ₗ NodeId) × CursorRow) :=
  (peers.entries.filter fun e => 0 < e.2.lastAckedSeq ∧ e.1 ≠ me).map fun e =>
    (toLex (e.1, me), { lastAckedSeq := e.2.lastAckedSeq })

/-- `INSERT OR IGNORE` of cursors. -/
def insertCursors (f : DbFile) (cursors : List ((NodeId ×ₗ NodeId) × CursorRow)) : DbFile :=
  { f with db := { f.db with peerCursors := f.db.peerCursors.insertMissing cursors } }

/-- The statements of `Store::open`. -/
inductive Statement
  | createTable (t : Table)
  | addColumn (c : Column)
  /-- An index on an added column. -/
  | createIndex (c : Column)
  | migrateUuids
  | backfillRecv
  | backfillAcked

/-- The tables, in the order of the source. -/
def schemaTables : List Table :=
  [.oplog, .files, .peers, .applied, .manifests, .manifestChunks, .peerCursors, .scalars]

/-- The columns that are added. -/
def addedColumns : List Column := [.oplogPathOld, .oplogUuid, .oplogMeta, .filesUuid, .filesMeta]

/-- The columns with an index. -/
def indexedColumns : List Column := [.oplogPathOld, .filesUuid]

/-- In the order of the source. -/
def statements : List Statement :=
  schemaTables.map .createTable ++ (addedColumns.map .addColumn ++
    (indexedColumns.map .createIndex ++ [.migrateUuids, .backfillRecv, .backfillAcked]))

section

variable [Blake3]

/-- What a statement does, as a transaction of its own. -/
def exec (me : NodeId) : Statement → DbFile → Except DbError DbFile
  | .createTable t, f => .ok (f.createTable t)
  | .addColumn c, f => f.addColumn c
  | .createIndex c, f => if c ∈ f.columns then .ok f else .error (.sqlite "no such column")
  | .migrateUuids, f =>
    if Column.filesUuid ∈ f.columns then
      .ok { f with db := { f.db with files := backfillUuids f.db.files } }
    else .error (.sqlite "no such column")
  | .backfillRecv, f =>
    if Table.peers ∈ f.tables ∧ Table.peerCursors ∈ f.tables then
      .ok (f.insertCursors (recvCursors f.peers))
    else .error (.sqlite "no such table")
  | .backfillAcked, f =>
    if Table.peers ∈ f.tables ∧ Table.peerCursors ∈ f.tables then
      .ok (f.insertCursors (ackCursors me f.peers))
    else .error (.sqlite "no such table")

/-- `Store::open`, up to the start of the store thread. -/
def openStore (me : NodeId) (f : DbFile) : Except DbError DbFile :=
  runAll (exec me) statements f

/-- The file after opening. -/
def migrated (me : NodeId) (f : DbFile) : DbFile :=
  let c := f.content
  { c with db :=
    { c.db with
      files := c.db.files.mapWithKey FilesColumns.identified
      peerCursors :=
        (c.db.peerCursors.insertMissing (recvCursors c.peers)).insertMissing
          (ackCursors me c.peers) } }

end

/-! ### The tables and columns -/

variable {f f' : DbFile}

theorem content_createTable (f : DbFile) (t : Table) : (f.createTable t).content = f.content := by
  by_cases h : t ∈ f.tables
  · rw [createTable, if_pos h]
  · have hcols : ∀ c, c ∈ f.columns ∪ (Finset.univ : Finset Column).filter (·.table = t) ↔
        c ∈ f.columns ∨ c.table = t := fun c => by
      rw [Finset.mem_union, Finset.mem_filter_univ]
    rw [createTable, if_neg h]
    simp only [content, OplogColumns.within, FilesColumns.within, hcols]
    cases t <;> simp [clear, h, Column.table]

theorem tables_createTable (f : DbFile) (t : Table) :
    (f.createTable t).tables = insert t f.tables := by
  by_cases h : t ∈ f.tables
  · rw [createTable, if_pos h, Finset.insert_eq_of_mem h]
  · rw [createTable, if_neg h]

/-- The columns that are there are not touched by adding one that is not. -/
theorem erase_inter_insert {cols : Finset Column} {c : Column} (h : c ∉ cols) :
    (Finset.univ : Finset Column).erase c ∩ insert c cols = cols := by
  rw [Finset.inter_insert_of_notMem (Finset.notMem_erase c _), Finset.erase_inter,
    Finset.univ_inter, Finset.erase_eq_of_notMem h]

theorem content_addColumn {c : Column} (h : f.addColumn c = .ok f') : f'.content = f.content := by
  rw [addColumn] at h
  split_ifs at h with hc ht
  · cases h
    rfl
  · cases h
    simp only [content, List.map_map, OrdMap.mapVals_mapVals, Function.comp_def,
      OplogColumns.within_within, FilesColumns.within_within, erase_inter_insert hc]

theorem addColumn_ok {c : Column} (h : c.table ∈ f.tables) :
    ∃ f', f.addColumn c = .ok f' ∧ f'.tables = f.tables ∧ f'.columns = insert c f.columns := by
  by_cases hc : c ∈ f.columns
  · exact ⟨f, by rw [addColumn, if_pos hc], rfl, (Finset.insert_eq_of_mem hc).symm⟩
  · exact ⟨_, (if_neg hc).trans (if_pos h), rfl, rfl⟩

/-- A file that has everything holds what it holds. -/
theorem content_eq_self (htables : f.tables = Finset.univ) (hcols : f.columns = Finset.univ) :
    f.content = f := by
  obtain ⟨tables, columns, db, peers, scalars⟩ := f
  subst htables hcols
  simp only [content, Finset.mem_univ, if_true, OplogColumns.within_univ, FilesColumns.within_univ,
    List.map_id', OrdMap.mapVals_id]

/-- Cursors from `recv_cursor` and from `last_acked_seq` are at different keys. -/
theorem recvCursors_ne_ackCursors (me : NodeId) (peers : OrdMap NodeId PeerRow) :
    ∀ e ∈ recvCursors peers, ∀ d ∈ ackCursors me peers, e.1 ≠ d.1 := by
  intro e he d hd heq
  obtain ⟨x, -, rfl⟩ := List.mem_map.1 he
  obtain ⟨y, hy, rfl⟩ := List.mem_map.1 hd
  have hne := (of_decide_eq_true (List.mem_filter.1 hy).2).2
  have hpair := Prod.ext_iff.1 (toLex.injective heq)
  exact hne (hpair.1.symm.trans hpair.2)

section

variable [Blake3] (me : NodeId)

theorem run_createTables (tables : List Table) (f : DbFile) :
    ∃ f', runAll (exec me) (tables.map .createTable) f = .ok f' ∧ f'.content = f.content ∧
      ∀ t, t ∈ tables ∨ t ∈ f.tables → t ∈ f'.tables := by
  induction tables generalizing f with
  | nil => exact ⟨f, rfl, rfl, fun t ht => ht.resolve_left List.not_mem_nil⟩
  | cons t tables ih =>
    obtain ⟨f', hrun, hcontent, htables⟩ := ih (f.createTable t)
    refine ⟨f', ?_, hcontent.trans (content_createTable f t), fun u hu => htables u ?_⟩
    · rw [List.map_cons, runAll_cons_of_ok rfl, hrun]
    · rw [tables_createTable, Finset.mem_insert]
      obtain hu | hu := hu
      · obtain rfl | hu := List.mem_cons.1 hu
        · exact .inr (.inl rfl)
        · exact .inl hu
      · exact .inr (.inr hu)

theorem run_addColumns (cols : List Column) (f : DbFile) (htables : f.tables = Finset.univ) :
    ∃ f', runAll (exec me) (cols.map .addColumn) f = .ok f' ∧ f'.content = f.content ∧
      f'.tables = Finset.univ ∧ ∀ c, c ∈ cols ∨ c ∈ f.columns → c ∈ f'.columns := by
  induction cols generalizing f with
  | nil => exact ⟨f, rfl, rfl, htables, fun c hc => hc.resolve_left List.not_mem_nil⟩
  | cons c cols ih =>
    obtain ⟨f₁, hadd, ht₁, hc₁⟩ := addColumn_ok (f := f) (c := c) (htables ▸ Finset.mem_univ _)
    obtain ⟨f', hrun, hcontent, ht, hcols⟩ := ih f₁ (ht₁.trans htables)
    refine ⟨f', ?_, hcontent.trans (content_addColumn hadd), ht, fun d hd => hcols d ?_⟩
    · rw [List.map_cons, runAll_cons_of_ok (show exec me (.addColumn c) f = .ok f₁ from hadd), hrun]
    · rw [hc₁, Finset.mem_insert]
      obtain hd | hd := hd
      · obtain rfl | hd := List.mem_cons.1 hd
        · exact .inr (.inl rfl)
        · exact .inl hd
      · exact .inr (.inr hd)

theorem run_createIndexes (cols : List Column) (h : f.columns = Finset.univ) :
    runAll (exec me) (cols.map .createIndex) f = .ok f := by
  induction cols with
  | nil => rfl
  | cons c cols ih =>
    have hc : exec me (.createIndex c) f = .ok f := if_pos (h ▸ Finset.mem_univ c)
    rw [List.map_cons, runAll_cons_of_ok hc, ih]

theorem exec_migrateUuids (h : Column.filesUuid ∈ f.columns) :
    exec me .migrateUuids f =
      .ok { f with db := { f.db with files := backfillUuids f.db.files } } :=
  if_pos h

theorem exec_backfillRecv (h : Table.peers ∈ f.tables ∧ Table.peerCursors ∈ f.tables) :
    exec me .backfillRecv f = .ok (f.insertCursors (recvCursors f.peers)) :=
  if_pos h

theorem exec_backfillAcked (h : Table.peers ∈ f.tables ∧ Table.peerCursors ∈ f.tables) :
    exec me .backfillAcked f = .ok (f.insertCursors (ackCursors me f.peers)) :=
  if_pos h

/-! ### Opening -/

/-- Opening never fails, and where it ends follows from what the file holds. -/
theorem openStore_eq (f : DbFile) : openStore me f = .ok (f.migrated me) := by
  -- once all tables and columns are there, the file is what it holds
  obtain ⟨f₁, hrun₁, hcontent₁, hmem₁⟩ := run_createTables me schemaTables f
  have htables₁ : f₁.tables = Finset.univ :=
    Finset.eq_univ_of_forall fun t => hmem₁ t (.inl (by cases t <;> decide))
  obtain ⟨f₂, hrun₂, hcontent₂, htables₂, hmem₂⟩ := run_addColumns me addedColumns f₁ htables₁
  have hcols₂ : f₂.columns = Finset.univ :=
    Finset.eq_univ_of_forall fun c => hmem₂ c (.inl (by cases c <;> decide))
  obtain rfl : f₂ = f.content :=
    (content_eq_self htables₂ hcols₂).symm.trans (hcontent₂.trans hcontent₁)
  rw [openStore, statements, runAll_append_of_ok hrun₁, runAll_append_of_ok hrun₂,
    runAll_append_of_ok (run_createIndexes me indexedColumns hcols₂)]
  rw [runAll_cons_of_ok (exec_migrateUuids me (Finset.mem_univ _)),
    runAll_cons_of_ok (exec_backfillRecv me ⟨Finset.mem_univ _, Finset.mem_univ _⟩),
    runAll_cons_of_ok (exec_backfillAcked me ⟨Finset.mem_univ _, Finset.mem_univ _⟩), runAll_nil,
    backfillUuids_eq]
  rfl

theorem migrated_eq_of_content (h : f'.content = f.content) : f'.migrated me = f.migrated me := by
  rw [migrated, h]
  rfl

/-- Whatever statement is carried out, opening ends in the same file. -/
theorem migrated_exec (t : Statement) (h : exec me t f = .ok f') :
    f'.migrated me = f.migrated me := by
  cases t with
  | createTable t =>
    cases h
    exact migrated_eq_of_content me (content_createTable f t)
  | addColumn c => exact migrated_eq_of_content me (content_addColumn h)
  | createIndex c =>
    rw [exec] at h
    split_ifs at h
    cases h
    rfl
  | migrateUuids =>
    rw [exec] at h
    split_ifs at h with hcol
    cases h
    have hfiles : ∀ files : OrdMap Path FilesColumns,
        ((backfillUuids files).mapVals (·.within f.columns)).mapWithKey FilesColumns.identified =
          (files.mapVals (·.within f.columns)).mapWithKey FilesColumns.identified := by
      intro files
      refine OrdMap.ext_get? fun p => ?_
      simp only [backfillUuids_eq, OrdMap.get?_mapWithKey, OrdMap.get?_mapVals, Option.map_map,
        Function.comp_def, FilesColumns.identified_within hcol]
    by_cases ht : Table.files ∈ f.tables
    · simp only [migrated, content, ht, if_true, hfiles]
    · simp only [migrated, content, ht, if_false]
  | backfillRecv =>
    rw [exec] at h
    split_ifs at h with ht
    cases h
    simp only [migrated, content, insertCursors, ht.1, ht.2, if_true, OrdMap.insertMissing_self]
    rfl
  | backfillAcked =>
    rw [exec] at h
    split_ifs at h with ht
    cases h
    simp only [migrated, content, insertCursors, ht.1, ht.2, if_true]
    -- the acks were inserted first here; the cursors are at other keys
    rw [OrdMap.insertMissing_comm _ (recvCursors_ne_ackCursors me f.peers),
      OrdMap.insertMissing_self]
    rfl

theorem redo_statements : Redo (exec me) statements (migrated me) where
  reaches f := openStore_eq me f
  keeps t _ _ _ h := migrated_exec me t h

/-- The store with the identities and cursors that are added. -/
def storeMigrated (me : NodeId) (peers : OrdMap NodeId PeerRow) (st : Store) : Store :=
  { st with
    files := st.files.mapWithKey fun path r =>
      { r with uuid := r.uuid.or (some (migrationUuid path)) }
    peerCursors :=
      (st.peerCursors.insertMissing (recvCursors peers)).insertMissing (ackCursors me peers) }

/-- A file that holds a store is opened as this store, with what is added. -/
theorem represents_migrated {st : Store} (hst : st.AllFit) (h : f.content.db = Db.ofStore st) :
    Db.Represents (storeMigrated me f.content.peers st) (f.migrated me).db := by
  refine ⟨?_, ?_, hst.log⟩
  · have hfiles : (st.files.mapVals FilesColumns.ofRow).mapWithKey FilesColumns.identified =
        (st.files.mapWithKey fun path r =>
          { r with uuid := r.uuid.or (some (migrationUuid path)) }).mapVals FilesColumns.ofRow := by
      refine OrdMap.ext_get? fun p => ?_
      simp only [OrdMap.get?_mapWithKey, OrdMap.get?_mapVals, Option.map_map]
      refine congrArg (fun g => (st.files.get? p).map g) (funext fun r => ?_)
      obtain ⟨contentHash, mode, size, tombstone, vv, uuid, metadata⟩ := r
      cases uuid <;> rfl
    simp only [migrated, h, Db.ofStore, storeMigrated, hfiles]
  · intro p r hr
    rw [storeMigrated, OrdMap.get?_mapWithKey] at hr
    obtain ⟨r₀, hr₀, rfl⟩ := Option.map_eq_some_iff.1 hr
    exact hst.rows p r₀ hr₀

/-- **Opening recovers.**  Whatever layout a file has, and however often opening it was broken off
after some statement: opening ends in the one file that follows from what the file held, and opening
this again changes nothing.  Every row and cursor that was held is still there, each row now with an
identity, and the log is as it was. -/
theorem open_recovers (h : Interrupted (exec me) statements f f') :
    openStore me f' = .ok (f.migrated me) ∧
      openStore me (f.migrated me) = .ok (f.migrated me) ∧
      (f.migrated me).db.oplog = f.content.db.oplog ∧
      (∀ path c, f.content.db.files.get? path = some c →
        ∃ u, (f.migrated me).db.files.get? path = some { c with uuid := some u } ∧
          c.uuid.getD u = u) ∧
      (∀ path c, (f.migrated me).db.files.get? path = some c → c.uuid.isSome) ∧
      ∀ key row, f.content.db.peerCursors.get? key = some row →
        (f.migrated me).db.peerCursors.get? key = some row := by
  refine ⟨(redo_statements me).rerun h, (redo_statements me).again f, rfl, ?_, ?_, ?_⟩
  · intro path c hc
    refine ⟨c.uuid.getD (NodeId.bytes (migrationUuid path)), ?_, ?_⟩
    · rw [migrated, OrdMap.get?_mapWithKey, hc, Option.map_some, FilesColumns.identified]
      cases c.uuid <;> rfl
    · cases c.uuid <;> rfl
  · intro path c hc
    rw [migrated, OrdMap.get?_mapWithKey] at hc
    obtain ⟨c₀, -, rfl⟩ := Option.map_eq_some_iff.1 hc
    simp [FilesColumns.identified]
  · intro key row hrow
    rw [migrated, OrdMap.get?_insertMissing, OrdMap.get?_insertMissing, hrow]
    rfl

/-! ### Restarts -/

/-- What a node replies over its starts.  At each of them the file may have been opened in vain any
number of times; the commands are those whose transactions were committed before the next start. -/
inductive Lives : DbFile → List (List StoreCmd) → List (List (Except DbError Reply)) → Prop
  | nil (f : DbFile) : Lives f [] []
  | cons {f f' g : DbFile} {cmds : List StoreCmd} {lives : List (List StoreCmd)}
      {replies : List (List (Except DbError Reply))} (h : Interrupted (exec me) statements f f')
      (hopen : openStore me f' = .ok g)
      (hrest : Lives { g with db := (session (Db.serve me) cmds g.db).2 } lives replies) :
      Lives f (cmds :: lives) ((session (Db.serve me) cmds g.db).1 :: replies)

/-- What a store replies, when each start adds what is missing. -/
def storeLives (peers : OrdMap NodeId PeerRow) :
    List (List StoreCmd) → Store → List (List (Except DbError Reply))
  | [], _ => []
  | cmds :: lives, st =>
    (session (Store.serve me) cmds (storeMigrated me peers st)).1 ::
      storeLives peers lives (session (Store.serve me) cmds (storeMigrated me peers st)).2

/-- In each life, only values are written that the types of the source can hold. -/
def LivesFit (peers : OrdMap NodeId PeerRow) : List (List StoreCmd) → Store → Prop
  | [], _ => True
  | cmds :: lives, st =>
    Lts.AllOk (StoreCmd.Fits me) (fun st cmd => (st.serve me cmd).2)
        (storeMigrated me peers st) cmds ∧
      LivesFit peers lives (session (Store.serve me) cmds (storeMigrated me peers st)).2

/-- The file that a store thread leaves has all tables and columns. -/
theorem content_served (f : DbFile) (db : Db) :
    ({ f.migrated me with db := db } : DbFile).content = { f.migrated me with db := db } :=
  content_eq_self rfl rfl

/-- **The database refines the store across restarts.**  A file that holds a store, in whatever
layout, is opened, serves commands until the node crashes or stops, and is opened again, with starts
in between that do not get through: all replies are those of the store, to which each start adds the
identities and cursors that are missing and nothing else. -/
theorem replies_across_restarts {lives : List (List StoreCmd)}
    {replies : List (List (Except DbError Reply))} {st : Store} (hst : st.AllFit)
    (hdb : f.content.db = Db.ofStore st) (hfit : LivesFit me f.content.peers lives st)
    (h : Lives me f lives replies) : replies = storeLives me f.content.peers lives st := by
  induction h generalizing st with
  | nil => rfl
  | @cons f f' g cmds lives replies hf hopen _ ih =>
    obtain rfl : f.migrated me = g :=
      Except.ok.inj (((redo_statements me).rerun hf).symm.trans hopen)
    obtain ⟨hcmds, hlives⟩ := hfit
    obtain ⟨hreplies, hend, hfits⟩ :=
      Db.session_of_represents me (represents_migrated me hst hdb) hcmds
    -- the next start finds a file with all tables and columns, and with the same `peers`
    have hcontent := content_served me f (session (Db.serve me) cmds (f.migrated me).db).2
    have hpeers := congrArg DbFile.peers hcontent
    have hrest := ih hfits ((congrArg DbFile.db hcontent).trans hend)
      (by rw [hpeers]; exact hlives)
    rw [hpeers] at hrest
    rw [storeLives, hreplies, hrest]
    rfl

end

end DbFile

section Example

attribute [local instance] Blake3.polynomial

namespace DbFile

/-- A row of the version without identities. -/
def oldRow : Row :=
  { contentHash := some 5, mode := 0o644, size := 3, tombstone := false, vv := VersionVector.new,
    uuid := none, metadata := none }

/-- The store of a node that has this row. -/
def oldStore : Store := { files := OrdMap.empty.insert ['f'] oldRow }

theorem allFit_oldStore : oldStore.AllFit where
  rows p r hr := by
    rw [oldStore, OrdMap.get?_insert] at hr
    split_ifs at hr
    · cases hr
      decide
    · cases hr
  log _ ho := absurd ho List.not_mem_nil

/-- A file of the first layout: four of the tables, none of the later columns, and the cursors of a
peer in its row. -/
def oldFile : DbFile where
  tables := {.oplog, .files, .peers, .applied}
  columns := ∅
  db := Db.ofStore oldStore
  peers := OrdMap.empty.insert 2 { lastAckedSeq := 3, recvCursor := 5 }
  scalars := OrdMap.empty

/-- Opening the file is broken off after the first of the added columns, and then done. -/
theorem open_recovers_oldFile :
    ∃ f', runAll (exec 1) (statements.take 9) oldFile = .ok f' ∧
      openStore 1 f' = .ok (oldFile.migrated 1) := by
  obtain ⟨f', hrun⟩ : ∃ f', runAll (exec 1) (statements.take 9) oldFile = .ok f' := ⟨_, rfl⟩
  have hprefix := List.take_prefix 9 statements
  exact ⟨f', hrun, (open_recovers 1 (.again .none hprefix hrun)).1⟩

/-- Opening is broken off once; then the peer's ack is asked for, and after a restart the row. -/
theorem replies_across_restarts_oldFile :
    ∃ replies, Lives 1 oldFile [[.lastAcked 2], [.loadRow ['f']]] replies ∧
      replies = [[.ok (.seq 3)], [.ok (.row (some
        { oldRow with path := ['f'], uuid := some (migrationUuid ['f']) }))]] := by
  obtain ⟨f', hrun⟩ : ∃ f', runAll (exec 1) (statements.take 9) oldFile = .ok f' := ⟨_, rfl⟩
  have hbroken := Interrupted.again .none (List.take_prefix 9 statements) hrun
  obtain ⟨replies, hlives⟩ :
      ∃ replies, Lives 1 oldFile [[.lastAcked 2], [.loadRow ['f']]] replies :=
    ⟨_, .cons hbroken (openStore_eq 1 f') (.cons .none (openStore_eq 1 _) (.nil _))⟩
  have hfit : LivesFit 1 oldFile.content.peers [[.lastAcked 2], [.loadRow ['f']]] oldStore :=
    ⟨by decide +kernel, by decide +kernel, trivial⟩
  exact ⟨replies, hlives, (replies_across_restarts 1 allFit_oldStore rfl hfit hlives).trans rfl⟩

end DbFile

end Example

end Replicore
