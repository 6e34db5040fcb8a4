import Replicore.Lib.Bincode
import Replicore.Store.Blob
import Replicore.Store.Commands

/-!
# Columns

What SQLite holds: integers of 64 bits, blobs and texts.  `state.rs` and `oplog.rs` turn rows and ops
into columns and columns into rows and ops.  Reading may fail: a blob may have the wrong length or
not decode.

* `FilesColumns`, `OplogColumns`, `ChunkColumns` : one row of each table, beside its key;
* `FilesColumns.ofRow`, `OplogColumns.ofOp`, `ChunkColumns.ofEntry` : what is written;
* `FilesColumns.toRow`, `FilesColumns.toLocalFile`, `OplogColumns.toOp`,
  `OplogColumns.toCandidate`, … : what the queries read.

A row whose values are those of the types of the source (`Fits`) is read as it was written, by every
query.
-/

namespace Replicore

open Bytes

/-- Why a command of the store thread failed. -/
inductive DbError
  | sqlite (what : String)
  | vvCodec
  | corrupt (what : String)
  deriving DecidableEq

namespace Columns

/-! ### Integers -/

/-- `x as i64` of a `u32`. -/
def i64OfU32 (x : U32) : Int64 := Int64.ofNat x.val

/-- `x as u32` of an `i64`: the low half. -/
def asU32 (i : Int64) : U32 := Fin.ofNat _ i.toUInt64.toNat

/-- `x as i64` of a `u64`: values from 2⁶³ on become negative. -/
def i64OfU64 (x : U64) : Int64 := (UInt64.ofNat x.val).toInt64

/-- `x as u64` of an `i64`. -/
def asU64 (i : Int64) : U64 := Fin.ofNat _ i.toUInt64.toNat

@[simp] theorem asU64_i64OfU64 (x : U64) : asU64 (i64OfU64 x) = x := by
  rw [i64OfU64, asU64, UInt64.toUInt64_toInt64, UInt64.toNat_ofNat_of_lt' x.isLt]
  exact Fin.ofNat_val_eq_self x

@[simp] theorem asU32_i64OfU32 (x : U32) : asU32 (i64OfU32 x) = x := by
  have hlt : x.val < 2 ^ 64 := x.isLt.trans (by norm_num)
  have hnat : (i64OfU32 x).toUInt64.toNat = x.val := UInt64.toNat_ofNat_of_lt' hlt
  rw [asU32, hnat]
  exact Fin.ofNat_val_eq_self x

/-! ### Blobs -/

/-- A blob of 32 bytes. -/
def blob32 (blob : List Byte) (what : String) : Except DbError Hash :=
  if blob.length = 32 then .ok (Fin.ofNat _ (beValue blob)) else .error (.corrupt what)

/-- A blob of 16 bytes. -/
def blob16 (blob : List Byte) (what : String) : Except DbError NodeId :=
  if blob.length = 16 then .ok (Fin.ofNat _ (beValue blob)) else .error (.corrupt what)

/-- `decode_vv`. -/
def decodeVv (blob : List Byte) : Except DbError VersionVector :=
  (VersionVector.decodeVv blob).elim (.error .vvCodec) .ok

/-- The format of `bincode::serialize`. -/
def metaFormat : Bincode.Format Meta :=
  let kind : Bincode.Format FileKind := (Bincode.Format.fixed 4).via
    (fun tag =>
      if tag = 0 then some .regular
      else if tag = 1 then some .symlink
      else if tag = 2 then some .fifo
      else if tag = 3 then some .charDev
      else if tag = 4 then some .blockDev
      else none)
    FileKind.tag fun k => by cases k <;> rfl
  let u32 : Bincode.Format U32 := .leFin 4 _
  let u64 : Bincode.Format U64 := .leFin 8 _
  (kind.pair <| u32.pair <| u32.pair <| u32.pair <| Bincode.Format.leInt64.pair <| u32.pair <|
    (Bincode.Format.option .leBlob).pair <| u64.pair <|
    .leSeq (Bincode.Format.leBlob.pair .leBlob)).via
    (fun x => some ⟨x.1, x.2.1, x.2.2.1, x.2.2.2.1, x.2.2.2.2.1, x.2.2.2.2.2.1, x.2.2.2.2.2.2.1,
      x.2.2.2.2.2.2.2.1, x.2.2.2.2.2.2.2.2⟩)
    (fun m => (m.kind, m.mode, m.uid, m.gid, m.mtimeS, m.mtimeNs, m.symlinkTarget, m.rdev, m.xattrs))
    fun _ => rfl

/-- `encode_meta`. -/
def encodeMeta (metadata : Option Meta) : Option (List Byte) := metadata.map Meta.serialize

/-- `decode_meta`. -/
def decodeMeta (blob : Option (List Byte)) : Except DbError (Option Meta) :=
  blob.mapM fun b => (metaFormat.front b).elim (.error .vvCodec) .ok

@[simp] theorem blob32_bytes (h : Hash) (what : String) : blob32 h.bytes what = .ok h := by
  have hlen : h.bytes.length = 32 := length_beBytes 32 h.val
  have hval : beValue h.bytes = h.val :=
    beValue_beBytes (lt_of_lt_of_eq h.isLt (by norm_num))
  rw [blob32, if_pos hlen, hval, Fin.ofNat_val_eq_self]

@[simp] theorem blob16_bytes (n : NodeId) (what : String) :
    blob16 (NodeId.bytes n) what = .ok n := by
  have hlen : (NodeId.bytes n).length = 16 := length_beBytes 16 n.val
  have hval : beValue (NodeId.bytes n) = n.val :=
    beValue_beBytes (lt_of_lt_of_eq n.isLt (by norm_num))
  rw [blob16, if_pos hlen, hval, Fin.ofNat_val_eq_self]

/-- The format writes what `Meta.serialize` does. -/
theorem metaFormat_enc (m : Meta) : metaFormat.enc m = m.serialize := by
  rw [Meta.serialize_eq]
  obtain ⟨kind, mode, uid, gid, mtimeS, mtimeNs, symlinkTarget, rdev, xattrs⟩ := m
  cases symlinkTarget <;> rfl

theorem metaFormat_valid {m : Meta} (h : m.Fits) : metaFormat.Valid m := by
  have h32 : ∀ x : U32, x.val < 256 ^ 4 := fun x => lt_of_lt_of_eq x.isLt (by norm_num)
  have hu : u64Bound = 256 ^ 8 := by norm_num [u64Bound]
  refine ⟨Meta.tag_lt _, h32 _, h32 _, h32 _, ?_, h32 _, ?_, ?_, ?_, ?_⟩
  · exact lt_of_lt_of_eq (UInt64.toNat_lt _) (by norm_num)
  · exact fun t ht => (h.target t ht).trans_eq hu
  · exact lt_of_lt_of_eq m.rdev.isLt (by norm_num)
  · exact h.count.trans_eq hu
  · exact fun x hx => ⟨(h.xattrs x hx).1.trans_eq hu, (h.xattrs x hx).2.trans_eq hu⟩

theorem decodeMeta_encodeMeta {metadata : Option Meta} (h : ∀ m, metadata = some m → m.Fits) :
    decodeMeta (encodeMeta metadata) = .ok metadata := by
  cases metadata with
  | none => rfl
  | some m =>
    have hfront : metaFormat.front m.serialize = some m := by
      rw [← metaFormat_enc]
      exact Bincode.Format.front_enc (metaFormat_valid (h m rfl))
    rw [decodeMeta, encodeMeta, Option.map_some, Option.mapM_some, hfront]
    rfl

end Columns

open Columns

/-! ### Rows of the tables -/

/-- The columns of `files`, beside the path. -/
structure FilesColumns where
  contentHash : Option (List Byte)
  mode : Int64
  size : Int64
  vv : List Byte
  tombstone : Bool
  uuid : Option (List Byte)
  metadata : Option (List Byte)
  deriving DecidableEq

/-- The columns of `oplog`. -/
structure OplogColumns where
  opId : List Byte
  origin : List Byte
  originSeq : ℤ
  opType : Int64
  path : Path
  pathOld : Option Path
  uuid : Option (List Byte)
  mode : Int64
  size : Int64
  contentHash : Option (List Byte)
  vv : List Byte
  metadata : Option (List Byte)
  deriving DecidableEq

/-- The columns of `manifest_chunks`, beside content hash and index. -/
structure ChunkColumns where
  chunkHash : List Byte
  len : Int64
  deriving DecidableEq

/-- A live row, as the scanner sees the index. -/
structure LiveFile where
  path : Path
  contentHash : Option Hash
  mode : U32
  size : U64
  deriving DecidableEq

/-- The number of an op type. -/
def opTypeToI64 : OpType → Int64
  | .write => 0
  | .delete => 1
  | .rename => 2

/-- The op type of a number. -/
def opTypeFromI64 (v : Int64) : Except DbError OpType :=
  if v = 0 then .ok .write
  else if v = 1 then .ok .delete
  else if v = 2 then .ok .rename
  else .error (.corrupt "oplog.op_type")

@[simp] theorem opTypeFromI64_opTypeToI64 (t : OpType) : opTypeFromI64 (opTypeToI64 t) = .ok t := by
  cases t <;> rfl

/-- The values are those of the types of the source: counters of 64 bits, and lengths that a `usize`
holds. -/
structure Fits (vv : VersionVector) (metadata : Option Meta) : Prop where
  counters : vv.FitsU64
  entries : vv.map.entries.length < u64Bound
  metaFits : ∀ m, metadata = some m → m.Fits

theorem Fits.decodeVv {vv : VersionVector} {metadata : Option Meta} (h : Fits vv metadata) :
    Columns.decodeVv vv.encodeVv = .ok vv := by
  have hback := VersionVector.decodeVv_encodeVv h.counters h.entries []
  rw [List.append_nil] at hback
  rw [Columns.decodeVv, hback]
  rfl

theorem Fits.decodeMeta {vv : VersionVector} {metadata : Option Meta} (h : Fits vv metadata) :
    Columns.decodeMeta (encodeMeta metadata) = .ok metadata :=
  decodeMeta_encodeMeta h.metaFits

@[simp] theorem mapM_blob32 (hash : Option Hash) (what : String) :
    (hash.map Hash.bytes).mapM (fun h => blob32 h what) = .ok hash := by
  cases hash with
  | none => rfl
  | some h => rw [Option.map_some, Option.mapM_some, blob32_bytes]; rfl

@[simp] theorem mapM_blob16 (uuid : Option NodeId) (what : String) :
    (uuid.map NodeId.bytes).mapM (fun u => blob16 u what) = .ok uuid := by
  cases uuid with
  | none => rfl
  | some u => rw [Option.map_some, Option.mapM_some, blob16_bytes]; rfl

namespace FilesColumns

/-- What `upsert_file` writes. -/
def ofRow (r : Row) : FilesColumns where
  contentHash := r.contentHash.map Hash.bytes
  mode := i64OfU32 r.mode
  size := i64OfU64 r.size
  vv := r.vv.encodeVv
  tombstone := r.tombstone
  uuid := r.uuid.map NodeId.bytes
  metadata := encodeMeta r.metadata

/-- What `load_row` and `all_files` read. -/
def toRow (c : FilesColumns) : Except DbError Row := do
  let contentHash ← c.contentHash.mapM fun h => blob32 h "files.content_hash"
  let vv ← decodeVv c.vv
  let uuid ← c.uuid.mapM fun u => blob16 u "files.uuid"
  let metadata ← decodeMeta c.metadata
  return {
    contentHash, mode := asU32 c.mode, size := asU64 c.size, tombstone := c.tombstone, vv, uuid,
    metadata }

/-- What `load_file` reads. -/
def toLocalFile (c : FilesColumns) : Except DbError LocalFile := do
  let vv ← decodeVv c.vv
  let contentHash ← c.contentHash.mapM fun h => blob32 h "files.content_hash"
  return { vv, tombstone := c.tombstone, contentHash, mode := asU32 c.mode }

/-- What `live_files` reads. -/
def toLiveFile (path : Path) (c : FilesColumns) : Except DbError LiveFile := do
  let contentHash ← c.contentHash.mapM fun h => blob32 h "files.content_hash"
  return { path, contentHash, mode := asU32 c.mode, size := asU64 c.size }

variable {r : Row}

theorem toRow_ofRow (h : Fits r.vv r.metadata) : (ofRow r).toRow = .ok r := by
  simp only [toRow, ofRow, mapM_blob32, mapM_blob16, h.decodeVv, h.decodeMeta, asU32_i64OfU32,
    asU64_i64OfU64]
  rfl

theorem toLocalFile_ofRow (h : Fits r.vv r.metadata) : (ofRow r).toLocalFile =
    .ok { vv := r.vv, tombstone := r.tombstone, contentHash := r.contentHash, mode := r.mode } := by
  simp only [toLocalFile, ofRow, mapM_blob32, h.decodeVv, asU32_i64OfU32]
  rfl

theorem toLiveFile_ofRow (path : Path) (r : Row) : (ofRow r).toLiveFile path =
    .ok { path, contentHash := r.contentHash, mode := r.mode, size := r.size } := by
  simp only [toLiveFile, ofRow, mapM_blob32, asU32_i64OfU32, asU64_i64OfU64]
  rfl

end FilesColumns

namespace OplogColumns

/-- What `insert_op` writes. -/
def ofOp (op : OpRecord) : OplogColumns where
  opId := op.opId.bytes
  origin := NodeId.bytes op.origin
  originSeq := op.originSeq
  opType := opTypeToI64 op.opType
  path := op.path
  pathOld := op.pathOld
  uuid := op.uuid.map NodeId.bytes
  mode := i64OfU32 op.mode
  size := i64OfU64 op.size
  contentHash := op.contentHash.map Hash.bytes
  vv := op.vv.encodeVv
  metadata := encodeMeta op.metadata

/-- What `ops_since` reads. -/
def toOp (c : OplogColumns) : Except DbError OpRecord := do
  let opId ← blob32 c.opId "oplog.op_id"
  let origin ← blob16 c.origin "oplog.origin"
  let opType ← opTypeFromI64 c.opType
  let uuid ← c.uuid.mapM fun u => blob16 u "oplog.uuid"
  let contentHash ← c.contentHash.mapM fun h => blob32 h "oplog.content_hash"
  let metadata ← decodeMeta c.metadata
  let vv ← decodeVv c.vv
  return {
    opId, origin, originSeq := c.originSeq, opType, path := c.path, pathOld := c.pathOld, uuid,
    mode := asU32 c.mode, size := asU64 c.size, contentHash, metadata, vv }

/-- What `ops_as_candidates` reads: a rename that is matched by its source contributes the effect
that it has there. -/
def toCandidate [Blake3] (path : Path) (c : OplogColumns) : Except DbError Version := do
  let opType ← opTypeFromI64 c.opType
  let asSource := opType = .rename ∧ c.path ≠ path
  let tombstone := opType = .delete ∨ asSource
  let metadata ← if tombstone then pure none else decodeMeta c.metadata
  let contentHash ← if tombstone then pure none else
    c.contentHash.mapM fun h => blob32 h "oplog.content_hash"
  let vv ← decodeVv c.vv
  let uuid ← c.uuid.mapM fun u => blob16 u "oplog.uuid"
  return {
    tombstone, contentHash, metaHash := Meta.hashOf metadata, metadata,
    mode := if tombstone then 0 else asU32 c.mode, size := if tombstone then 0 else asU64 c.size,
    vv, uuid }

variable {op : OpRecord}

theorem toOp_ofOp (h : Fits op.vv op.metadata) : (ofOp op).toOp = .ok op := by
  simp only [toOp, ofOp, blob32_bytes, blob16_bytes, opTypeFromI64_opTypeToI64, mapM_blob32,
    mapM_blob16, h.decodeVv, h.decodeMeta, asU32_i64OfU32, asU64_i64OfU64]
  rfl

theorem toCandidate_ofOp [Blake3] (h : Fits op.vv op.metadata) (path : Path) :
    (ofOp op).toCandidate path = .ok (Store.opAsCandidate path op) := by
  simp only [toCandidate, ofOp, opTypeFromI64_opTypeToI64, mapM_blob32, mapM_blob16, h.decodeVv,
    h.decodeMeta, asU32_i64OfU32, asU64_i64OfU64, Store.opAsCandidate]
  by_cases ht : op.opType = .delete ∨ op.opType = .rename ∧ op.path ≠ path
  · simp only [bind, Except.bind, pure, Except.pure, if_pos ht]
    rfl
  · simp only [bind, Except.bind, pure, Except.pure, if_neg ht]
    rfl

end OplogColumns

namespace ChunkColumns

/-- What `put_manifest` writes. -/
def ofEntry (c : ChunkEntry) : ChunkColumns where
  chunkHash := c.hash.bytes
  len := i64OfU32 c.len

/-- What `manifest_for` reads. -/
def toEntry (c : ChunkColumns) : Except DbError ChunkEntry := do
  let hash ← blob32 c.chunkHash "manifest_chunks.chunk_hash"
  return { hash, len := asU32 c.len }

theorem toEntry_ofEntry (c : ChunkEntry) : (ofEntry c).toEntry = .ok c := by
  simp only [toEntry, ofEntry, blob32_bytes, asU32_i64OfU32]
  rfl

end ChunkColumns

end Replicore
